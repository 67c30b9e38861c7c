import CycleBounds.Proofs.Bound.Rounds

/-!
# Timing loops and calls

An unrolled loop is followed round by round, and all exits take the time at which the sink finishes
in the last round. Executions that leave the loop earlier, or repeat it more often, are covered by
what the scenario asks of times (`Safe`).

* `Rounds.flow`: an unrolled loop keeps times on the safe side.
* `callSafe_procedureAt`: so do calls, by induction on the length of chains of calls.
* `finish_safe`: the bound of an analysis is on the safe side of all executions.
-/

namespace CycleBounds.Bound.Engine

open Code (Program Procedure Loop)
open Run (History Laps Policy Contract FlowAt FlowBody Encloses)

variable {e : Engine} {scenario : Scenario} {policy : Policy} {cover : Nat → History → Prop}
  {call : Call} {p : Procedure} {l n : Nat} {loop : Loop} {body : Body} {context : Context}
  {entry : Stamp} {progress progress' : Progress}

/-! ### Loops -/

structure BodySafe (e : Engine) (scenario : Scenario) (policy : Policy)
    (cover : Nat → History → Prop) (p : Procedure) (l : Nat) (loop : Loop) (body : Body) :
    Prop extends BodyStamps scenario p l loop body where
  flow : ∀ {s progress progress'} {base : Laps},
    (body scenario false base.context s progress).result = .ok progress' →
    Encloses p base (some l) →
    FlowBody policy e.program (fun _ => True) p (some l) base (cover s.finish)
      (Leaves cover progress'.times)

/-- An unrolled loop keeps times on the safe side. -/
theorem Rounds.flow {g : Nat → Stamp × Progress} {base : Laps} {region : Option Nat} {r : Nat}
    (hp : p.WellFormed) (hexits : p.ExitsAtEnds) (hsafe : Safe e scenario policy cover)
    (hbody : BodySafe e scenario policy cover p l loop body) (hl : p.loops[l]? = some loop)
    (hbound : 0 < loop.bound)
    (hg : Rounds body scenario loop base.context entry progress progress' n g)
    (hh : p.headerOf? r = some l) (hne : some l ≠ region) (hr : r ∈ p.orderOf region)
    (hbase : Encloses p base region) :
    FlowAt policy e.program (fun _ => True) p region base r (cover entry.finish)
      (Leaves cover progress'.times) := by
  have hinner := fun k => hbase.inner hp hr hh hne hl k
  have hstart : entry.finish = (g (min 0 n)).1.finish := by rw [Nat.zero_min, hg.start_finish]
  rw [hstart]
  -- rounds beyond those that are followed start and end after the last one
  refine Run.flow_loop hp hh hne hl hbound (fun k => cover (g (min k n)).1.finish)
    (fun k b h => (k < n → Leaves cover (g (k + 1)).2.times b h) ∧
      (n ≤ k → cover (g n).1.finish h)) ?_ ?_ ?_
  · intro k hk
    by_cases hkn : k < n
    · have hrun : (body scenario false (Laps.context ((l, k) :: base)) (g k).1 (g k).2).result =
          .ok (g (k + 1)).2 := hg.runs k hkn
      rw [Nat.min_eq_left (Nat.le_of_lt hkn)]
      apply (hbody.flow hrun (hinner k)).imp (fun _ => id)
      exact fun b h _ hleave => ⟨fun _ => hleave, fun hnk => absurd hkn (Nat.not_lt.mpr hnk)⟩
    · have hagain : policy.again loop k := hk.resolve_left fun hzero => hkn (hzero ▸ hg.pos)
      have hgrow := (hsafe.rounds hg.count hagain).resolve_left hkn
      rw [Nat.min_eq_right (Nat.not_lt.mp hkn)]
      apply (Run.flow_kept hp (hinner k) fun i h => hgrow _ h i).imp (fun _ => id)
      exact fun b h _ hh => ⟨fun hkn' => absurd hkn' hkn, fun _ => hh⟩
  · rintro k h - ⟨hfollowed, hbeyond⟩
    by_cases hkn : k < n
    · obtain ⟨o, ho, hcover⟩ := hfollowed hkn
      obtain rfl := Option.some.inj (ho.symm.trans (hg.sink k hkn))
      rwa [Nat.min_eq_left hkn]
    · rw [Nat.min_eq_right (Nat.le_succ_of_le (Nat.not_lt.mp hkn))]
      exact hbeyond (Nat.not_lt.mp hkn)
  · rintro k b h hb hallowed hleft ⟨hfollowed, hbeyond⟩
    -- the loop is left with the stamp of the last round, however many rounds there were
    have hends := hp.left_at_ends hexits hl hb hleft
    have hsink : loop.sink ∈ loop.blocks := (Procedure.inside_loop hl).mp (hp.sink_inside hl)
    obtain ⟨o, ho, hfinish⟩ := hg.exit_stamp hends
    refine ⟨o, ho, ?_⟩
    rw [hfinish]
    by_cases hkn : k < n
    · obtain ⟨o', ho', hcover⟩ := hfollowed hkn
      rcases hsafe.leave hg.count hallowed hkn with ⟨rfl, rfl⟩ | hlater
      · rwa [Option.some.inj (ho'.symm.trans (hg.sink k hkn))] at hcover
      · exact hlater _ _ h (hg.finish_le hbody.toBodyStamps hsink hkn hends ho') hcover
    · exact hbeyond (Nat.not_lt.mp hkn)

theorem bodySafe_bodyOf (hp : p.WellFormed) (hsafe : Safe e scenario policy cover)
    (hcall : CallSafe e scenario policy cover call)
    (hinner : InnerSafe e scenario policy cover p (e.loopAt call p n))
    (hl : p.loops[l]? = some loop) :
    BodySafe e scenario policy cover p l loop (bodyOf e call p n l loop) where
  toBodyStamps := bodyStamps_bodyOf hp hinner.toInnerStamps hl
  flow := by
    intro s progress progress' base h hbase
    have hhead : (p.orderOf (some l)).head? = some loop.header :=
      Procedure.orderOf_loop hl ▸ hp.head_loop hl
    rw [bodyOf, ← Procedure.orderOf_loop hl] at h
    exact region_flow hp hsafe hcall hinner hbase hhead h

/-- Unrolled loops keep times on the safe side, however deep they nest. -/
theorem innerSafe_loopAt (hp : p.WellFormed) (hexits : p.ExitsAtEnds)
    (hloops : e.platform.loops = .unroll) (hsafe : Safe e scenario policy cover)
    (hcall : CallSafe e scenario policy cover call) (n : Nat) :
    InnerSafe e scenario policy cover p (e.loopAt call p n) := by
  induction n with
  | zero => exact ⟨⟨nofun, nofun⟩, nofun⟩
  | succ n ih =>
    refine ⟨innerStamps_loopAt hp (n + 1), ?_⟩
    intro l s progress progress' region r base h hh hne hr hbase
    obtain ⟨loop, hl, ⟨hzero, rfl⟩ | ⟨hbound, hloop⟩⟩ := loopAt_eq_ok h
    · -- a loop that is passed takes no time
      apply (Run.flow_pass hh hne hl hzero fun _ _ => trivial).imp (fun _ => id)
      intro b h hb hcover
      have hmem := (Procedure.standsFor_header hh hne hl).mp hb
      exact ⟨⟨s.finish, s.finish, .start⟩, by rw [get?_spread, if_pos hmem], hcover⟩
    · simp only [Engine.loop, hloops] at hloop
      obtain ⟨m, g, hg⟩ := unroll_eq_ok hbound hloop
      exact hg.flow hp hexits hsafe (bodySafe_bodyOf hp hsafe hcall ih hl) hl hbound hh hne hr
        hbase

/-! ### Procedures -/

variable {q start : Nat} {ledger ledger' : Ledger} {timing : Timing}

/-- Calls are on the safe side of all runs of the called procedures. -/
theorem callSafe_procedureAt (hprogram : e.program.Accepted)
    (hexits : ∀ p ∈ e.program.procedures, p.ExitsAtEnds) (hloops : e.platform.loops = .unroll)
    (hsafe : Safe e scenario policy cover) (n : Nat) :
    CallSafe e scenario policy cover (e.procedureAt n) := by
  induction n with
  | zero => nofun
  | succ n ih =>
    intro q start ledger timing ledger' h
    obtain ⟨p, progress, hq, hregion, hexit, hfinish, -⟩ := procedureAt_eq_ok h
    have hp := hprogram.wellFormed hq
    have hinner := innerSafe_loopAt hp (hexits p (List.mem_of_getElem? hq)) hloops hsafe ih
      p.loops.length
    have hbase : Encloses p [] none := nofun
    have hbody := region_flow hp hsafe ih hinner hbase hp.head_order hregion
    rw [hfinish]
    apply Run.contract_of_body hp hq hbody
    rintro b hb h ⟨o, ho, hcover⟩
    exact hsafe.mono ((exitTime_eq_ok hexit).2 b o hb ho) hcover

/-- The time at which the entry procedure finishes is on the safe side of all executions. -/
theorem finish_safe (hprogram : e.program.Accepted)
    (hexits : ∀ p ∈ e.program.procedures, p.ExitsAtEnds) (hloops : e.platform.loops = .unroll)
    (hsafe : Safe e scenario policy cover)
    (hresult : (e.analyze q start scenario).result = .ok timing)
    (hentry : e.program.procedures[q]? = some p) {h : History} (hstart : cover start [])
    (hrun : Run.Completes policy e.program p [] h) :
    cover timing.finish h ∧ start + timing.cost = timing.finish := by
  simp only [analyze, trace, Traced.result_bind, Traced.result_pure] at hresult
  obtain ⟨⟨timing, ledger⟩, hcall, hresult⟩ := bind_eq_ok.mp hresult
  obtain rfl := Except.ok.inj hresult
  obtain ⟨-, -, -, -, -, hfinish, -⟩ := procedureAt_eq_ok hcall
  refine ⟨?_, hfinish⟩
  rw [← hfinish]
  exact (callSafe_procedureAt hprogram hexits hloops hsafe _ hcall).returns hentry hstart hrun

end CycleBounds.Bound.Engine
