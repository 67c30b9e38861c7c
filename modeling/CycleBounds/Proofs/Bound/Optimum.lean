import CycleBounds.Proofs.Bound.Paths

/-!
# Unrolled loops follow paths

Where all loops are unrolled, every time of an analysis is the time of a complete path: a block
starts when one of its predecessors finishes, and the loops before it have been followed round by
round.

* `attained_region`: every stamp after which a body can be left is the time of a path.
* `finish_attained`: the bound of a procedure is the time of a path.
-/

namespace CycleBounds.Code.Procedure

variable {p : Procedure} {region : Option Nat} {r u v : Nat}

/-- What a block of an order stands for can be left after the block itself, or after the header or
the sink of its loop. -/
def Exit (p : Procedure) (region : Option Nat) (r u : Nat) : Prop :=
  (r = u ∧ (p.headerOf? r = none ∨ p.headerOf? r = region)) ∨
    ∃ l loop, p.headerOf? r = some l ∧ some l ≠ region ∧ p.loops[l]? = some loop ∧
      (u = loop.header ∨ u = loop.sink)

theorem Exit.standsFor (h : p.Exit region r u) (hp : p.WellFormed) : p.StandsFor region r u := by
  rcases h with hself | ⟨l, loop, hh, hne, hl, hu⟩
  · exact .inl hself
  · exact .inr ⟨l, loop, hh, hne, hl, hp.end_mem hl hu⟩

/-- An edge to another block of an order starts at an exit. -/
theorem WellFormed.exit_of_edge (hp : p.WellFormed) (hexits : p.ExitsAtEnds)
    (hr : r ∈ p.orderOf region) (hv : v ∈ p.orderOf region) (hu : p.StandsFor region r u)
    (hedge : p.Edge u v) : p.Exit region r u := by
  rcases hu with hself | ⟨l, loop, hh, hne, hl, hu⟩
  · exact .inl hself
  · refine .inr ⟨l, loop, hh, hne, hl, hexits hl hu hedge fun hmem => ?_⟩
    -- otherwise the edge leads back to the header of the loop
    have hrv : r = v := hp.standsFor_unique hr hv (.inr ⟨l, loop, hh, hne, hl, hmem⟩)
      (hp.standsFor_self region v)
    obtain ⟨loop', hl', rfl⟩ := hp.headerOf_iff.mp hh
    obtain rfl := Option.some.inj (hl.symm.trans hl')
    have hhead : (p.orderOf (some l)).head? = some v := by
      rw [orderOf_loop hl, ← hrv]
      exact hp.head_loop hl
    exact hp.not_inside_of_edge_head hhead hedge ((inside_loop hl).mpr hu)

/-- A block of an order is an exit of what it stands for. -/
theorem WellFormed.exit_self (hp : p.WellFormed) (region : Option Nat) (r : Nat) :
    p.Exit region r r := by
  rcases hp.standsFor_self region r with hself | ⟨l, loop, hh, hne, hl, -⟩
  · exact .inl hself
  · obtain ⟨loop', hl', hheader⟩ := hp.headerOf_iff.mp hh
    obtain rfl := Option.some.inj (hl.symm.trans hl')
    exact .inr ⟨l, loop, hh, hne, hl, .inl hheader.symm⟩

end CycleBounds.Code.Procedure

namespace CycleBounds.Bound.Engine

open Code (Procedure Loop)
open Run (Issue Part Path Sweep roundContext)

variable {e : Engine} {scenario : Scenario} {call : Call} {inner : Inner} {p : Procedure}

/-- A path through a part of the program leads from a time to another. -/
def Attains (e : Engine) (scenario : Scenario) (part : Part) (start finish : Nat) : Prop :=
  ∃ path, Path e.program scenario.rounds part path ∧ e.clock scenario path start = finish

def CallAttains (e : Engine) (scenario : Scenario) (call : Call) : Prop :=
  ∀ {q start ledger timing ledger'},
    (call scenario false q start ledger).result = .ok (timing, ledger') →
    e.Attains scenario (.procedure q) start (start + timing.cost)

def InnerAttains (e : Engine) (scenario : Scenario) (p : Procedure) (inner : Inner) : Prop :=
  ∀ {l loop region context r s progress progress' u},
    (inner scenario false l context s progress).result = .ok progress' → p.headerOf? r = some l →
    some l ≠ region → p.loops[l]? = some loop → (u = loop.header ∨ u = loop.sink) →
    ∃ o, progress'.times.get? u = some o ∧
      e.Attains scenario (.element p region context r u) s.finish o.finish

section Bodies

variable {region : Option Nat} {context : Context} {s : Stamp} {progress progress' : Progress}
  {b r u start : Nat}

/-- A block ends when some path through its instructions ends. -/
theorem attained_block {bus : Bus.Tracker} {ledger ledger' : Ledger}
    (hcall : CallAttains e scenario call)
    (hself : p.headerOf? b = none ∨ p.headerOf? b = region)
    (h : (e.block call scenario false p b context start bus ledger).result = .ok (s, ledger')) :
    e.Attains scenario (.element p region context b b) start s.finish := by
  obtain ⟨block, g, hblock, hfirst, hfinish, -, -, hsteps⟩ := block_eq_ok h
  have hcode : ∀ n ≤ block.instructions.length,
      e.Attains scenario (.code p b context n) start (start + (g n).cost) := by
    intro n hn
    induction n with
    | zero => exact ⟨[], .start, by rw [hfirst]; rfl⟩
    | succ n ih =>
      obtain ⟨path, hpath, hclock⟩ := ih (Nat.le_of_succ_le hn)
      have hi := List.getElem?_eq_getElem hn
      obtain ⟨d, hfetch, hcases⟩ := charge_eq_ok (hsteps n _ hi)
      -- the clock charges a fetch just as the engine does
      have hnext : e.after scenario ⟨⟨p.id, b, context⟩, n, block.instructions[n].address⟩
          (start + (g n).cost) = start + ((g n).cost + d + e.platform.instrCost scenario) := by
        rw [Engine.after, ← fetch_eq_ok hfetch]
        omega
      cases hc : block.instructions[n].callee with
      | none =>
        simp only [hc] at hcases
        refine ⟨_, hpath.fetch hblock hi hc, ?_⟩
        rw [clock_append, hclock, clock_cons, hnext, clock_nil, hcases.1]
      | some q =>
        simp only [hc] at hcases
        obtain ⟨timing, hrun, hcost⟩ := hcases
        obtain ⟨path', hpath', hclock'⟩ := hcall hrun
        refine ⟨_, hpath.call hblock hi hc hpath', ?_⟩
        rw [clock_append, hclock, clock_cons, hnext, hclock', hcost, Nat.add_assoc]
  obtain ⟨path, hpath, hclock⟩ := hcode _ (Nat.le_refl _)
  exact ⟨path, .block hblock hself hpath, hclock.trans hfinish.symm⟩

theorem attained_visit (hcall : CallAttains e scenario call)
    (hinner : InnerAttains e scenario p inner) (hu : p.Exit region r u)
    (h : (e.visit call inner scenario false p region context r s progress).result =
      .ok progress') :
    ∃ o, progress'.times.get? u = some o ∧
      e.Attains scenario (.element p region context r u) s.finish o.finish := by
  rcases hu with ⟨rfl, hself⟩ | ⟨l, loop, hh, hne, hl, hu⟩
  · obtain ⟨stamp, ledger, hblock, rfl⟩ := visit_of_block hself h
    exact ⟨stamp, Table.get?_insert_self _ _ _, attained_block hcall hself hblock⟩
  · exact hinner (visit_of_header hh hne h) hh hne hl hu

/-- Every stamp after which a body can be left is the time of a path. -/
theorem attained_region (hp : p.WellFormed) (hexits : p.ExitsAtEnds)
    (hstamps : InnerStamps scenario false p inner) (hcall : CallAttains e scenario call)
    (hinner : InnerAttains e scenario p inner) (hr : r ∈ p.orderOf region)
    (hu : p.Exit region r u)
    (h : (e.region call inner scenario false p region context (p.orderOf region) s
      progress).result = .ok progress') :
    ∃ o, progress'.times.get? u = some o ∧
      e.Attains scenario (.body p region context u) s.finish o.finish := by
  rw [region_result] at h
  have hall := Sweep.valid_of_run (b := u)
    (fun v s' => ∃ w, p.Edge w v ∧
      e.Attains scenario (.body p region context w) s.finish s'.finish)
    (fun b o => ∀ q ∈ p.orderOf region, p.Exit region q b →
      e.Attains scenario (.body p region context b) s.finish o.finish)
    hp (sweep_local hstamps) ?_ ?_ ?_ h (hp.inside hr (hu.standsFor hp))
  · obtain ⟨o, ho, hvalid⟩ := hall
    exact ⟨o, ho, hvalid r hr hu⟩
  · rintro v s' t t' hv hvisit ⟨w, hedge, before, hbefore, hclock⟩ b hb
    obtain ⟨o, ho, -⟩ := sweep_stamped hstamps hvisit hb
    refine ⟨o, ho, fun q hq hexit => ?_⟩
    obtain rfl := hp.standsFor_unique hq hv (hexit.standsFor hp) hb
    obtain ⟨o', ho', path, hpath, hclock'⟩ := attained_visit hcall hinner hexit hvisit
    obtain rfl := Option.some.inj (ho.symm.trans ho')
    exact ⟨before ++ path, hbefore.next hedge hv hpath, by rw [clock_append, hclock, hclock']⟩
  · intro v s' t hv hbefore hpreds
    -- the block starts with one of its predecessors, so a path to that one is continued
    obtain ⟨⟨w, hedge, hget⟩, -⟩ := stampBefore_eq_ok hp (mapError_eq_ok.mp hbefore)
    obtain ⟨hin, o, ho, hvalid⟩ := hpreds w hedge
    obtain rfl := Option.some.inj (hget.symm.trans ho)
    obtain ⟨q, hq, hqw⟩ := hp.exists_standsFor hin
    exact ⟨w, hedge, hvalid q hq (hp.exit_of_edge hexits hq hv hqw hedge)⟩
  · intro q t₁ hhead hvisit b hb
    obtain ⟨o, ho, -⟩ := sweep_stamped hstamps hvisit hb
    refine ⟨o, ho, fun q' hq' hexit => ?_⟩
    obtain rfl := hp.standsFor_unique hq' (List.mem_of_mem_head? hhead) (hexit.standsFor hp) hb
    obtain ⟨o', ho', path, hpath, hclock⟩ := attained_visit hcall hinner hexit hvisit
    obtain rfl := Option.some.inj (ho.symm.trans ho')
    exact ⟨path, .enter hhead hpath, hclock⟩

end Bodies

/-! ### Loops and calls -/

/-- Paths through the rounds of a loop make a path through the loop. -/
theorem clock_rounds {path : Nat → List Issue} {z : Nat → Nat} {n : Nat}
    (hround : ∀ k < n, e.clock scenario (path k) (z k) = z (k + 1)) :
    e.clock scenario ((List.range n).flatMap path) (z 0) = z n := by
  induction n with
  | zero => simp
  | succ n ih =>
    rw [List.range_succ, List.flatMap_append, clock_append, List.flatMap_singleton,
      ih fun k hk => hround k (Nat.lt_succ_of_lt hk)]
    exact hround n (Nat.lt_succ_self n)

/-- An unrolled loop ends when some path through all its rounds ends. -/
theorem innerAttains_loopAt (hp : p.WellFormed) (hexits : p.ExitsAtEnds)
    (hloops : e.platform.loops = .unroll) (hcall : CallAttains e scenario call) (n : Nat) :
    InnerAttains e scenario p (e.loopAt call p n) := by
  induction n with
  | zero => nofun
  | succ n ih =>
    intro l loop region context r s progress progress' u h hh hne hl hu
    obtain ⟨loop', hl', ⟨hzero, rfl⟩ | ⟨hbound, hloop⟩⟩ := loopAt_eq_ok h
    all_goals obtain rfl := Option.some.inj (hl.symm.trans hl')
    · have hmem := hp.end_mem hl hu
      rw [get?_spread, if_pos hmem]
      exact ⟨_, rfl, [], .pass hh hne hl hzero hmem, rfl⟩
    · simp only [Engine.loop, hloops] at hloop
      obtain ⟨m, g, hg⟩ := unroll_eq_ok hbound hloop
      obtain rfl := iterations_eq_ok hg.count
      obtain ⟨hsink, -⟩ := hp.sink_mem hl
      rw [← Procedure.orderOf_loop hl] at hsink
      -- every round is a path from the end of the one before to its own end
      have hround : ∀ k < scenario.rounds loop, e.Attains scenario
          (.body p (some l) (roundContext context k) loop.sink) (g k).1.finish
          (g (k + 1)).1.finish := by
        intro k hk
        have hrun := hg.runs k hk
        rw [bodyOf, ← Procedure.orderOf_loop hl] at hrun
        obtain ⟨o, ho, hattains⟩ := attained_region hp hexits (innerStamps_loopAt hp n) hcall ih
          hsink (hp.exit_self _ _) hrun
        obtain rfl := Option.some.inj (ho.symm.trans (hg.sink k hk))
        exact hattains
      choose! path hpath hclock using hround
      obtain ⟨o, ho, hfinish⟩ := hg.exit_stamp hu
      refine ⟨o, ho, _, .loop hh hne hl hbound hpath hu, ?_⟩
      rw [hfinish, ← hg.start_finish]
      exact clock_rounds (z := fun k => (g k).1.finish) hclock

/-- A call ends when some path through the called procedure ends. -/
theorem callAttains_procedureAt (hprogram : e.program.Accepted)
    (hexits : ∀ p ∈ e.program.procedures, p.ExitsAtEnds) (hloops : e.platform.loops = .unroll)
    (n : Nat) : CallAttains e scenario (e.procedureAt n) := by
  induction n with
  | zero => nofun
  | succ n ih =>
    intro q start ledger timing ledger' h
    obtain ⟨p, progress, hq, hregion, hexit, hfinish, -⟩ := procedureAt_eq_ok h
    have hp := hprogram.wellFormed hq
    have hends : p.ExitsAtEnds := hexits p (List.mem_of_getElem? hq)
    obtain ⟨⟨b, hb, o, ho, hlast⟩, -⟩ := exitTime_eq_ok hexit
    obtain ⟨o', ho', path, hpath, hclock⟩ := attained_region hp hends
      (innerStamps_loopAt hp _) ih (innerAttains_loopAt hp hends hloops ih _) (hp.sinks_mem hb)
      (hp.exit_self none b) hregion
    obtain rfl := Option.some.inj (ho.symm.trans ho')
    refine ⟨path, .procedure hq hb hpath, ?_⟩
    rw [hfinish, ← hlast]
    exact hclock

/-! ### The optimum -/

variable {entry start : Nat} {timing : Timing}

/-- What an analysis says about the entry procedure. -/
theorem analyze_eq_ok (h : (e.analyze entry start scenario).result = .ok timing) :
    start + timing.cost = timing.finish ∧ ∃ n ledger,
      (e.procedureAt n scenario false entry start .empty).result = .ok (timing, ledger) := by
  obtain ⟨ledger, hcall⟩ := trace_of_analyze h
  obtain ⟨-, -, -, -, -, hfinish, -⟩ := procedureAt_eq_ok hcall
  exact ⟨hfinish, _, ledger, hcall⟩

/-- The bound of an analysis that unrolls loops is the time of a path. -/
theorem finish_attained (hprogram : e.program.Accepted)
    (hexits : ∀ p ∈ e.program.procedures, p.ExitsAtEnds) (hloops : e.platform.loops = .unroll)
    (h : (e.analyze entry start scenario).result = .ok timing) :
    e.Attains scenario (.procedure entry) start timing.finish := by
  obtain ⟨hfinish, n, ledger, hcall⟩ := analyze_eq_ok h
  rw [← hfinish]
  exact callAttains_procedureAt hprogram hexits hloops n hcall

/-- The bound of an analysis that unrolls loops bounds all paths. -/
theorem finish_bounds {actual : Scenario} (hprogram : e.program.Accepted)
    (hcharges : Charges e actual scenario)
    (hloops : BoundsLoops e actual scenario fun _ => True)
    (h : (e.analyze entry start scenario).result = .ok timing) {t : Nat}
    (ht : e.Attains actual (.procedure entry) start t) : scenario.Bounds timing.finish t := by
  obtain ⟨hfinish, n, ledger, hcall⟩ := analyze_eq_ok h
  obtain ⟨path, hpath, rfl⟩ := ht
  rw [← hfinish]
  exact bounded_of_path hprogram hcharges (keeps_true e scenario) hloops hpath hcall trivial

end CycleBounds.Bound.Engine
