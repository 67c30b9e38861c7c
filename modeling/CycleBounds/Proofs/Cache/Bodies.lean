import CycleBounds.Proofs.Cache.Blocks

/-!
# Following bodies at one cache level

What holds of single blocks holds of bodies. An inner loop is right about executions if its states
cover the caches with which they leave it (`InnerSound`).

* `sweep`: the analysis of a body visits its blocks in their order.
* `region_flow`: a body is right about executions if calls and inner loops are.
-/

namespace CycleBounds.Cache.Level

open Code (Program Procedure Loop)
open Run (History Laps Policy Contract FlowAt FlowBody Encloses Sweep)

variable {subject : Subject} {final : Findings} {feed : Feed subject.config} {call : Call}
  {inner : Inner} {recording : Bool} {p : Procedure}

/-! ### Bodies -/

def Leaves (subject : Subject) (final : Findings) (feed : Feed subject.config) (recording : Bool)
    (out : Table Nat State) (b : Nat) (h : History) : Prop :=
  ∃ o, out.get? b = some o ∧ Tracks subject final feed recording o h

structure InnerSound (subject : Subject) (final : Findings) (feed : Feed subject.config)
    (p : Procedure) (inner : Inner) : Prop where
  outside : ∀ {recording l context s pass pass' b},
    (inner recording l context s pass).result = .ok pass' → ¬ p.Inside (some l) b →
    pass'.out.get? b = pass.out.get? b
  below : ∀ {recording l context s pass pass'},
    (inner recording l context s pass).result = .ok pass' → pass.findings.Below pass'.findings
  fits : ∀ {recording l context s pass pass' b},
    (inner recording l context s pass).result = .ok pass' → s.Fits subject.config →
    p.Inside (some l) b → ∃ o, pass'.out.get? b = some o ∧ o.Fits subject.config
  flow : ∀ {recording l s pass pass' region r} {base : Laps},
    (inner recording l base.context s pass).result = .ok pass' → pass'.findings.Below final →
    s.Fits subject.config → p.headerOf? r = some l → some l ≠ region → r ∈ p.orderOf region →
    Encloses p base region →
    FlowAt .free subject.program (Right subject final feed recording) p region base r
      (Tracks subject final feed recording s) (Leaves subject final feed recording pass'.out)

def sweep (subject : Subject) (call : Call) (inner : Inner) (recording : Bool) (p : Procedure)
    (current : Option Nat) (context : Context) : Sweep Fault State Pass where
  visit b s pass := (visit subject call inner recording p current context b s pass).result
  before pass b := stateBefore p pass.out b
  out pass b := pass.out.get? b

theorem region_result {current : Option Nat} {context : Context} {order : List Nat} {s : State}
    {pass : Pass} : (region subject call inner recording p current context order s pass).result =
      (sweep subject call inner recording p current context).run order s pass := by
  cases order with
  | nil => rfl
  | cons b rest =>
    simp only [region, Traced.result_bind, Traced.result_foldlM, Traced.result_liftM]
    rfl

/-- A visit follows an inner loop or the block itself. -/
theorem visit_eq_ok {current : Option Nat} {context : Context} {b : Nat} {s : State}
    {pass pass' : Pass}
    (h : (visit subject call inner recording p current context b s pass).result = .ok pass') :
    (∃ l, p.headerOf? b = some l ∧ some l ≠ current ∧
      (inner recording l context s pass).result = .ok pass') ∨
    (p.headerOf? b = none ∨ p.headerOf? b = current) ∧ ∃ s' f',
      (block subject call recording p b context s pass.findings).result = .ok (s', f') ∧
      pass' = ⟨f', pass.out.insert b s'⟩ := by
  simp only [visit, Traced.result_bind, Traced.result_liftM] at h
  obtain ⟨blk, hblk, h⟩ := bind_eq_ok.mp h
  have hcases := Procedure.headerOf?_cases (entryAt_eq_ok.mp hblk) current
  -- the header of an inner loop stands for the loop, any other block for itself
  cases hfilter : blk.headerOf.filter fun l => some l ≠ current with
  | some l =>
    rw [hfilter] at h hcases
    exact .inl ⟨l, hcases.1, hcases.2, h⟩
  | none =>
    rw [hfilter, Traced.result_bind] at h
    rw [hfilter] at hcases
    obtain ⟨⟨s', f'⟩, hblock, h⟩ := bind_eq_ok.mp h
    rw [Traced.result_pure, Except.ok.injEq] at h
    exact .inr ⟨hcases, s', f', hblock, h.symm⟩

/-- The state before a block is the join over the predecessors that have states. -/
theorem stateBefore_eq_ok {out : Table Nat State} {b : Nat} {s : State}
    (h : stateBefore p out b = .ok s) : ∃ blk t rest, p.blocks[b]? = some blk ∧
      blk.preds.filterMap out.get? = t :: rest ∧ s = rest.foldl State.join t := by
  obtain ⟨blk, hblk, h⟩ := bind_eq_ok.mp h
  refine ⟨blk, ?_⟩
  cases hpreds : blk.preds.filterMap out.get? with
  | nil =>
    rw [hpreds] at h
    cases h
  | cons t rest =>
    rw [hpreds, pure_eq_ok] at h
    exact ⟨t, rest, entryAt_eq_ok.mp hblk, rfl, h.symm⟩

section Regions

variable {current : Option Nat} {context : Context} {s : State} {pass pass' : Pass}

theorem sweep_local (hinner : InnerSound subject final feed p inner) :
    (sweep subject call inner recording p current context).Local p current := by
  intro r s pass pass' hr hv b hb
  rcases visit_eq_ok hv with ⟨l, hh, hne, hl⟩ | ⟨hself, s', f', -, rfl⟩
  · refine hinner.outside hl fun ⟨loop, hloop, hmem⟩ => hb (.inr ⟨l, loop, hh, hne, hloop, hmem⟩)
  · exact Table.get?_insert_of_ne _ (fun heq => hb (.inl ⟨heq.symm, hself⟩)) _

theorem sweep_below (hcall : CallSound subject final feed call)
    (hinner : InnerSound subject final feed p inner) {r : Nat}
    (hv : (sweep subject call inner recording p current context).visit r s pass = .ok pass') :
    pass.findings.Below pass'.findings := by
  rcases visit_eq_ok hv with ⟨l, -, -, hl⟩ | ⟨-, s', f', hblock, rfl⟩
  · exact hinner.below hl
  · exact block_below hcall hblock

theorem sweep_fits (hcall : CallSound subject final feed call)
    (hinner : InnerSound subject final feed p inner) {r b : Nat}
    (hv : (sweep subject call inner recording p current context).visit r s pass = .ok pass')
    (hs : s.Fits subject.config) (hb : p.StandsFor current r b) :
    ∃ o, pass'.out.get? b = some o ∧ o.Fits subject.config := by
  rcases visit_eq_ok hv with ⟨l, hh, hne, hl⟩ | ⟨hself, s', f', hblock, rfl⟩
  · exact hinner.fits hl hs (hb.inside_inner hh hne)
  · obtain rfl := hb.eq_self hself
    exact ⟨s', Table.get?_insert_self _ _ _, block_fits hcall hblock hs⟩

/-- Ages are below the number of ways before a block if they are after its predecessors. -/
theorem sweep_before_fits (hp : p.WellFormed) {v : Nat}
    (h : (sweep subject call inner recording p current context).before pass v = .ok s)
    (hpreds : ∀ u, p.Edge u v → ∃ o, pass.out.get? u = some o ∧ o.Fits subject.config) :
    s.Fits subject.config := by
  obtain ⟨blk, t, rest, hblk, hlist, rfl⟩ := stateBefore_eq_ok h
  have hfits : ∀ o ∈ t :: rest, o.Fits subject.config := by
    intro o ho
    rw [← hlist, List.mem_filterMap] at ho
    obtain ⟨u, hu, hget⟩ := ho
    obtain ⟨o', hget', hfit⟩ := hpreds u (hp.edge_iff.mpr ⟨blk, hblk, hu⟩)
    obtain rfl := Option.some.inj (hget.symm.trans hget')
    exact hfit
  exact State.foldl_join_of_forall State.Fits.join hfits

/-- The state before a block covers the ends of all its predecessors. -/
theorem sweep_before_tracks (hp : p.WellFormed) {v u : Nat} {o : State} {hist : History}
    (h : (sweep subject call inner recording p current context).before pass v = .ok s)
    (he : p.Edge u v) (hget : pass.out.get? u = some o)
    (ht : Tracks subject final feed recording o hist) :
    Tracks subject final feed recording s hist := by
  obtain ⟨blk, t, rest, hblk, hlist, rfl⟩ := stateBefore_eq_ok h
  obtain ⟨blk', hblk', hu⟩ := hp.edge_iff.mp he
  obtain rfl := Option.some.inj (hblk.symm.trans hblk')
  have ho : o ∈ t :: rest := by
    rw [← hlist, List.mem_filterMap]
    exact ⟨u, hu, hget⟩
  exact ht.imp (State.Covers.foldl_join ho)

theorem sweep_flow (hp : p.WellFormed) (hcall : CallSound subject final feed call)
    (hinner : InnerSound subject final feed p inner) {base : Laps}
    (hbase : Encloses p base current) {r : Nat} (hr : r ∈ p.orderOf current)
    (hv : (sweep subject call inner recording p current base.context).visit r s pass = .ok pass')
    (hf : pass'.findings.Below final) (hs : s.Fits subject.config) :
    FlowAt .free subject.program (Right subject final feed recording) p current base r
      (Tracks subject final feed recording s) (Leaves subject final feed recording pass'.out) := by
  rcases visit_eq_ok hv with ⟨l, hh, hne, hl⟩ | ⟨hself, s', f', hblock, rfl⟩
  · exact hinner.flow hl hf hs hh hne hr hbase
  · refine (flow_of_block hp hcall hblock hf hs hself).imp (fun _ => id) fun b h hb ht => ?_
    obtain rfl := hb.eq_self hself
    exact ⟨s', Table.get?_insert_self _ _ _, ht⟩

variable {order : List Nat}

theorem region_outside (hp : p.WellFormed) (hinner : InnerSound subject final feed p inner)
    (h : (region subject call inner recording p current context (p.orderOf current) s
      pass).result = .ok pass') {b : Nat} (hb : ¬ p.Inside current b) :
    pass'.out.get? b = pass.out.get? b := by
  rw [region_result] at h
  exact Sweep.out_of_run (sweep_local hinner) hp h hb

theorem region_below (hcall : CallSound subject final feed call)
    (hinner : InnerSound subject final feed p inner)
    (h : (region subject call inner recording p current context order s pass).result =
      .ok pass') : pass.findings.Below pass'.findings := by
  rw [region_result] at h
  exact Sweep.rel_of_run (R := fun t u => t.findings.Below u.findings) (fun _ => .refl _) .trans
    (fun _ _ => sweep_below hcall hinner) h

theorem region_fits (hp : p.WellFormed) (hcall : CallSound subject final feed call)
    (hinner : InnerSound subject final feed p inner)
    (h : (region subject call inner recording p current context (p.orderOf current) s
      pass).result = .ok pass') (hs : s.Fits subject.config) {b : Nat} (hb : p.Inside current b) :
    ∃ o, pass'.out.get? b = some o ∧ o.Fits subject.config := by
  rw [region_result] at h
  exact Sweep.valid_of_run (fun _ => State.Fits subject.config)
    (fun _ => State.Fits subject.config) hp (sweep_local hinner)
    (fun _ hv hs _ hb => sweep_fits hcall hinner hv hs hb)
    (fun _ h hpreds => sweep_before_fits hp h fun u he => (hpreds u he).2)
    (fun _ hv _ hb => sweep_fits hcall hinner hv hs hb) h hb

/-- A body whose blocks the findings record. -/
theorem region_flow (hp : p.WellFormed) (hcall : CallSound subject final feed call)
    (hinner : InnerSound subject final feed p inner) {base : Laps}
    (hbase : Encloses p base current) {r : Nat} (hhead : (p.orderOf current).head? = some r)
    (h : (region subject call inner recording p current base.context (p.orderOf current) s
      pass).result = .ok pass') (hf : pass'.findings.Below final) (hs : s.Fits subject.config) :
    FlowBody .free subject.program (Right subject final feed recording) p current base
      (Tracks subject final feed recording s) (Leaves subject final feed recording pass'.out) := by
  rw [region_result] at h
  exact Sweep.flow_of_run (State.Fits subject.config) (fun pass => pass.findings.Below final)
    (Tracks subject final feed recording) hp (sweep_local hinner) hbase
    (fun _ hv hf => (sweep_below hcall hinner hv).trans hf)
    (fun _ hv hs _ hb => sweep_fits hcall hinner hv hs hb)
    (fun hbefore hpreds => ⟨sweep_before_fits hp hbefore hpreds,
      fun he hget _ => sweep_before_tracks hp hbefore he hget⟩)
    (fun hr hv hf hs => sweep_flow hp hcall hinner hbase hr hv hf hs) h hf hs hhead

end Regions

end CycleBounds.Cache.Level
