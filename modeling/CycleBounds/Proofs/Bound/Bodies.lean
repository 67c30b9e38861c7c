import CycleBounds.Proofs.Bound.Blocks

/-!
# Timing a body

What holds of single blocks holds of bodies: times stay on the safe side of executions, and no block
finishes before the body starts.

* `sweep`: the timing of a body visits its blocks in their order.
* `region_flow`: a body keeps times on the safe side if calls and inner loops do (`InnerSafe`).
* `header_finish_le`: no block of a loop finishes before its header.
-/

namespace CycleBounds.Bound.Engine

open Code (Program Procedure Loop)
open Run (History Laps Policy Contract FlowAt FlowBody Encloses Sweep)

variable {e : Engine} {scenario : Scenario} {policy : Policy} {cover : Nat → History → Prop}
  {call : Call} {inner : Inner} {p : Procedure}

/-- The stamps of the blocks of a procedure are on the safe side of executions that leave them. -/
def Leaves (cover : Nat → History → Prop) (times : Table Nat Stamp) (b : Nat) (h : History) :
    Prop :=
  ∃ o, times.get? b = some o ∧ cover o.finish h

/-- Inner loops stamp their own blocks, none of which finishes before the loop is entered. -/
structure InnerStamps (scenario : Scenario) (relative : Bool) (p : Procedure) (inner : Inner) :
    Prop where
  outside : ∀ {l context s progress progress' b},
    (inner scenario relative l context s progress).result = .ok progress' →
    ¬ p.Inside (some l) b →
    progress'.times.get? b = progress.times.get? b
  stamped : ∀ {l context s progress progress' b},
    (inner scenario relative l context s progress).result = .ok progress' → p.Inside (some l) b →
    ∃ o, progress'.times.get? b = some o ∧ s.finish ≤ o.finish

structure InnerSafe (e : Engine) (scenario : Scenario) (policy : Policy)
    (cover : Nat → History → Prop) (p : Procedure) (inner : Inner) : Prop
    extends InnerStamps scenario false p inner where
  flow : ∀ {l s progress progress' region r} {base : Laps},
    (inner scenario false l base.context s progress).result = .ok progress' →
    p.headerOf? r = some l → some l ≠ region → r ∈ p.orderOf region → Encloses p base region →
    FlowAt policy e.program (fun _ => True) p region base r (cover s.finish)
      (Leaves cover progress'.times)

def sweep (e : Engine) (scenario : Scenario) (relative : Bool) (call : Call) (inner : Inner)
    (p : Procedure) (current : Option Nat) (context : Context) :
    Sweep (Failure TimingError) Stamp Progress where
  visit b s progress := (e.visit call inner scenario relative p current context b s progress).result
  before progress b := (stampBefore scenario p progress.times b).mapError .fault
  out progress b := progress.times.get? b

section Visits

variable {relative : Bool} {current : Option Nat} {context : Context} {s : Stamp}
  {progress progress' : Progress} {r b : Nat}

theorem region_result {order : List Nat} :
    (e.region call inner scenario relative p current context order s progress).result =
      (sweep e scenario relative call inner p current context).run order s progress := by
  cases order with
  | nil => rfl
  | cons b rest =>
    simp only [region, Traced.result_bind, Traced.result_foldlM, Traced.result_liftM_except]
    rfl

/-- A visit times an inner loop or the block itself. -/
theorem visit_eq_ok
    (h : (e.visit call inner scenario relative p current context b s progress).result =
      .ok progress') :
    (∃ l, p.headerOf? b = some l ∧ some l ≠ current ∧
      (inner scenario relative l context s progress).result = .ok progress') ∨
    (p.headerOf? b = none ∨ p.headerOf? b = current) ∧ ∃ stamp ledger,
      (e.block call scenario relative p b context s.finish s.bus progress.ledger).result =
        .ok (stamp, ledger) ∧
      progress' = { progress with ledger }.stamp relative p.id b stamp := by
  simp only [visit, Traced.result_bind, Traced.result_liftM_except] at h
  obtain ⟨blk, hblk, h⟩ := bind_eq_ok.mp h
  rw [mapError_eq_ok] at hblk
  have hcases := Procedure.headerOf?_cases (entryAt_eq_ok.mp hblk) current
  cases hfilter : blk.headerOf.filter fun l => some l ≠ current with
  | some l =>
    rw [hfilter] at h hcases
    exact .inl ⟨l, hcases.1, hcases.2, h⟩
  | none =>
    rw [hfilter, Traced.result_bind] at h
    rw [hfilter] at hcases
    obtain ⟨⟨stamp, ledger⟩, hblock, h⟩ := bind_eq_ok.mp h
    rw [Traced.result_pure, Except.ok.injEq] at h
    exact .inr ⟨hcases, stamp, ledger, hblock, h.symm⟩

/-- The visit of the header of an inner loop times the loop. -/
theorem visit_of_header {l : Nat} (hh : p.headerOf? b = some l) (hne : some l ≠ current)
    (h : (e.visit call inner scenario relative p current context b s progress).result =
      .ok progress') : (inner scenario relative l context s progress).result = .ok progress' := by
  rcases visit_eq_ok h with ⟨l', hh', -, hinner⟩ | ⟨hnone | hsame, -⟩
  · obtain rfl := Option.some.inj (hh.symm.trans hh')
    exact hinner
  · rw [hnone] at hh
    cases hh
  · exact absurd (hh.symm.trans hsame) hne

/-- The visit of a block that is not the header of an inner loop times the block. -/
theorem visit_of_block (hself : p.headerOf? b = none ∨ p.headerOf? b = current)
    (h : (e.visit call inner scenario relative p current context b s progress).result =
      .ok progress') :
    ∃ stamp ledger, (e.block call scenario relative p b context s.finish s.bus
        progress.ledger).result = .ok (stamp, ledger) ∧
      progress' = { progress with ledger }.stamp relative p.id b stamp := by
  rcases visit_eq_ok h with ⟨l, hh, hne, -⟩ | ⟨-, hblock⟩
  · rcases hself with hnone | hsame
    · rw [hnone] at hh
      cases hh
    · exact absurd (hh.symm.trans hsame) hne
  · exact hblock

/-- The stamp before a block is the most extreme one of its predecessors. -/
theorem stampBefore_eq_ok (hp : p.WellFormed) {times : Table Nat Stamp}
    (h : stampBefore scenario p times b = .ok s) :
    (∃ u, p.Edge u b ∧ times.get? u = some s) ∧
      ∀ u o, p.Edge u b → times.get? u = some o → scenario.exceeds o.finish s.finish = false := by
  obtain ⟨blk, hblk, h⟩ := bind_eq_ok.mp h
  have hblk := entryAt_eq_ok.mp hblk
  cases hpreds : blk.preds.filterMap times.get? with
  | nil =>
    rw [hpreds] at h
    cases h
  | cons t rest =>
    rw [hpreds, pure_eq_ok] at h
    obtain ⟨hmem, hall⟩ := scenario.foldl_exceeds (·.finish) t rest
    rw [← hpreds, h] at hmem hall
    constructor
    · obtain ⟨u, hu, hget⟩ := List.mem_filterMap.mp hmem
      exact ⟨u, hp.edge_iff.mpr ⟨blk, hblk, hu⟩, hget⟩
    · intro u o he hget
      obtain ⟨blk', hblk', hu⟩ := hp.edge_iff.mp he
      obtain rfl := Option.some.inj (hblk.symm.trans hblk')
      exact hall o (List.mem_filterMap.mpr ⟨u, hu, hget⟩)

theorem sweep_local (hinner : InnerStamps scenario relative p inner) :
    (sweep e scenario relative call inner p current context).Local p current := by
  intro r s progress progress' hr hv b hb
  rcases visit_eq_ok hv with ⟨l, hh, hne, hl⟩ | ⟨hself, stamp, ledger, -, rfl⟩
  · exact hinner.outside hl fun ⟨loop, hloop, hmem⟩ =>
      hb (.inr ⟨l, loop, hh, hne, hloop, hmem⟩)
  · exact Table.get?_insert_of_ne _ (fun heq => hb (.inl ⟨heq.symm, hself⟩)) _

theorem sweep_stamped (hinner : InnerStamps scenario relative p inner)
    (hv : (sweep e scenario relative call inner p current context).visit r s progress =
      .ok progress') (hb : p.StandsFor current r b) :
    ∃ o, progress'.times.get? b = some o ∧ s.finish ≤ o.finish := by
  rcases visit_eq_ok hv with ⟨l, hh, hne, hl⟩ | ⟨hself, stamp, ledger, hblock, rfl⟩
  · exact hinner.stamped hl (hb.inside_inner hh hne)
  · obtain rfl := hb.eq_self hself
    exact ⟨stamp, Table.get?_insert_self _ _ _, start_le_finish hblock⟩

/-- A block starts no earlier than the first of its predecessors finishes. -/
theorem sweep_before_le (hp : p.WellFormed) {t : Nat}
    (h : (sweep e scenario relative call inner p current context).before progress b = .ok s)
    (hpreds : ∀ u, p.Edge u b → ∃ o, progress.times.get? u = some o ∧ t ≤ o.finish) :
    t ≤ s.finish := by
  obtain ⟨⟨u, he, hget⟩, -⟩ := stampBefore_eq_ok hp (mapError_eq_ok.mp h)
  obtain ⟨o, hget', hle⟩ := hpreds u he
  obtain rfl := Option.some.inj (hget.symm.trans hget')
  exact hle

theorem sweep_flow (hp : p.WellFormed) (hsafe : Safe e scenario policy cover)
    (hcall : CallSafe e scenario policy cover call)
    (hinner : InnerSafe e scenario policy cover p inner) {base : Laps}
    (hbase : Encloses p base current) (hr : r ∈ p.orderOf current)
    (hv : (sweep e scenario false call inner p current base.context).visit r s progress =
      .ok progress') :
    FlowAt policy e.program (fun _ => True) p current base r (cover s.finish)
      (Leaves cover progress'.times) := by
  rcases visit_eq_ok hv with ⟨l, hh, hne, hl⟩ | ⟨hself, stamp, ledger, hblock, rfl⟩
  · exact hinner.flow hl hh hne hr hbase
  · apply (flow_of_block hp hsafe hcall hblock hself).imp (fun _ => id)
    intro b h hb hh
    obtain rfl := hb.eq_self hself
    exact ⟨stamp, Table.get?_insert_self _ _ _, hh⟩

end Visits

/-! ### Regions -/

section Regions

variable {relative : Bool} {current : Option Nat} {context : Context} {s : Stamp}
  {progress progress' : Progress}

theorem region_outside (hp : p.WellFormed) (hinner : InnerStamps scenario relative p inner)
    (h : (e.region call inner scenario relative p current context (p.orderOf current) s
      progress).result = .ok progress') {b : Nat} (hb : ¬ p.Inside current b) :
    progress'.times.get? b = progress.times.get? b := by
  rw [region_result] at h
  exact Sweep.out_of_run (sweep_local hinner) hp h hb

/-- The visit of a block of a region, in a run of the region. -/
theorem stage_of_region (hp : p.WellFormed) (hinner : InnerStamps scenario relative p inner)
    (h : (e.region call inner scenario relative p current context (p.orderOf current) s
      progress).result = .ok progress') {r : Nat} (hr : r ∈ p.orderOf current) :
    ∃ first rest s₁ t₁ t₂, (sweep e scenario relative call inner p current context).Stage p current
      s progress progress' first r rest s₁ t₁ t₂ := by
  rw [region_result] at h
  obtain ⟨first, rest, ho⟩ := List.append_of_mem hr
  obtain ⟨s₁, t₁, t₂, hstage⟩ := Sweep.stage_of_run hp (sweep_local hinner) h ho
  exact ⟨first, rest, s₁, t₁, t₂, hstage⟩

/-- A block that is not the first one starts with the most extreme stamp of its predecessors. -/
theorem start_of_stage (hp : p.WellFormed) {first rest : List Nat} {r : Nat} {s₁ : Stamp}
    {t₁ t₂ : Progress}
    (hstage : (sweep e scenario relative call inner p current context).Stage p current s progress
      progress' first r rest s₁ t₁ t₂) (hne : first ≠ []) :
    (∃ w, p.Inside current w ∧ progress'.times.get? w = some s₁) ∧
      ∀ u o, p.Edge u r → progress'.times.get? u = some o →
        scenario.exceeds o.finish s₁.finish = false := by
  obtain ⟨⟨w, hw, hget⟩, hlast⟩ :=
    stampBefore_eq_ok hp (mapError_eq_ok.mp (hstage.before hne))
  obtain ⟨hout, hinside⟩ := hstage.pred hp hne hw
  refine ⟨⟨w, hinside, hout.symm.trans hget⟩, fun u o he ho => ?_⟩
  exact hlast u o he ((hstage.pred hp hne he).1.trans ho)

/-- The visit of a block that is reached by an edge of the region. -/
theorem stage_of_edge (hp : p.WellFormed) (hinner : InnerStamps scenario relative p inner)
    (h : (e.region call inner scenario relative p current context (p.orderOf current) s
      progress).result = .ok progress') {u v : Nat} (he : p.Edge u v) (hu : p.Inside current u)
    (hv : v ∈ p.orderOf current) :
    ∃ first rest s₁ t₁ t₂, (sweep e scenario relative call inner p current context).Stage p current
        s progress progress' first v rest s₁ t₁ t₂ ∧
      ∀ o, progress'.times.get? u = some o → scenario.exceeds o.finish s₁.finish = false := by
  obtain ⟨first, rest, s₁, t₁, t₂, hstage⟩ := stage_of_region hp hinner h hv
  obtain ⟨-, hlast⟩ := start_of_stage hp hstage (hstage.first_ne_nil hp he hu)
  exact ⟨first, rest, s₁, t₁, t₂, hstage, fun o => hlast u o he⟩

/-- What holds of the finish of the first block holds of all blocks. -/
theorem region_le (hp : p.WellFormed) (hinner : InnerStamps scenario relative p inner) {t : Nat}
    (hfirst : ∀ {r progress₁}, (p.orderOf current).head? = some r →
      (sweep e scenario relative call inner p current context).visit r s progress = .ok progress₁ →
      ∀ b, p.StandsFor current r b → ∃ o, progress₁.times.get? b = some o ∧ t ≤ o.finish)
    (h : (e.region call inner scenario relative p current context (p.orderOf current) s
      progress).result = .ok progress') {b : Nat} (hb : p.Inside current b) :
    ∃ o, progress'.times.get? b = some o ∧ t ≤ o.finish := by
  rw [region_result] at h
  refine Sweep.valid_of_run (fun _ s => t ≤ Stamp.finish s) (fun _ o => t ≤ Stamp.finish o) hp
    (sweep_local hinner) ?_ ?_ hfirst h hb
  · intro r s progress progress' _ hv hs b hb
    obtain ⟨o, hget, hle⟩ := sweep_stamped hinner hv hb
    exact ⟨o, hget, Nat.le_trans hs hle⟩
  · intro v s progress _ h hpreds
    exact sweep_before_le hp h fun u he => (hpreds u he).2

/-- No block of a body finishes before the body starts. -/
theorem region_stamped (hp : p.WellFormed) (hinner : InnerStamps scenario relative p inner)
    (h : (e.region call inner scenario relative p current context (p.orderOf current) s
      progress).result = .ok progress') {b : Nat} (hb : p.Inside current b) :
    ∃ o, progress'.times.get? b = some o ∧ s.finish ≤ o.finish :=
  region_le hp hinner (fun _ hv _ hb => sweep_stamped hinner hv hb) h hb

/-- No block of a loop finishes before its header. -/
theorem header_finish_le (hp : p.WellFormed) (hinner : InnerStamps scenario relative p inner)
    {l b : Nat} {loop : Loop} (hl : p.loops[l]? = some loop)
    (h : (e.region call inner scenario relative p (some l) context (p.orderOf (some l)) s
      progress).result = .ok progress') {o o' : Stamp}
    (ho : progress'.times.get? loop.header = some o) (hb : b ∈ loop.blocks)
    (ho' : progress'.times.get? b = some o') : o.finish ≤ o'.finish := by
  have hhead : (p.orderOf (some l)).head? = some loop.header := by
    rw [Procedure.orderOf_loop hl]
    exact hp.head_loop hl
  have hheader : p.headerOf? loop.header = some l := hp.headerOf_iff.mpr ⟨loop, hl, rfl⟩
  obtain ⟨first, rest, s₁, t₁, t₂, hstage⟩ :=
    stage_of_region hp hinner h (List.mem_of_mem_head? hhead)
  obtain ⟨rfl, rfl⟩ := hstage.start (hstage.first_eq_nil hp hhead)
  -- the stamp of the header is final once it is visited
  have hfirst : ∀ {r progress₁}, (p.orderOf (some l)).head? = some r →
      (sweep e scenario relative call inner p (some l) context).visit r s₁ t₁ = .ok progress₁ →
      ∀ b, p.StandsFor (some l) r b →
        ∃ o', progress₁.times.get? b = some o' ∧ o.finish ≤ o'.finish := by
    intro r progress₁ hr hv b hb
    obtain rfl := Option.some.inj (hhead.symm.trans hr)
    obtain rfl := Except.ok.inj (hstage.visit.symm.trans hv)
    obtain rfl := hb.eq_self (.inr hheader)
    exact ⟨o, (hstage.now _ (hp.standsFor_self _ _)).trans ho, Nat.le_refl _⟩
  obtain ⟨o'', ho'', hle⟩ := region_le hp hinner hfirst h ((Procedure.inside_loop hl).mpr hb)
  obtain rfl := Option.some.inj (ho'.symm.trans ho'')
  exact hle

/-- A body keeps times on the safe side. -/
theorem region_flow (hp : p.WellFormed) (hsafe : Safe e scenario policy cover)
    (hcall : CallSafe e scenario policy cover call)
    (hinner : InnerSafe e scenario policy cover p inner) {base : Laps}
    (hbase : Encloses p base current) {r : Nat} (hhead : (p.orderOf current).head? = some r)
    (h : (e.region call inner scenario false p current base.context (p.orderOf current) s
      progress).result = .ok progress') :
    FlowBody policy e.program (fun _ => True) p current base (cover s.finish)
      (Leaves cover progress'.times) := by
  rw [region_result] at h
  refine Sweep.flow_of_run (fun _ => True) (fun _ => True) (fun s => cover s.finish) hp
    (sweep_local hinner.toInnerStamps) hbase (fun _ _ _ => trivial) ?_ ?_
    (fun hr hv _ _ => sweep_flow hp hsafe hcall hinner hbase hr hv) h trivial trivial hhead
  · intro r s progress progress' _ hv _ b hb
    obtain ⟨o, hget, -⟩ := sweep_stamped hinner.toInnerStamps hv hb
    exact ⟨o, hget, trivial⟩
  · intro v s progress hbefore _
    refine ⟨trivial, fun he hget h hh => ?_⟩
    exact hsafe.mono ((stampBefore_eq_ok hp (mapError_eq_ok.mp hbefore)).2 _ _ he hget) hh

end Regions

end CycleBounds.Bound.Engine
