import CycleBounds.Proofs.Bound.Coupling
import CycleBounds.Proofs.Bound.Shortest

/-!
# Summaries without a schedule

Where the bus has no schedule that is followed, a fetch costs the same at all times. Then a round of
a loop takes as long whenever it starts, and in a relative run as well, so a loop can be summarised
without loss: all its rounds but the first one take what a steady one does. This is so through all
loops and calls if loops are left after their header or sink only, and if every block of a loop
leads to the sink. Otherwise a summary may have the time of a block that no round waits for.

An unrolled and a summarised loop stamp their blocks differently. Only the stamps after which the
loop can be left have to correspond.

* `Procedure.Converges`: every block of a loop leads to its sink.
* `coupled_exits`: two runs of a body that correspond where inner loops are left.
* `finish_le_of_leads`, `relativeCost_sink`: a round that is summarised ends with the sink.
* `Exact`: the summaries of a run are the costs of unrolled rounds, which all of a run keeps.
* `summarized_eq_unrolled`: the timing of a procedure does not depend on the treatment of loops.
-/

namespace CycleBounds.Code.Procedure

/-- A block of an order leads to another one, inner loops being passed as a whole. -/
inductive Leads (p : Procedure) (region : Option Nat) (target : Nat) : Nat → Prop where
  | here : p.Leads region target target
  | step {r u v : Nat} : p.StandsFor region r u → p.Edge u v → v ∈ p.orderOf region →
      p.Leads region target v → p.Leads region target r

/-- Every block of a loop leads to the sink of the loop. -/
def Converges (p : Procedure) : Prop :=
  ∀ (l : Nat) (loop : Loop), p.loops[l]? = some loop →
    ∀ r ∈ loop.order, p.Leads (some l) loop.sink r

end CycleBounds.Code.Procedure

namespace CycleBounds.Bound

open Code (Program Procedure Loop)
open Engine (Body Call Exhausts Inner InnerStamps Source bodyOf)
open Run (Sweep)

/-- Loops that are entered after corresponding stamps are left after corresponding stamps. -/
def Coupling.Exits (c : Coupling) (scenario : Scenario) (relative relative' : Bool) (p : Procedure)
    (inner inner' : Inner) : Prop :=
  ∀ {l loop context s s'} {t t' : Progress}, p.loops[l]? = some loop → c.Stamps s s' →
    c.ledger t.ledger t'.ledger →
    Coupled (fun u u' => c.ledger u.ledger u'.ledger ∧ ∀ b, b = loop.header ∨ b = loop.sink →
        Option.Rel c.Stamps (u.times.get? b) (u'.times.get? b))
      (inner scenario relative l context s t).result
      (inner' scenario relative' l context s' t').result

namespace Engine

variable {e e' : Engine} {scenario : Scenario} {relative relative' : Bool} {call call' : Call}
  {inner inner' : Inner} {p : Procedure} {region : Option Nat} {l n : Nat} {loop : Loop}
  {context : Context} {s s' : Stamp} {t t' : Progress} {ledger ledger' : Ledger}

/-! ### Bodies that correspond where they can be left -/

section Exits

variable {c : Coupling}

/-- What a block stands for is left after corresponding stamps if it is entered so. -/
theorem coupled_exits_visit (hp : p.WellFormed) (hsound : c.Sound e e' scenario relative relative')
    (hcall : c.Calls scenario relative relative' call call')
    (hinner : c.Exits scenario relative relative' p inner inner') {r : Nat} (hs : c.Stamps s s')
    (hledger : c.ledger t.ledger t'.ledger) :
    Coupled (fun u u' => c.ledger u.ledger u'.ledger ∧ ∀ b, p.Exit region r b →
        Option.Rel c.Stamps (u.times.get? b) (u'.times.get? b))
      (e.visit call inner scenario relative p region context r s t).result
      (e'.visit call' inner' scenario relative' p region context r s' t').result := by
  intro u u' h h'
  rcases hp.exit_self region r with ⟨-, hself⟩ | ⟨l, loop, hh, hne, hl, -⟩
  · -- a block is left where it is entered
    obtain ⟨stamp, ledger, hblock, rfl⟩ := visit_of_block hself h
    obtain ⟨stamp', ledger', hblock', rfl⟩ := visit_of_block hself h'
    obtain ⟨hstart, hstamps, hafter⟩ :=
      coupled_block hsound hcall hs.1 hs.2 hledger _ _ hblock hblock'
    refine ⟨hsound.stamp hafter hstart hstamps.1, fun b hb => ?_⟩
    obtain rfl := (hb.standsFor hp).eq_self hself
    show Option.Rel c.Stamps ((t.times.insert b stamp).get? b) ((t'.times.insert b stamp').get? b)
    rw [Table.get?_insert_self, Table.get?_insert_self]
    exact .some hstamps
  · -- a loop is left after its header or its sink
    obtain ⟨hafter, hends⟩ := hinner hl hs hledger _ _ (visit_of_header hh hne h)
      (visit_of_header hh hne h')
    refine ⟨hafter, fun b hb => ?_⟩
    rcases hb with ⟨-, hnone | hsame⟩ | ⟨l', loop', hh', -, hl', hb⟩
    · rw [hh] at hnone
      cases hnone
    · exact absurd (hh.symm.trans hsame) hne
    · obtain rfl := Option.some.inj (hh.symm.trans hh')
      obtain rfl := Option.some.inj (hl.symm.trans hl')
      exact hends b hb

/-- Two runs of a body correspond where it can be left, if calls and inner loops do. -/
theorem coupled_exits (hp : p.WellFormed) (hexits : p.ExitsAtEnds)
    (hsound : c.Sound e e' scenario relative relative')
    (hcall : c.Calls scenario relative relative' call call')
    (hinner : c.Exits scenario relative relative' p inner inner')
    (hstamps : InnerStamps scenario relative p inner)
    (hstamps' : InnerStamps scenario relative' p inner') (hs : c.Stamps s s')
    (hledger : c.ledger t.ledger t'.ledger) :
    Coupled (fun u u' => c.ledger u.ledger u'.ledger ∧ ∀ r ∈ p.orderOf region,
        ∀ b, p.Exit region r b → Option.Rel c.Stamps (u.times.get? b) (u'.times.get? b))
      (e.region call inner scenario relative p region context (p.orderOf region) s t).result
      (e'.region call' inner' scenario relative' p region context (p.orderOf region) s'
        t').result := by
  rw [region_result, region_result]
  refine Sweep.coupled_run (fun t t' => c.ledger t.ledger t'.ledger) c.Stamps (p.Exit region) hp
    (sweep_local hstamps) (sweep_local hstamps') (fun hb => hb.standsFor hp)
    (hp.exit_of_edge hexits) ?_ ?_ hs hledger
  · intro r s s' t t' _ hs hledger
    exact coupled_exits_visit hp hsound hcall hinner hs hledger
  · intro v t t' hpreds
    refine (coupled_stampBefore hsound fun blk hblk u hu => ?_).mapError
    exact hpreds u (hp.edge_iff.mpr ⟨blk, hblk, hu⟩)

end Exits

/-! ### Rounds that end with the sink -/

section Sinks

variable {r b u : Nat} {o o' : Stamp}

/-- Where loops are summarised, all that a block stands for has the same stamp. -/
theorem stamp_eq_of_standsFor (hloops : e.platform.loops = .summarize) (hp : p.WellFormed)
    (h : (e.region call (e.loopAt call p n) scenario relative p region context (p.orderOf region) s
      t).result = .ok t') (hr : r ∈ p.orderOf region) (hb : p.StandsFor region r b)
    (hu : p.StandsFor region r u) (ho : t'.times.get? b = some o)
    (ho' : t'.times.get? u = some o') : o = o' := by
  obtain ⟨first, rest, s₁, t₁, t₂, hstage⟩ :=
    stage_of_region hp (innerStamps_summarize hloops n) h hr
  rcases visit_eq_ok hstage.visit with ⟨l, hh, hne, hinner⟩ | ⟨hself, -⟩
  · obtain ⟨loop, finish, progress, hl, -, -, rfl⟩ := loopAt_spread hloops hinner
    have hall : ∀ {v x}, p.StandsFor region r v → t'.times.get? v = some x →
        x = ⟨s₁.finish, finish, .start⟩ := by
      intro v x hv hx
      have hmem := (Procedure.inside_loop hl).mp (hv.inside_inner hh hne)
      have hnow := (hstage.now v hv).trans hx
      simp only [sweep, get?_spread, if_pos hmem] at hnow
      exact (Option.some.inj hnow).symm
    rw [hall hb ho, hall hu ho']
  · obtain rfl := hb.eq_self hself
    obtain rfl := hu.eq_self hself
    exact Option.some.inj (ho.symm.trans ho')

/-- At worst, no block finishes after one that it leads to. -/
theorem finish_le_of_leads {target : Nat} (hloops : e.platform.loops = .summarize)
    (hp : p.WellFormed)
    (hself : p.headerOf? target = none ∨ p.headerOf? target = region)
    (h : (e.region call (e.loopAt call p n) .worst relative p region context (p.orderOf region) s
      t).result = .ok t') (ho' : t'.times.get? target = some o')
    (hleads : p.Leads region target r) (hr : r ∈ p.orderOf region) (hb : p.StandsFor region r b)
    (ho : t'.times.get? b = some o) : o.finish ≤ o'.finish := by
  have hinner : InnerStamps .worst relative p (e.loopAt call p n) := innerStamps_summarize hloops n
  induction hleads generalizing b o with
  | here =>
    obtain rfl := hb.eq_self hself
    obtain rfl := Option.some.inj (ho.symm.trans ho')
    exact Nat.le_refl _
  | @step r u v hu hedge hv _ ih =>
    have hinside := hp.inside hr hu
    obtain ⟨first, rest, s₁, t₁, t₂, hstage, hlast⟩ := stage_of_edge hp hinner h hedge hinside hv
    obtain ⟨x, hx, -⟩ := region_stamped hp hinner h hinside
    -- the next block of the order starts once this one is over
    have hbefore : x.finish ≤ s₁.finish := by simpa [Scenario.exceeds] using hlast x hx
    obtain ⟨y, hy, hle⟩ := sweep_stamped hinner hstage.visit (hp.standsFor_self region v)
    have hy' : t'.times.get? v = some y := (hstage.now v (hp.standsFor_self region v)).symm.trans hy
    have hafter := ih hv (hp.standsFor_self region v) hy'
    rw [stamp_eq_of_standsFor hloops hp h hr hb hu ho hx]
    omega

/-- The cost of a round is the time at which the sink finishes. -/
theorem relativeCost_sink (hloops : e.platform.loops = .summarize) (hp : p.WellFormed)
    (hconverges : p.Converges) (hl : p.loops[l]? = some loop) {cost : Nat}
    (h : (relativeCost (bodyOf e call p n l loop) scenario loop context ledger).result =
      .ok (cost, ledger')) :
    ∃ progress o, (bodyOf e call p n l loop scenario true context (.moment 0) ⟨∅, ledger⟩).result =
        .ok progress ∧ progress.times.get? loop.sink = some o ∧ o.finish = cost := by
  cases scenario with
  | best =>
    obtain ⟨progress, hrun, -, o, ho, hcost⟩ := relativeCost_eq_ok h
    exact ⟨progress, o, hrun, ho, hcost⟩
  | worst =>
    obtain ⟨progress, hrun, -, hcost : cost = _⟩ := relativeCost_eq_ok h
    have hinner : InnerStamps .worst true p (e.loopAt call p n) := innerStamps_summarize hloops n
    have hregion := hrun
    rw [bodyOf, ← Procedure.orderOf_loop hl] at hregion
    obtain ⟨o, ho, -⟩ := region_stamped hp hinner hregion (hp.sink_inside hl)
    refine ⟨progress, o, hrun, ho, ?_⟩
    rw [hcost]
    apply Nat.le_antisymm (le_latest ho)
    apply latest_le
    intro b x hx
    have hb : p.Inside (some l) b := by
      by_contra hout
      rw [region_outside hp hinner hregion hout] at hx
      cases hx
    -- every block leads to the sink, so none finishes after it
    obtain ⟨r, hr, hrb⟩ := hp.exists_standsFor hb
    have hleads : p.Leads (some l) loop.sink r := by
      apply hconverges l loop hl
      rwa [← Procedure.orderOf_loop hl]
    exact finish_le_of_leads hloops hp (hp.sink_mem hl).2 hregion ho hleads hr hrb hx

end Sinks

/-! ### Fetches -/

/-- Without a schedule, a fetch costs the same at all times, in relative runs as well. -/
theorem fetch_untimed (hbus : e.platform.bus.timed? = none) {source : Source} {time d : Nat}
    {bus bus' : Bus.Tracker}
    (h : (e.fetch scenario relative source time bus).result = .ok (d, bus')) :
    d = e.fetchSpan scenario source 0 := by
  have hfetch : e.fetch scenario relative source time bus =
      e.fetch scenario false source time bus := by
    cases source <;> cases relative <;> simp only [fetch, transfer, hbus]
  have hspan : e.fetchSpan scenario source time = e.fetchSpan scenario source 0 := by
    unfold fetchSpan
    cases hkind : e.platform.bus with
    | unshared => rfl
    | unmodeled schedule => cases scenario <;> rfl
    | scheduled schedule =>
      rw [hkind] at hbus
      cases hbus
  rw [hfetch] at h
  exact (fetch_eq_ok h).trans hspan

/-! ### Exact summaries -/

def summarizing (e : Engine) : Engine :=
  { e with platform := e.platform.withLoops .summarize }

/-- The rounds of a loop in a context take a given time, whenever they start. -/
def RoundTakes (e : Engine) (scenario : Scenario) (p : Procedure) (l : Nat) (loop : Loop)
    (context : Context) (cost : Nat) : Prop :=
  ∀ m n s t t', (bodyOf e (e.procedureAt m) p n l loop scenario false context s t).result =
      .ok t' → ∃ o, t'.times.get? loop.sink = some o ∧ o.finish = s.finish + cost

/-- All summaries have what first and steady rounds take. -/
def Exact (e : Engine) (scenario : Scenario) (ledger : Ledger) : Prop :=
  ∀ p l loop context costs, e.program.procedures[p.id]? = some p → p.loops[l]? = some loop →
    ledger.summaries.get? ⟨p.id, loop.header, context⟩ = some costs →
    e.RoundTakes scenario p l loop (context.nest .first) costs.1 ∧
      e.RoundTakes scenario p l loop (context.nest .steady) costs.2

theorem exact_empty : e.Exact scenario .empty :=
  nofun

theorem ofSummaries_exact :
    OfSummaries fun ledger ledger' => e.Exact scenario ledger → e.Exact scenario ledger' where
  of_eq heq h p l loop context costs hp hl hget := h p l loop context costs hp hl (by rwa [← heq])
  trans h₁ h₂ h := h₂ (h₁ h)

/-- The summary of one more loop keeps summaries exact if it has what rounds take. -/
theorem Exact.insert (hprogram : e.program.Accepted) (h : e.Exact scenario ledger)
    (hp : e.program.procedures[p.id]? = some p) (hl : p.loops[l]? = some loop) {costs : Nat × Nat}
    (hfirst : e.RoundTakes scenario p l loop (context.nest .first) costs.1)
    (hsteady : e.RoundTakes scenario p l loop (context.nest .steady) costs.2) :
    e.Exact scenario { ledger with
      summaries := ledger.summaries.insert ⟨p.id, loop.header, context⟩ costs } := by
  intro p' l' loop' context' costs' hp' hl' hget
  by_cases heq : (⟨p'.id, loop'.header, context'⟩ : Cache.Place) = ⟨p.id, loop.header, context⟩
  · rw [heq] at hget
    obtain rfl := Option.some.inj ((Table.get?_insert_self _ _ _).symm.trans hget)
    obtain ⟨hid, hheader, rfl⟩ := Cache.Place.mk.inj heq
    obtain ⟨rfl, rfl, rfl⟩ := loop_unique hprogram hp' hp hl' hl hid hheader
    exact ⟨hfirst, hsteady⟩
  · exact h p' l' loop' context' costs' hp' hl' ((Table.get?_insert_of_ne _ heq _).symm.trans hget)

end Engine

/-- As much time has passed since two origins, and the second run has exact summaries. -/
def Coupling.elapsed (e : Engine) (scenario : Scenario) (origin origin' : Nat) : Coupling where
  time t t' := t + origin' = t' + origin
  bus _ _ := True
  ledger _ ledger' := e.Exact scenario ledger'

namespace Engine

variable {e : Engine} {scenario : Scenario} {relative : Bool} {p : Procedure} {k l n : Nat}
  {loop : Loop} {context : Context} {s : Stamp} {t t' : Progress} {ledger ledger' : Ledger}

/-- On a bus without slots, as much time passes in two runs from different origins. -/
theorem sound_elapsed (hbus : e.platform.bus.timed? = none) (origin origin' : Nat) :
    (Coupling.elapsed e scenario origin origin').Sound e e.summarizing scenario false relative := by
  constructor
  case program => rfl
  case analysis => rfl
  case start => trivial
  case pick =>
    intro s s' u u' hs hu
    apply Coupling.stamps_pick hs hu
    -- times that are shifted alike compare alike
    have hs : s.finish + origin' = s'.finish + origin := hs.1
    have hu : u.finish + origin' = u'.finish + origin := hu.1
    cases scenario <;> simp only [Scenario.exceeds, decide_eq_decide] <;> omega
  case fetch =>
    rintro source t t' bus bus' ht - ⟨d, _⟩ ⟨d', _⟩ hd hd'
    have ht : t + origin' = t' + origin := ht
    have hd : d = e.fetchSpan scenario source 0 := fetch_untimed hbus hd
    have hd' : d' = e.fetchSpan scenario source 0 := fetch_untimed (e := e.summarizing) hbus hd'
    refine ⟨?_, trivial⟩
    show t + d + e.platform.instrCost scenario + origin' =
      t' + d' + e.platform.instrCost scenario + origin
    omega
  case stamp => exact fun h _ _ => ofSummaries_exact.of_eq summaries_stamp h
  case record => exact fun h _ _ => ofSummaries_exact.of_eq summaries_recorded h

/-- What makes the treatments of loops comparable: no bus is timed, loops are left at their ends,
and every block of a loop leads to the sink. -/
structure Comparable (e : Engine) : Prop where
  accepted : e.program.Accepted
  exits : ∀ p ∈ e.program.procedures, p.ExitsAtEnds
  converges : ∀ p ∈ e.program.procedures, p.Converges
  untimed : e.platform.bus.timed? = none
  unrolls : e.platform.loops = .unroll

structure CallsAgree (e : Engine) (scenario : Scenario) (k : Nat) : Prop where
  keeps : ∀ {relative q start ledger timing ledger'},
    (e.summarizing.procedureAt k scenario relative q start ledger).result = .ok (timing, ledger') →
    e.Exact scenario ledger → e.Exact scenario ledger'
  calls : ∀ m relative origin origin', (Coupling.elapsed e scenario origin origin').Calls scenario
    false relative (e.procedureAt m) (e.summarizing.procedureAt k)

structure LoopsAgree (e : Engine) (scenario : Scenario) (k : Nat) (p : Procedure) (n : Nat) :
    Prop where
  keeps : ∀ {relative l context s t t'},
    (e.summarizing.loopAt (e.summarizing.procedureAt k) p n scenario relative l context s
      t).result = .ok t' → e.Exact scenario t.ledger → e.Exact scenario t'.ledger
  exits : ∀ m m' relative origin origin', (Coupling.elapsed e scenario origin origin').Exits
    scenario false relative p (e.loopAt (e.procedureAt m) p m')
    (e.summarizing.loopAt (e.summarizing.procedureAt k) p n)

/-! ### Summarised rounds -/

theorem exact_of_body (hcalls : e.CallsAgree scenario k) (hinner : e.LoopsAgree scenario k p n)
    (h : (bodyOf e.summarizing (e.summarizing.procedureAt k) p n l loop scenario relative context s
      t).result = .ok t') (ht : e.Exact scenario t.ledger) : e.Exact scenario t'.ledger :=
  region_rel ofSummaries_exact hcalls.keeps hinner.keeps h ht

/-- The cost that is found for a round in a relative run is the time that unrolled rounds take. -/
theorem roundTakes_of_relativeCost (he : e.Comparable) (hcalls : e.CallsAgree scenario k)
    (hinner : e.LoopsAgree scenario k p n) (hp : e.program.procedures[p.id]? = some p)
    (hl : p.loops[l]? = some loop) {cost : Nat}
    (h : (relativeCost (bodyOf e.summarizing (e.summarizing.procedureAt k) p n l loop) scenario loop
      context ledger).result = .ok (cost, ledger')) (hledger : e.Exact scenario ledger) :
    e.RoundTakes scenario p l loop context cost := by
  intro m m' s t t₁ hrun
  have hwell := he.accepted.wellFormed hp
  have hmem := List.mem_of_getElem? hp
  obtain ⟨t₁', o', hrun', ho', hcost⟩ := relativeCost_sink rfl hwell (he.converges p hmem) hl h
  rw [bodyOf, ← Procedure.orderOf_loop hl] at hrun hrun'
  -- the relative run starts from zero when the unrolled round starts
  have hstart : (Coupling.elapsed e scenario s.finish 0).Stamps s (.moment 0) :=
    ⟨Nat.add_comm _ _, trivial⟩
  obtain ⟨-, hends⟩ := coupled_exits hwell (he.exits p hmem) (sound_elapsed he.untimed _ _)
    (hcalls.calls m true _ _) (hinner.exits m m' true _ _) (innerStamps_loopAt hwell _)
    (innerStamps_summarize rfl _) hstart (by exact hledger) _ _ hrun hrun'
  have hsink := (hwell.sink_mem hl).1
  rw [← Procedure.orderOf_loop hl] at hsink
  obtain ⟨o, ho, hfinish, -⟩ :=
    rel_some_right (hends loop.sink hsink loop.sink (hwell.exit_self _ _)) ho'
  have hfinish : o.finish + 0 = o'.finish + s.finish := hfinish
  exact ⟨o, ho, by omega⟩

/-- Summaries stay exact when a loop is summarised by the costs of relative runs. -/
theorem exact_summary (he : e.Comparable) (hcalls : e.CallsAgree scenario k)
    (hinner : e.LoopsAgree scenario k p n) (hp : e.program.procedures[p.id]? = some p)
    (hl : p.loops[l]? = some loop) {costs : Nat × Nat}
    (h : (summary (bodyOf e.summarizing (e.summarizing.procedureAt k) p n l loop) scenario p loop
      context ledger).result = .ok (costs, ledger')) (hledger : e.Exact scenario ledger) :
    e.Exact scenario ledger' := by
  rcases summary_cases h with ⟨-, rfl⟩ | ⟨-, ledger₁, ledger₂, hfirst, hsteady, rfl⟩
  · exact hledger
  · have hround := roundTakes_of_relativeCost he hcalls hinner hp hl hfirst hledger
    obtain ⟨progress₁, hrun₁, rfl, -⟩ := relativeCost_eq_ok hfirst
    have hafter := exact_of_body hcalls hinner hrun₁ hledger
    have hround' := roundTakes_of_relativeCost he hcalls hinner hp hl hsteady hafter
    obtain ⟨progress₂, hrun₂, rfl, -⟩ := relativeCost_eq_ok hsteady
    exact (exact_of_body hcalls hinner hrun₂ hafter).insert he.accepted hp hl hround hround'

/-! ### Loops -/

/-- Without a schedule, rounds do not wait for each other. -/
theorem extrapolate_zero {first steady rest cost : Nat}
    (h : extrapolate scenario 0 first steady rest = .ok cost) : cost = first + steady * rest := by
  cases scenario with
  | best => exact extrapolate_best h
  | worst => simpa [restOfRound] using extrapolate_worst h

/-- Rounds that take given times one after the other. -/
theorem Rounds.finish_eq {body : Body} {entry : Stamp} {g : Nat → Stamp × Progress}
    {first steady : Nat} (hg : Rounds body scenario loop context entry t t' n g)
    (hround : ∀ j < n, (g (j + 1)).1.finish = (g j).1.finish + if j = 0 then first else steady) :
    (g n).1.finish = entry.finish + (first + steady * (n - 1)) := by
  have hall : ∀ j < n, (g (j + 1)).1.finish = entry.finish + (first + steady * j) := by
    intro j hj
    induction j with
    | zero => rw [hround 0 hj, hg.start_finish, if_pos rfl, Nat.mul_zero, Nat.add_zero]
    | succ j ih =>
      rw [hround (j + 1) hj, ih (Nat.lt_of_succ_lt hj), if_neg (Nat.succ_ne_zero j), Nat.mul_succ]
      omega
  obtain ⟨m, rfl⟩ := Nat.exists_eq_succ_of_ne_zero (Nat.ne_of_gt hg.pos)
  exact hall m (Nat.lt_succ_self m)

/-- An unrolled and a summarised loop are left at corresponding times. -/
theorem exits_of_loop (he : e.Comparable) (hcalls : e.CallsAgree scenario k)
    (hinner : e.LoopsAgree scenario k p n) (hp : e.program.procedures[p.id]? = some p)
    (hl : p.loops[l]? = some loop) (hbound : 0 < loop.bound) {m m' origin origin' : Nat}
    {s s' : Stamp} {t₁ t₁' : Progress}
    (hs : (Coupling.elapsed e scenario origin origin').Stamps s s')
    (hledger : e.Exact scenario t'.ledger)
    (h : (e.loop (bodyOf e (e.procedureAt m) p m' l loop) scenario false p l loop context s
      t).result = .ok t₁)
    (h' : (e.summarizing.loop (bodyOf e.summarizing (e.summarizing.procedureAt k) p n l loop)
      scenario relative p l loop context s' t').result = .ok t₁') {b : Nat}
    (hb : b = loop.header ∨ b = loop.sink) :
    Option.Rel (Coupling.elapsed e scenario origin origin').Stamps (t₁.times.get? b)
      (t₁'.times.get? b) := by
  simp only [Engine.loop, he.unrolls] at h
  obtain ⟨rounds, g, hg⟩ := unroll_eq_ok hbound h
  obtain ⟨costs, ledger, rounds', cost, hsummary, hcount, hcost, rfl⟩ := summarize_eq_ok h'
  obtain rfl := Except.ok.inj (hg.count.symm.trans hcount)
  -- without a schedule, rounds are not padded
  have hzero : (e.summarizing.platform.bus.timed?.map (·.interval)).getD 0 = 0 := by
    show (e.platform.bus.timed?.map (·.interval)).getD 0 = 0
    rw [he.untimed]
    rfl
  rw [hzero] at hcost
  obtain ⟨hfirst, hsteady⟩ := exact_summary he hcalls hinner hp hl hsummary hledger p l loop context
    costs hp hl (get?_summary hsummary)
  -- every round takes what the summary has for it
  have hround : ∀ j < rounds, (g (j + 1)).1.finish =
      (g j).1.finish + if j = 0 then costs.1 else costs.2 := by
    intro j hj
    have htakes : e.RoundTakes scenario p l loop (context.nest (if j = 0 then .first else .steady))
        (if j = 0 then costs.1 else costs.2) := by
      split
      · exact hfirst
      · exact hsteady
    obtain ⟨o, ho, hfinish⟩ := htakes m m' _ _ _ (hg.runs j hj)
    obtain rfl := Option.some.inj (ho.symm.trans (hg.sink j hj))
    exact hfinish
  obtain ⟨o, ho, hfinish⟩ := hg.exit_stamp hb
  rw [ho, get?_spread, if_pos ((he.accepted.wellFormed hp).end_mem hl hb)]
  refine .some ⟨?_, trivial⟩
  have hs : s.finish + origin' = s'.finish + origin := hs.1
  have hlast := hg.finish_eq hround
  have hcost := extrapolate_zero hcost
  show o.finish + origin' = s'.finish + cost + origin
  omega

/-- Loops agree if those within them do. -/
theorem loopsAgree (he : e.Comparable) (hcalls : e.CallsAgree scenario k)
    (hp : e.program.procedures[p.id]? = some p) (n : Nat) : e.LoopsAgree scenario k p n := by
  have hwell := he.accepted.wellFormed hp
  induction n with
  | zero =>
    constructor
    case keeps => rintro relative l context s t t' ⟨⟩
    case exits => rintro m m' relative origin origin' l loop context s s' t t' - - - u u' - ⟨⟩
  | succ n ih =>
    -- summaries are exact if they are made with inner loops that agree
    have hkeeps : ∀ {relative l context s t t'}, (e.summarizing.loopAt (e.summarizing.procedureAt k)
        p (n + 1) scenario relative l context s t).result = .ok t' → e.Exact scenario t.ledger →
        e.Exact scenario t'.ledger := by
      intro relative l context s t t' h ht
      obtain ⟨loop, hl, ⟨-, rfl⟩ | ⟨-, hloop⟩⟩ := loopAt_eq_ok h
      · exact ofSummaries_exact.of_eq summaries_spread ht
      · obtain ⟨costs, ledger, rounds, cost, hsummary, -, -, rfl⟩ := summarize_eq_ok hloop
        apply ofSummaries_exact.of_eq summaries_spread
        exact exact_summary he hcalls ih hp hl hsummary ht
    refine ⟨hkeeps, ?_⟩
    intro m m' relative origin origin' l loop context s s' t t' hl hs hledger u u' h h'
    refine ⟨hkeeps h' hledger, fun b hb => ?_⟩
    cases m' with
    | zero => cases h
    | succ m' =>
      obtain ⟨loop₁, hl₁, hcases⟩ := loopAt_eq_ok h
      obtain ⟨loop₂, hl₂, hcases'⟩ := loopAt_eq_ok h'
      obtain rfl := Option.some.inj (hl.symm.trans hl₁)
      obtain rfl := Option.some.inj (hl.symm.trans hl₂)
      rcases hcases with ⟨hzero, rfl⟩ | ⟨hbound, hloop⟩
      · obtain ⟨-, rfl⟩ := hcases'.resolve_right fun hpos => by omega
        have hmem := hwell.end_mem hl hb
        rw [get?_spread, get?_spread, if_pos hmem, if_pos hmem]
        exact .some ⟨hs.1, trivial⟩
      · obtain ⟨-, hloop'⟩ := hcases'.resolve_left fun hzero => by omega
        exact exits_of_loop he hcalls ih hp hl hbound hs hledger hloop hloop' hb

/-! ### Procedures -/

/-- Calls agree, by induction on how deep they are nested. -/
theorem callsAgree (he : e.Comparable) (k : Nat) : e.CallsAgree scenario k := by
  induction k with
  | zero =>
    constructor
    case keeps => rintro relative q start ledger timing ledger' ⟨⟩
    case calls => rintro m relative origin origin' q start start' ledger ledger' - - r r' - ⟨⟩
  | succ k ih =>
    constructor
    case keeps =>
      intro relative q start ledger timing ledger' h hledger
      obtain ⟨p, progress, hq, hregion, -, -, hsummaries⟩ := procedureAt_eq_ok h
      have hp : e.program.procedures[p.id]? = some p := by rwa [he.accepted.id_eq hq]
      apply ofSummaries_exact.of_eq hsummaries
      exact region_rel ofSummaries_exact ih.keeps (loopsAgree he ih hp _).keeps hregion hledger
    case calls =>
      intro m relative origin origin' q start start' ledger ledger' hstart hledger
      cases m with
      | zero => rintro r r' ⟨⟩
      | succ m =>
        refine coupled_procedureAt (sound_elapsed he.untimed origin origin') hstart fun p hq => ?_
        have hp : e.program.procedures[p.id]? = some p := by rwa [he.accepted.id_eq hq]
        have hwell := he.accepted.wellFormed hp
        refine (coupled_exits hwell (he.exits p (List.mem_of_getElem? hp))
          (sound_elapsed he.untimed origin origin') (ih.calls m false _ _)
          ((loopsAgree he ih hp _).exits m _ false _ _) (innerStamps_loopAt hwell _)
          (innerStamps_summarize rfl _) ⟨hstart, trivial⟩ hledger).imp ?_
        rintro u u' ⟨hafter, hends⟩
        refine ⟨hafter, fun b hb => ?_⟩
        exact rel_imp (hends b (hwell.sinks_mem hb) b (hwell.exit_self none b)) fun _ _ h => h.1

theorem Comparable.timing_eq (he : e.Comparable) {entry start : Nat} {timing timing' : Timing}
    (h : (e.analyze entry start scenario).result = .ok timing)
    (h' : (e.summarizing.analyze entry start scenario).result = .ok timing') :
    timing' = timing := by
  obtain ⟨ledger, htrace⟩ := trace_of_analyze h
  obtain ⟨ledger', htrace'⟩ := trace_of_analyze h'
  have hend := ((callsAgree he _).calls _ false 0 0 rfl exact_empty _ _ htrace htrace').1
  have hcost : timing'.cost = timing.cost := by
    have hend : start + timing.cost + 0 = start + timing'.cost + 0 := hend
    omega
  rw [timing_of_trace htrace, timing_of_trace htrace', hcost]

end Engine

/-- Without a schedule of the bus, the treatments of loops by their iterations agree. Suppose that
loops are left after their header or sink only, and that every block of a loop leads to the sink,
inner loops being passed as a whole. Then the procedure can be timed with unrolled and with
summarised loops, unless numbers overflow or loops are nested too deep, and its timing is the
same. -/
theorem summarized_eq_unrolled {program : Program} {analysis : Cache.Analysis}
    {platform : Platform} {solver : Offset.Solver} {core entry start : Nat} {scenario : Scenario}
    {e e' : Engine} (hprogram : program.Accepted)
    (hexits : ∀ p ∈ program.procedures, p.ExitsAtEnds)
    (hconverges : ∀ p ∈ program.procedures, p.Converges)
    (hentry : entry < program.procedures.length) (hbus : platform.bus.timed? = none)
    (hcore : (Engine.mk program analysis (platform.withLoops .unroll) solver 0).onCore core = .ok e)
    (hcore' : (Engine.mk program analysis (platform.withLoops .summarize) solver 0).onCore core =
      .ok e') :
    Ensures (Exhausts program) (e.analyze entry start scenario).result fun timing =>
      Ensures (Exhausts program) (e'.analyze entry start scenario).result fun timing' =>
        timing' = timing := by
  obtain ⟨rfl, hscheduled⟩ := Engine.onCore_eq_ok hcore
  obtain ⟨rfl, hscheduled'⟩ := Engine.onCore_eq_ok hcore'
  have he : (Engine.mk program analysis (platform.withLoops .unroll) solver core).Comparable :=
    ⟨hprogram, hexits, hconverges, hbus, rfl⟩
  refine (Engine.ensures_analyze hprogram hscheduled (by rintro ⟨⟩) hentry).imp ?_
  intro timing hrun _
  refine (Engine.ensures_analyze hprogram hscheduled' (by rintro ⟨⟩) hentry).imp ?_
  intro timing' hrun' _
  exact he.timing_eq hrun hrun'

/-! ### Nested loops

The inner loop calls a procedure. The outer one may pass it, and its sink is reached either way. -/

def nestedDraft : Code.Draft where
  id := 0
  name := "nested"
  blocks := [[⟨0, none⟩], [⟨16, none⟩, ⟨20, some 1⟩], [⟨32, none⟩], [⟨48, none⟩], []]
  edges := [(0, 1), (0, 3), (1, 2), (2, 3), (3, 4)]
  loops := [{ header := 0, sink := 3, members := [1, 2], bound := 3, naturalExit := true },
    { header := 1, sink := 2, members := [], bound := 2, naturalExit := false }]

def nested : Procedure where
  id := 0
  name := "nested"
  blocks := [⟨[⟨0, none⟩], [], [1, 3], some 0, some 0⟩,
    ⟨[⟨16, none⟩, ⟨20, some 1⟩], [0], [2], some 1, some 1⟩, ⟨[⟨32, none⟩], [1], [3], none, some 1⟩,
    ⟨[⟨48, none⟩], [0, 2], [4], none, some 0⟩, ⟨[], [3], [], none, none⟩]
  loops := [⟨0, 3, 3, true, none, 0, [0, 1, 2, 3], [0, 1, 3]⟩,
    ⟨1, 2, 2, false, some 0, 1, [1, 2], [1, 2]⟩]
  order := [0, 4]
  sinks := [4]

theorem nested_accepted : Program.Accepted ⟨[nested, called]⟩ :=
  ⟨[nestedDraft, calledDraft], [nested, called], rfl, rfl⟩

/-- All blocks of both loops lead to their sinks. -/
theorem nested_converges : nested.Converges := by
  have hself : ∀ {l r}, nested.headerOf? r = some l → nested.StandsFor (some l) r r :=
    fun h => .inl ⟨rfl, .inr h⟩
  intro l loop hl
  rcases l with - | - | l
  · obtain rfl := Option.some.inj hl
    -- the header leads to the sink directly, and so does the inner loop after its own sink
    have hinner : nested.StandsFor (some 0) 1 2 := .inr ⟨1, _, rfl, by decide, rfl, by decide⟩
    show ∀ r ∈ [0, 1, 3], nested.Leads (some 0) 3 r
    rw [List.forall_mem_cons, List.forall_mem_cons, List.forall_mem_singleton]
    exact ⟨.step (hself rfl) ⟨_, rfl, by decide⟩ (by decide) .here,
      .step hinner ⟨_, rfl, by decide⟩ (by decide) .here, .here⟩
  · obtain rfl := Option.some.inj hl
    show ∀ r ∈ [1, 2], nested.Leads (some 1) 2 r
    rw [List.forall_mem_cons, List.forall_mem_singleton]
    exact ⟨.step (hself rfl) ⟨_, rfl, by decide⟩ (by decide) .here, .here⟩
  · cases hl

def unmodeledPlatform : Platform :=
  { shortPlatform with
    bus := .unmodeled shortSlots
    transfers_fit := by rintro _ ⟨⟩ }

/-- On the second one of two cores, where every transfer is charged a whole round of the bus. -/
theorem summarized_eq_unrolled_nested : ∃ analysis e e' timing timing',
    (unmodeledPlatform.hierarchy.analyze ⟨[nested, called]⟩ 0).result = .ok analysis ∧
    (Engine.mk ⟨[nested, called]⟩ analysis (unmodeledPlatform.withLoops .unroll) .embedded
      0).onCore 1 = .ok e ∧
    (Engine.mk ⟨[nested, called]⟩ analysis (unmodeledPlatform.withLoops .summarize) .embedded
      0).onCore 1 = .ok e' ∧
    (∀ p ∈ [nested, called], p.ExitsAtEnds) ∧ (∀ p ∈ [nested, called], p.Converges) ∧
    (e.analyze 0 5 .worst).result = .ok timing ∧ (e'.analyze 0 5 .worst).result = .ok timing' ∧
    timing.finish = 215 ∧ timing' = timing := by
  have hcomputed : ((unmodeledPlatform.hierarchy.analyze ⟨[nested, called]⟩ 0).result.toOption.bind
      fun a =>
      ((Engine.mk ⟨[nested, called]⟩ a (unmodeledPlatform.withLoops .unroll) .embedded 0).onCore
        1).toOption.bind fun e =>
      ((Engine.mk ⟨[nested, called]⟩ a (unmodeledPlatform.withLoops .summarize) .embedded 0).onCore
        1).toOption.map fun e' =>
        (finish? (e.analyze 0 5 .worst).result, finish? (e'.analyze 0 5 .worst).result)) =
      some (some 215, some 215) := by
    decide +kernel
  obtain ⟨analysis, hanalysis, hrest⟩ := Option.bind_eq_some_iff.mp hcomputed
  obtain ⟨e, he, hrest⟩ := Option.bind_eq_some_iff.mp hrest
  obtain ⟨e', he', hfinishes⟩ := Option.map_eq_some_iff.mp hrest
  obtain ⟨hfinish, hfinish'⟩ := Prod.mk.inj hfinishes
  obtain ⟨timing, hrun, hfinish⟩ := finish?_eq_some hfinish
  obtain ⟨timing', hrun', -⟩ := finish?_eq_some hfinish'
  rw [toOption_eq_some] at hanalysis he he'
  have hexits : ∀ p ∈ [nested, called], p.ExitsAtEnds := by decide
  have hconverges : ∀ p ∈ [nested, called], p.Converges := by
    rw [List.forall_mem_cons, List.forall_mem_singleton]
    exact ⟨nested_converges, by rintro l loop ⟨⟩⟩
  refine ⟨analysis, e, e', timing, timing', hanalysis, he, he', hexits, hconverges, hrun, hrun',
    hfinish, ?_⟩
  exact ((summarized_eq_unrolled nested_accepted hexits hconverges Nat.two_pos rfl he he').result
    hrun).result hrun'

end CycleBounds.Bound
