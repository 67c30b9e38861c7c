import CycleBounds.Proofs.Bound.Summaries

/-!
# Summarised loops at best

At best, a summary has the costs of a first and of a steady round in which no transfer waits for the
bus. Suppose that no path through a round takes less, whenever it starts. Then the loop takes at
least as long as all rounds together.

Within a round only calls may cost more than that. A called procedure is timed from the time since
the round began, as if this were the time on the bus, and its transfers wait for slots that lie
elsewhere. So the costs are right where the procedures that are called from loops make no transfers
outside of their own loops.

* `Undercuts.le_rounds`: no path through the rounds of a loop takes less than its summary has.
* `lasts_of_path`: what is timed without the bus takes as long at all times, by induction on how a
  path is put together.
* `undercuts_of_trace`: so the summaries of a program with quiet calls are right.
* `best_summarized_le_unrolled`: then the bound at best is not above the one with unrolled loops.
* `best_unrolled_lt_summarized`: otherwise it may be.
-/

namespace CycleBounds.Bound

namespace Engine

open Code (Procedure Loop Instruction)
open Run (Issue Part Path roundContext)

variable {e : Engine} {s : Bus.Schedule} {quiet : List Nat} {relative : Bool} {p : Procedure}
  {b l n t cost : Nat} {loop : Loop} {context : Context} {path : List Issue}
  {ledger ledger' final : Ledger}

/-! ### Rounds -/

/-- Every path through a part of the program takes at least so long at best, whenever it starts. -/
def Takes (e : Engine) (part : Part) (cost : Nat) : Prop :=
  ∀ path, Path e.program Scenario.best.rounds part path → ∀ t, t + cost ≤ e.clock .best path t

/-- The summaries of the loops in a context have no more than a first and a steady round take. -/
def Undercuts (e : Engine) (context : Context) : Ledger → Prop :=
  e.AllSummaries context fun p l loop costs =>
    e.Takes (.body p (some l) (context.nest .first) loop.sink) costs.1 ∧
      e.Takes (.body p (some l) (context.nest .steady) loop.sink) costs.2

theorem extrapolate_best {interval first steady rest : Nat}
    (h : extrapolate .best interval first steady rest = .ok cost) :
    cost = first + steady * rest := by
  obtain ⟨-, h⟩ := Word.mul_bind_eq_ok.mp h
  exact (Word.add_eq_ok_iff.mp h).2

/-- Rounds that all take some time take it together. -/
theorem le_clock_rounds {path : Nat → List Issue} {first steady : Nat} (hpos : 0 < n)
    (hround : ∀ k < n, ∀ t, t + (if k = 0 then first else steady) ≤ e.clock .best (path k) t) :
    t + (first + steady * (n - 1)) ≤ e.clock .best ((List.range n).flatMap path) t := by
  obtain ⟨rest, rfl⟩ := Nat.exists_eq_succ_of_ne_zero (Nat.ne_of_gt hpos)
  -- the least times between the rounds
  obtain ⟨z, hstart, hz⟩ : ∃ z : Nat → Nat, z 0 = t ∧
      ∀ k, z (k + 1) = t + (first + steady * k) :=
    ⟨fun k => k.casesOn t fun k => t + (first + steady * k), rfl, fun _ => rfl⟩
  have hnext : ∀ k, z (k + 1) = z k + if k = 0 then first else steady := by
    intro k
    cases k with
    | zero => rw [hz, hstart, Nat.mul_zero]; rfl
    | succ k => rw [hz, hz, if_neg (Nat.succ_ne_zero k), Nat.mul_succ]; omega
  have hall : Scenario.best.Bounds (z (rest + 1))
      (e.clock .best ((List.range (rest + 1)).flatMap path) (z 0)) := by
    refine bounds_rounds z (.refl .best _) (fun k _ => ?_) fun k hk _ => ?_
    · rw [hnext]
      exact Nat.le_add_right _ _
    · rw [hnext]
      exact hround k hk (z k)
  rwa [hstart, hz] at hall

/-- No path through the rounds of a loop takes less than its summary has. -/
theorem Undercuts.le_rounds (hfinal : e.Undercuts context final)
    (hloops : e.platform.loops = .summarize) (hp : e.program.procedures[p.id]? = some p)
    (hwell : p.WellFormed) (hl : p.loops[l]? = some loop) (hbound : 0 < loop.bound)
    {path : Nat → List Issue} (hpaths : ∀ k < Scenario.best.rounds loop,
      Path e.program Scenario.best.rounds (.body p (some l) (roundContext context k) loop.sink)
        (path k))
    {body : Body} {entry : Stamp} {progress progress' : Progress}
    (h : (e.loop body .best relative p l loop context entry progress).result = .ok progress')
    (hwithin : progress'.ledger.Within final) {u : Nat} (hu : u = loop.header ∨ u = loop.sink) :
    ∃ o, progress'.times.get? u = some o ∧ ∀ t, t + o.finish ≤
      e.clock .best ((List.range (Scenario.best.rounds loop)).flatMap path) t + entry.finish := by
  simp only [Engine.loop, hloops] at h
  obtain ⟨costs, ledger, n, cost, hsummary, hcount, hcost, rfl⟩ := summarize_eq_ok h
  have hpos := iterations_pos hbound hcount
  obtain rfl := iterations_eq_ok hcount
  rw [get?_spread, if_pos (hwell.end_mem hl hu)]
  refine ⟨_, rfl, fun t => ?_⟩
  have hget : final.summaries.get? ⟨p.id, loop.header, context⟩ = some costs := by
    apply hwithin
    rw [summaries_spread]
    exact get?_summary hsummary
  obtain ⟨hfirst, hsteady⟩ := hfinal p l loop costs hp hl hget
  -- the first round is not faster than the first cost, and no other one than the second cost
  have hround : ∀ k < Scenario.best.rounds loop, ∀ t,
      t + (if k = 0 then costs.1 else costs.2) ≤ e.clock .best (path k) t := by
    intro k hk t
    have hpath := hpaths k hk
    rw [roundContext] at hpath
    split at hpath
    · rename_i hzero
      rw [if_pos hzero]
      exact hfirst _ hpath t
    · rename_i hnonzero
      rw [if_neg hnonzero]
      exact hsteady _ hpath t
  have hall := le_clock_rounds (t := t) hpos hround
  rw [extrapolate_best hcost]
  show t + (entry.finish + _) ≤ _
  omega

/-- The cost of a summarised loop bounds all paths through its rounds at best. -/
theorem boundsLoops_undercuts (hloops : e.platform.loops = .summarize) :
    BoundsLoops e .best .best (e.Undercuts .root) := by
  intro p l loop m n context entry progress progress' path u hp hl hbound hpaths _ hloop hfinal hu
  obtain rfl := hp.context hloops
  obtain ⟨o, ho, hle⟩ := hfinal.le_rounds hloops hp.procedure hp.wellFormed hl hbound hpaths hloop
    (ofSummaries_within.of_eq rfl) hu
  refine ⟨o, ho, ?_⟩
  have hentry := hle entry.finish
  show o.finish ≤ _
  omega

/-! ### Quiet calls -/

def CallsWithin (quiet : List Nat) (p : Procedure) (b : Nat) : Prop :=
  ∀ block ∈ p.blocks[b]?, ∀ i ∈ block.instructions, ∀ q ∈ i.callee, q ∈ quiet

def AllHit (e : Engine) (p : Procedure) (b : Nat) (context : Context) : Prop :=
  ∀ block ∈ p.blocks[b]?, ∀ k < block.instructions.length,
    e.sourceAt .best ⟨p.id, b, context⟩ k = .l1

instance : Decidable (CallsWithin quiet p b) :=
  inferInstanceAs (Decidable (∀ block ∈ p.blocks[b]?, ∀ i ∈ block.instructions, ∀ q ∈ i.callee,
    q ∈ quiet))

instance : Decidable (e.AllHit p b context) :=
  inferInstanceAs (Decidable (∀ block ∈ p.blocks[b]?, ∀ k < block.instructions.length,
    e.sourceAt .best ⟨p.id, b, context⟩ k = .l1))

/-- Loops call only procedures of a list, which make no transfers outside of their own loops and
call only procedures of the list. -/
structure QuietCalls (e : Engine) (quiet : List Nat) : Prop where
  loops : ∀ p ∈ e.program.procedures, ∀ loop ∈ p.loops, ∀ b ∈ loop.order, CallsWithin quiet p b
  procedures : ∀ p ∈ e.program.procedures, p.id ∈ quiet → ∀ b ∈ p.order, p.headerOf? b = none →
    e.AllHit p b .root ∧ CallsWithin quiet p b

instance : Decidable (e.QuietCalls quiet) :=
  decidable_of_iff ((∀ p ∈ e.program.procedures, ∀ loop ∈ p.loops, ∀ b ∈ loop.order,
      CallsWithin quiet p b) ∧ ∀ p ∈ e.program.procedures, p.id ∈ quiet → ∀ b ∈ p.order,
        p.headerOf? b = none → e.AllHit p b .root ∧ CallsWithin quiet p b)
    ⟨fun ⟨hloops, hprocedures⟩ => ⟨hloops, hprocedures⟩, fun h => ⟨h.loops, h.procedures⟩⟩

/-- A region whose blocks do not wait for the bus: the run is relative, or there are no
transfers. -/
structure Unhindered (e : Engine) (quiet : List Nat) (relative : Bool) (p : Procedure)
    (region : Option Nat) (context : Context) : Prop where
  procedure : e.program.procedures[p.id]? = some p
  wellFormed : p.WellFormed
  blocks : ∀ b ∈ p.orderOf region, p.headerOf? b = none ∨ p.headerOf? b = region →
    (relative = true ∨ e.AllHit p b context) ∧ CallsWithin quiet p b

theorem QuietCalls.round (h : e.QuietCalls quiet) (hp : e.program.procedures[p.id]? = some p)
    (hwell : p.WellFormed) (hl : p.loops[l]? = some loop) :
    e.Unhindered quiet true p (some l) context where
  procedure := hp
  wellFormed := hwell
  blocks b hb _ := by
    rw [Procedure.orderOf_loop hl] at hb
    exact ⟨.inl rfl, h.loops p (List.mem_of_getElem? hp) loop (List.mem_of_getElem? hl) b hb⟩

theorem QuietCalls.procedure (h : e.QuietCalls quiet) (hp : e.program.procedures[p.id]? = some p)
    (hwell : p.WellFormed) (hquiet : p.id ∈ quiet) :
    e.Unhindered quiet false p none .root where
  procedure := hp
  wellFormed := hwell
  blocks b hb hnone := by
    obtain ⟨hhits, hcalls⟩ :=
      h.procedures p (List.mem_of_getElem? hp) hquiet b hb (hnone.elim id id)
    exact ⟨.inr hhits, hcalls⟩

/-! ### Paths -/

/-- A fetch that does not wait for the bus is charged for no longer than it takes at any time. -/
theorem fetch_le_fetchSpan (hs : e.platform.bus.timed? = some s) {source : Source} {time d : Nat}
    {bus bus' : Bus.Tracker} (hfree : relative = true ∨ source = .l1)
    (h : (e.fetch .best relative source time bus).result = .ok (d, bus')) (t : Nat) :
    d ≤ e.fetchSpan .best source t := by
  -- in a relative run, a transfer at best is charged its latency only
  have htransfer : ∀ {latency}, relative = true →
      (e.transfer .best relative time latency bus).result = .ok (d, bus') →
      d ≤ e.platform.bus.span .best e.core t latency := by
    rintro latency rfl h
    simp only [transfer, hs] at h
    obtain ⟨rfl, -⟩ := Prod.mk.inj (Except.ok.inj h)
    exact Bus.le_span
  cases source with
  | l1 =>
    obtain ⟨rfl, -⟩ := Prod.mk.inj (Except.ok.inj h)
    exact Nat.le_refl _
  | l2 => exact htransfer (hfree.resolve_right (by rintro ⟨⟩)) h
  | memory => exact htransfer (hfree.resolve_right (by rintro ⟨⟩)) h

theorem AllHit.sourceAt (h : e.AllHit p b context) {block : Code.Block} {i : Instruction}
    (hblock : p.blocks[b]? = some block) (hi : block.instructions[n]? = some i) :
    e.sourceAt .best ⟨p.id, b, context⟩ n = .l1 := by
  obtain ⟨hn, -⟩ := List.getElem?_eq_some_iff.mp hi
  exact h block hblock n hn

/-- A path through a part of the program takes at least as long, whenever it starts, as a run has it
that does not wait for the bus and finds its summaries in a ledger. -/
def Lasts (e : Engine) (quiet : List Nat) (final : Ledger) : Part → List Issue → Prop
  | .code p b context n, path => ∀ {relative m start} {g : Nat → Account},
      relative = true ∨ e.AllHit p b context → CallsWithin quiet p b → (g 0).cost = 0 →
      (g n).ledger.Within final →
      (∀ block, p.blocks[b]? = some block → ∀ k i, k < n → block.instructions[k]? = some i →
        (e.charge (e.procedureAt m) .best relative p b start (g k)
          (i, e.sourceAt .best ⟨p.id, b, context⟩ k)).result = .ok (g (k + 1))) →
      ∀ t, t + (g n).cost ≤ e.clock .best path t
  | .element p region context r u, path => ∀ {relative m n s progress progress'},
      e.Unhindered quiet relative p region context → r ∈ p.orderOf region →
      (e.visit (e.procedureAt m) (e.loopAt (e.procedureAt m) p n) .best relative p region context r
        s progress).result = .ok progress' →
      progress'.ledger.Within final →
      ∃ o, progress'.times.get? u = some o ∧ ∀ t, t + o.finish ≤ e.clock .best path t + s.finish
  | .body p region context u, path => ∀ {relative m n s progress progress'},
      e.Unhindered quiet relative p region context →
      (e.region (e.procedureAt m) (e.loopAt (e.procedureAt m) p n) .best relative p region context
        (p.orderOf region) s progress).result = .ok progress' →
      progress'.ledger.Within final →
      ∃ o, progress'.times.get? u = some o ∧ ∀ t, t + o.finish ≤ e.clock .best path t + s.finish
  | .procedure q, path => q ∈ quiet → ∀ {relative m start ledger timing ledger'},
      (e.procedureAt m .best relative q start ledger).result = .ok (timing, ledger') →
      ledger'.Within final → ∀ t, t + timing.cost ≤ e.clock .best path t

section Steps

variable {m start : Nat} {region : Option Nat} {stamp : Stamp} {progress progress' : Progress}

theorem charge_within (hloops : e.platform.loops = .summarize) {a a' : Account}
    {i : Instruction × Source}
    (h : (e.charge (e.procedureAt m) .best relative p b start a i).result = .ok a')
    (hwithin : a'.ledger.Within final) : a.ledger.Within final :=
  ofSummaries_within.trans (charge_rel ofSummaries_within (procedureAt_within hloops) h) hwithin

/-- What an instruction is charged is no more than its fetch takes at any time. -/
theorem le_clock_fetch (hs : e.platform.bus.timed? = some s) {a : Account} {d : Nat}
    {bus : Bus.Tracker} {i : Instruction}
    (hfree : relative = true ∨ e.sourceAt .best ⟨p.id, b, context⟩ n = .l1)
    (hfetch : (e.fetch .best relative (e.sourceAt .best ⟨p.id, b, context⟩ n) (start + a.cost)
      a.bus).result = .ok (d, bus))
    (hbefore : t + a.cost ≤ e.clock .best path t) :
    t + (a.cost + d + e.platform.instrCost .best) ≤
      e.clock .best (path ++ [⟨⟨p.id, b, context⟩, n, i.address⟩]) t := by
  have hspan := fetch_le_fetchSpan hs hfree hfetch (e.clock .best path t)
  rw [clock_append, clock_cons, clock_nil]
  simp only [after]
  omega

/-- The cost up to the fetch of an instruction is no more than a path to there takes, and a callee
comes on top of it. -/
theorem le_clock_issue (hloops : e.platform.loops = .summarize)
    (hs : e.platform.bus.timed? = some s) {block : Code.Block} {i : Instruction}
    {g : Nat → Account} (hcode : e.Lasts quiet final (.code p b context n) path)
    (hblock : p.blocks[b]? = some block) (hi : block.instructions[n]? = some i)
    (hfree : relative = true ∨ e.AllHit p b context) (hcalls : CallsWithin quiet p b)
    (hzero : (g 0).cost = 0) (hwithin : (g (n + 1)).ledger.Within final)
    (hsteps : ∀ block, p.blocks[b]? = some block → ∀ k i, k < n + 1 →
      block.instructions[k]? = some i →
      (e.charge (e.procedureAt m) .best relative p b start (g k)
        (i, e.sourceAt .best ⟨p.id, b, context⟩ k)).result = .ok (g (k + 1))) :
    ∃ cost, (∀ t, t + cost ≤
        e.clock .best (path ++ [⟨⟨p.id, b, context⟩, n, i.address⟩]) t) ∧
      match i.callee with
      | none => (g (n + 1)).cost = cost
      | some q => ∃ timing, (e.procedureAt m .best relative q (start + cost) (g n).ledger).result =
          .ok (timing, (g (n + 1)).ledger) ∧ (g (n + 1)).cost = cost + timing.cost := by
  have hstep := hsteps block hblock n i (Nat.lt_succ_self n) hi
  have hbefore := hcode hfree hcalls hzero (charge_within hloops hstep hwithin)
    fun block hblock k i hk => hsteps block hblock k i (Nat.lt_succ_of_lt hk)
  obtain ⟨d, hfetch, hcases⟩ := charge_eq_ok hstep
  have hnear := hfree.imp_right fun hhits => hhits.sourceAt hblock hi
  refine ⟨_, fun t => le_clock_fetch hs hnear hfetch (hbefore t), ?_⟩
  cases hc : i.callee with
  | none =>
    simp only [hc] at hcases
    exact hcases.1
  | some q =>
    simp only [hc] at hcases
    exact hcases

/-- What is known of a visit in a run of a region is known of the whole run. -/
theorem lasts_of_stage (hloops : e.platform.loops = .summarize) {first rest : List Nat}
    {r u : Nat} {s₁ : Stamp} {t₁ t₂ : Progress}
    (hstage : (sweep e .best relative (e.procedureAt m) (e.loopAt (e.procedureAt m) p n) p region
      context).Stage p region stamp progress progress' first r rest s₁ t₁ t₂)
    (hp : e.Unhindered quiet relative p region context)
    (hwithin : progress'.ledger.Within final) (hu : p.StandsFor region r u)
    (hr : r ∈ p.orderOf region)
    (helement : e.Lasts quiet final (.element p region context r u) path) :
    ∃ o, progress'.times.get? u = some o ∧
      ∀ t, t + o.finish ≤ e.clock .best path t + s₁.finish := by
  have hwithin₂ : t₂.ledger.Within final := by
    refine hstage.within (fun t => t.ledger.Within final) (fun _ hv => ?_) hwithin
    exact ofSummaries_within.trans
      (visit_rel ofSummaries_within (procedureAt_within hloops) (loopAt_within hloops) hv)
  obtain ⟨o, ho, hle⟩ := helement hp hr hstage.visit hwithin₂
  exact ⟨o, (hstage.now u hu).symm.trans ho, hle⟩

end Steps

/-- A path takes at least as long, whenever it starts, as a run has it that does not wait for the
bus. -/
theorem lasts_of_path (hprogram : e.program.Accepted) (hloops : e.platform.loops = .summarize)
    (hs : e.platform.bus.timed? = some s) (hquiet : e.QuietCalls quiet)
    (hfinal : ∀ context, e.Undercuts context final) {part : Part}
    (hpath : Path e.program Scenario.best.rounds part path) : e.Lasts quiet final part path := by
  induction hpath with
  | start =>
    intro relative m start g _ _ hzero _ _ t
    simp [hzero]
  | @fetch p b context n path block i _ hblock hi hc ih =>
    intro relative m start g hfree hcalls hzero hwithin hsteps t
    obtain ⟨cost, hissue, hcases⟩ :=
      le_clock_issue hloops hs ih hblock hi hfree hcalls hzero hwithin hsteps
    simp only [hc] at hcases
    rw [hcases]
    exact hissue t
  | @call p b context n path q path' block i _ hblock hi hc _ ih ih' =>
    intro relative m start g hfree hcalls hzero hwithin hsteps t
    obtain ⟨cost, hissue, hcases⟩ :=
      le_clock_issue hloops hs ih hblock hi hfree hcalls hzero hwithin hsteps
    simp only [hc] at hcases
    obtain ⟨timing, hcall, hcost⟩ := hcases
    have hcallee := ih' (hcalls block hblock i (List.mem_of_getElem? hi) q hc) hcall hwithin
    rw [hcost, ← Nat.add_assoc, List.append_cons, clock_append]
    exact Nat.le_trans (Nat.add_le_add_right (hissue t) _) (hcallee _)
  | @block p region context b path block hblock hself _ ih =>
    intro relative m n s progress progress' hp hr hvisit hwithin
    obtain ⟨stamp, ledger, hrun, rfl⟩ := visit_of_block hself hvisit
    obtain ⟨block', g, hblock', hfirst, hfinish, -, rfl, hsteps⟩ := block_eq_ok hrun
    obtain rfl := Option.some.inj (hblock.symm.trans hblock')
    obtain ⟨hfree, hcalls⟩ := hp.blocks b hr hself
    have hwithin' : (g block.instructions.length).ledger.Within final :=
      ofSummaries_within.trans (ofSummaries_within.of_eq summaries_stamp) hwithin
    have hcode := ih (m := m) hfree hcalls (by rw [hfirst]) hwithin' (by
      intro block' hblock' k i _ hi
      obtain rfl := Option.some.inj (hblock.symm.trans hblock')
      exact hsteps k i hi)
    refine ⟨stamp, Table.get?_insert_self _ _ _, fun t => ?_⟩
    have hle := hcode t
    omega
  | @pass p region context r u l loop hh hne hl hzero hu =>
    intro relative m n s progress progress' hp _ hvisit _
    rcases visit_loop hh hne hl hvisit with ⟨-, rfl⟩ | ⟨hpos, -⟩
    · rw [get?_spread, if_pos hu]
      exact ⟨_, rfl, fun t => Nat.le_refl _⟩
    · omega
  | @loop p region context r u l loop path hh hne hl hbound hpaths hu _ =>
    intro relative m n s progress progress' hp _ hvisit hwithin
    rcases visit_loop hh hne hl hvisit with ⟨hzero, -⟩ | ⟨-, n', hloop⟩
    · omega
    · exact (hfinal context).le_rounds hloops hp.procedure hp.wellFormed hl hbound hpaths hloop
        hwithin hu
  | @enter p region context r u path hhead hpath ih =>
    intro relative m n s progress progress' hp hregion hwithin
    have hr := List.mem_of_mem_head? hhead
    obtain ⟨first, rest, s₁, t₁, t₂, hstage⟩ :=
      stage_of_region hp.wellFormed (innerStamps_summarize hloops n) hregion hr
    obtain ⟨rfl, -⟩ := hstage.start (hstage.first_eq_nil hp.wellFormed hhead)
    exact lasts_of_stage hloops hstage hp hwithin (hpath.standsFor hp.wellFormed) hr ih
  | @next p region context u v w path path' hbefore hedge hv hpath ih ih' =>
    intro relative m n s progress progress' hp hregion hwithin
    obtain ⟨o, ho, hle⟩ := ih hp hregion hwithin
    -- the block starts with the first of its predecessors
    obtain ⟨first, rest, s₁, t₁, t₂, hstage, hlast⟩ := stage_of_edge hp.wellFormed
      (innerStamps_summarize hloops n) hregion hedge (hbefore.inside hp.wellFormed) hv
    have hmeet : s₁.finish ≤ o.finish := Scenario.bounds_iff_not_exceeds.mpr (hlast o ho)
    obtain ⟨o', ho', hle'⟩ :=
      lasts_of_stage hloops hstage hp hwithin (hpath.standsFor hp.wellFormed) hv ih'
    refine ⟨o', ho', fun t => ?_⟩
    have hthere := hle t
    have hnext := hle' (e.clock .best path t)
    rw [clock_append]
    omega
  | @procedure p q u path hq hu _ ih =>
    intro hmem relative m start ledger timing ledger' hcall hwithin t
    cases m with
    | zero => cases hcall
    | succ m =>
      obtain ⟨p', progress, hq', hregion, hexit, hfinish, hsummaries⟩ := procedureAt_eq_ok hcall
      obtain rfl := Option.some.inj (hq.symm.trans hq')
      have hid := hprogram.id_eq hq
      have hp := hquiet.procedure (by rwa [hid]) (hprogram.wellFormed hq) (by rwa [hid])
      have hwithin' := ofSummaries_within.trans (ofSummaries_within.of_eq hsummaries) hwithin
      obtain ⟨o, ho, hle⟩ := ih hp hregion hwithin'
      have hexit : timing.finish ≤ o.finish :=
        Scenario.bounds_iff_not_exceeds.mpr ((exitTime_eq_ok hexit).2 u o hu ho)
      have hthere := hle t
      change t + o.finish ≤ e.clock .best path t + start at hthere
      omega

/-! ### Traces -/

/-- A relative run finds a cost that no path through a round undercuts. -/
theorem takes_of_relativeCost (hprogram : e.program.Accepted)
    (hloops : e.platform.loops = .summarize) (hs : e.platform.bus.timed? = some s)
    (hquiet : e.QuietCalls quiet) (hfinal : ∀ context, e.Undercuts context final)
    (hp : e.program.procedures[p.id]? = some p) (hl : p.loops[l]? = some loop) {m : Nat}
    (h : (relativeCost (bodyOf e (e.procedureAt m) p n l loop) .best loop context ledger).result =
      .ok (cost, ledger'))
    (hwithin : ledger'.Within final) : e.Takes (.body p (some l) context loop.sink) cost := by
  intro path hpath t
  obtain ⟨progress, hrun, rfl, o, ho, rfl⟩ := relativeCost_eq_ok h
  rw [bodyOf, ← Procedure.orderOf_loop hl] at hrun
  have hround : e.Unhindered quiet true p (some l) context :=
    hquiet.round hp (hprogram.wellFormed hp) hl
  obtain ⟨o', ho', hle⟩ :=
    lasts_of_path hprogram hloops hs hquiet hfinal hpath hround hrun hwithin
  obtain rfl := Option.some.inj (ho.symm.trans ho')
  exact hle t

theorem relativeCost_within (hloops : e.platform.loops = .summarize) {scenario : Scenario} {m : Nat}
    (h : (relativeCost (bodyOf e (e.procedureAt m) p n l loop) scenario loop context
      ledger).result = .ok (cost, ledger')) : ledger.Within ledger' := by
  obtain ⟨progress, hrun, rfl, -⟩ := relativeCost_eq_ok h
  have hafter := region_rel ofSummaries_within (procedureAt_within hloops) (loopAt_within hloops)
    hrun
  exact hafter

theorem ofSummaries_undercuts :
    OfSummaries fun ledger ledger' =>
      (∀ context, e.Undercuts context ledger) → ∀ context, e.Undercuts context ledger' where
  of_eq heq h context := (h context).of_within (ofSummaries_within.of_eq heq.symm)
  trans h₁ h₂ h := h₂ (h₁ h)

/-- Recording the cost of relative rounds keeps all summaries below what rounds take. -/
theorem records_undercuts (hprogram : e.program.Accepted) (hloops : e.platform.loops = .summarize)
    (hs : e.platform.bus.timed? = some s) (hquiet : e.QuietCalls quiet) :
    Records e .best (fun p => e.program.procedures[p.id]? = some p) fun ledger ledger' =>
      (∀ context, e.Undercuts context ledger) → ∀ context, e.Undercuts context ledger' := by
  intro m n p l loop context ledger ledger₁ ledger₂ costs hp hl _ hfirst hsteady hbefore hall
    context' p' l' loop' costs' hp' hl' hget
  have hfinal := hbefore hall
  by_cases heq : (⟨p'.id, loop'.header, context'⟩ : Cache.Place) = ⟨p.id, loop.header, context⟩
  · -- the summary that is entered now
    rw [heq, Table.get?_insert_self] at hget
    obtain rfl := Option.some.inj hget
    obtain ⟨hid, hheader, rfl⟩ := Cache.Place.mk.inj heq
    obtain ⟨rfl, rfl, rfl⟩ := loop_unique hprogram hp' hp hl' hl hid hheader
    exact ⟨takes_of_relativeCost hprogram hloops hs hquiet hfinal hp hl hfirst
        (relativeCost_within hloops hsteady),
      takes_of_relativeCost hprogram hloops hs hquiet hfinal hp hl hsteady
        (ofSummaries_within.of_eq rfl)⟩
  · -- one that was there before
    rw [Table.get?_insert_of_ne _ heq] at hget
    exact hfinal context' p' l' loop' costs' hp' hl' hget

/-- The summaries of a program with quiet calls have no more than rounds take. -/
theorem undercuts_of_trace (hprogram : e.program.Accepted)
    (hloops : e.platform.loops = .summarize) (hs : e.platform.bus.timed? = some s)
    (hquiet : e.QuietCalls quiet) {entry start : Nat} {timing : Timing}
    (h : (e.trace entry start .best).result = .ok (timing, ledger)) :
    e.Undercuts .root ledger := by
  have hempty : ∀ context, e.Undercuts context .empty := nofun
  refine procedureAt_rel hloops ofSummaries_undercuts
    (records_undercuts hprogram hloops hs hquiet) ?_ h hempty .root
  intro q p hp
  show e.program.procedures[p.id]? = some p
  rwa [hprogram.id_eq hp]

end Engine

/-! ### Estimates -/

open Code (Draft Program Procedure)
open Engine (Exhausts Ordered)

variable {program : Program} {analysis : Cache.Analysis} {platform : Platform}
  {schedule : Bus.Schedule} {core entry start : Nat}

/-- A procedure can be timed with summarised loops, and with unrolled ones, unless numbers overflow
or loops are nested too deep. Where the summaries of the outermost loops have no more than their
rounds take, the bound at best with summarised loops is not above the one with unrolled loops. They
do if all procedures that are called from loops are quiet. -/
theorem best_summarized_le_unrolled (hprogram : program.Accepted)
    (hexits : ∀ p ∈ program.procedures, p.ExitsAtEnds)
    (hentry : entry < program.procedures.length) (hbus : platform.bus = .scheduled schedule)
    (hcore : core < schedule.cores) :
    let e := Engine.mk program analysis (platform.withLoops .summarize) .embedded core
    Ensures (Exhausts program) (e.trace entry start .best).result fun summarized =>
      (∀ quiet, e.QuietCalls quiet → e.Undercuts .root summarized.2) ∧
      (e.Undercuts .root summarized.2 →
        Ensures (Exhausts program)
          (estimate program analysis platform core entry start .unroll .best)
          fun unrolled => summarized.1.finish ≤ unrolled.finish) := by
  intro e
  have hscheduled : e.Scheduled := scheduled_of_bus hbus hcore .summarize
  refine (Engine.ensures_trace hprogram hscheduled (fun _ => rfl) hentry).imp ?_
  intro ⟨timing, ledger⟩ htrace _
  constructor
  · intro quiet hquiet
    exact Engine.undercuts_of_trace hprogram rfl (timed_of_bus hbus _) hquiet htrace
  intro hundercuts
  refine (ensures_estimate hprogram hentry hbus hcore).imp ?_
  intro timing' hunrolled _
  -- the shortest path of the unrolled program is one that the summaries bound
  obtain ⟨path, hpath, hclock⟩ :
      (Engine.mk program analysis (platform.withLoops .unroll) .embedded core).Attains .best
        (.procedure entry) start timing'.finish :=
    Engine.finish_attained hprogram hexits rfl hunrolled
  have hbounded := Engine.bounded_of_path hprogram (e.charges_self .best)
    (Engine.keeps_allSummaries rfl .best .root _) (Engine.boundsLoops_undercuts rfl) hpath htrace
    hundercuts
  rw [← hclock]
  obtain ⟨-, -, -, -, -, hfinish, -⟩ := Engine.procedureAt_eq_ok htrace
  rw [← hfinish]
  exact hbounded

/-! ### A loop that calls a procedure

With two ways, the line of the called procedure stays in the cache. With one way only, it is fetched
from the memory in every round. -/

def callingDraft : Draft where
  id := 0
  name := "calling"
  blocks := [[⟨0, some 1⟩], []]
  edges := [(0, 1)]
  loops := [{ header := 0, sink := 0, members := [], bound := 2, naturalExit := true }]

def calledDraft : Draft where
  id := 1
  name := "called"
  blocks := [[⟨16, none⟩]]
  edges := []
  loops := []

def calling : Procedure where
  id := 0
  name := "calling"
  blocks := [⟨[⟨0, some 1⟩], [], [1], some 0, some 0⟩, ⟨[], [0], [], none, none⟩]
  loops := [⟨0, 0, 2, true, none, 0, [0], [0]⟩]
  order := [0, 1]
  sinks := [1]

def called : Procedure where
  id := 1
  name := "called"
  blocks := [⟨[⟨16, none⟩], [], [], none, none⟩]
  loops := []
  order := [0]
  sinks := [0]

theorem calling_accepted : Program.Accepted ⟨[calling, called]⟩ :=
  ⟨[callingDraft, calledDraft], [calling, called], rfl, rfl⟩

def roomyPlatform : Platform :=
  { shortPlatform with
    hierarchy := ⟨⟨0, 2, 4, 1, 2, Nat.two_pos⟩, none⟩
    transfers_fit := by
      intro s hs
      obtain rfl := Option.some.inj hs
      decide }

/-- The called procedure hits, and only the first transfer waits for its slot. -/
theorem best_summarized_le_unrolled_calling : ∃ analysis summarized unrolled,
    (roomyPlatform.hierarchy.analyze ⟨[calling, called]⟩ 0).result = .ok analysis ∧
    let e := Engine.mk ⟨[calling, called]⟩ analysis (roomyPlatform.withLoops .summarize) .embedded 1
    e.QuietCalls [1] ∧ (e.trace 0 0 .best).result = .ok summarized ∧
    e.Undercuts .root summarized.2 ∧
    estimate ⟨[calling, called]⟩ analysis roomyPlatform 1 0 0 .unroll .best = .ok unrolled ∧
    [summarized.1.finish, unrolled.finish] = [5, 7] ∧
    summarized.1.finish ≤ unrolled.finish := by
  have hcomputed : ((roomyPlatform.hierarchy.analyze ⟨[calling, called]⟩ 0).result.toOption.map
      fun a =>
        let e := Engine.mk ⟨[calling, called]⟩ a (roomyPlatform.withLoops .summarize) .embedded 1
        (decide (e.QuietCalls [1]), (e.trace 0 0 .best).result.toOption.map (·.1.finish),
          finish? (estimate ⟨[calling, called]⟩ a roomyPlatform 1 0 0 .unroll .best))) =
      some (true, some 5, some 7) := by
    decide +kernel
  obtain ⟨analysis, hanalysis, hresults⟩ := Option.map_eq_some_iff.mp hcomputed
  simp only [Prod.mk.injEq, decide_eq_true_eq] at hresults
  obtain ⟨hquiet, htrace, hunrolled⟩ := hresults
  obtain ⟨summarized, htrace, hfinish⟩ := Option.map_eq_some_iff.mp htrace
  obtain ⟨unrolled, hunrolled, hfinish'⟩ := finish?_eq_some hunrolled
  have htrace := toOption_eq_some.mp htrace
  have hsafe := (best_summarized_le_unrolled calling_accepted (by decide) (Nat.succ_pos 1) rfl
    (by decide)).result htrace
  have hundercuts := hsafe.1 [1] hquiet
  refine ⟨analysis, summarized, unrolled, toOption_eq_some.mp hanalysis, hquiet, htrace,
    hundercuts, hunrolled, ?_, (hsafe.2 hundercuts).result hunrolled⟩
  rw [hfinish, hfinish']

/-- The second call comes one cycle before a slot. The summary has it one cycle after the start of a
slot, in which its transfer does not fit any more. -/
theorem best_unrolled_lt_summarized : ∃ analysis summarized unrolled,
    Program.Accepted ⟨[calling, called]⟩ ∧ (∀ p ∈ [calling, called], p.ExitsAtEnds) ∧
    Bus.Schedule.roundRobin 2 2 = .ok shortSlots ∧ Ordered shortPlatform.hierarchy ∧
    (shortPlatform.hierarchy.analyze ⟨[calling, called]⟩ 0).result = .ok analysis ∧
    estimate ⟨[calling, called]⟩ analysis shortPlatform 0 0 0 .summarize .best = .ok summarized ∧
    estimate ⟨[calling, called]⟩ analysis shortPlatform 0 0 0 .unroll .best = .ok unrolled ∧
    summarized.finish = 12 ∧ unrolled.finish = 10 := by
  have hcomputed : ((shortPlatform.hierarchy.analyze ⟨[calling, called]⟩ 0).result.toOption.map
      fun a => (finish? (estimate ⟨[calling, called]⟩ a shortPlatform 0 0 0 .summarize .best),
        finish? (estimate ⟨[calling, called]⟩ a shortPlatform 0 0 0 .unroll .best))) =
      some (some 12, some 10) := by
    decide +kernel
  obtain ⟨analysis, hanalysis, hresults⟩ := Option.map_eq_some_iff.mp hcomputed
  simp only [Prod.mk.injEq] at hresults
  obtain ⟨summarized, hsummarized, hfinish⟩ := finish?_eq_some hresults.1
  obtain ⟨unrolled, hunrolled, hfinish'⟩ := finish?_eq_some hresults.2
  exact ⟨analysis, summarized, unrolled, calling_accepted, by decide, rfl, by decide,
    toOption_eq_some.mp hanalysis, hsummarized, hunrolled, hfinish, hfinish'⟩

end CycleBounds.Bound
