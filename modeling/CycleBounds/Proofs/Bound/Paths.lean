import CycleBounds.Proofs.Bound.Clock
import CycleBounds.Proofs.Bound.Ledgers
import CycleBounds.Proofs.Code.Calls

/-!
# Analyses bound paths

An analysis follows all complete paths at once: where paths meet it goes on with the most extreme
time, which bounds every path from there on because a path that starts later ends later. Only the
treatment of loops is left open here (`BoundsLoops`).

* `bounded_of_path`: the times of an analysis bound all paths, by induction on how a path is put
  together.
* `boundsLoops_unroll`: unrolled loops do, round by round.
-/

namespace CycleBounds.Bound.Engine

open Code (Procedure Loop)
open Run (Issue Part Path Sweep roundContext)

variable {e : Engine} {actual bound : Scenario} {within : Ledger → Prop}

/-! ### Ledgers -/

/-- A property of ledgers that holds before a run if it holds after it. -/
structure Keeps (e : Engine) (scenario : Scenario) (within : Ledger → Prop) : Prop where
  stamps : ∀ {ledger ledger'}, within ledger' → ledger'.summaries = ledger.summaries → within ledger
  call : ∀ {n q start ledger timing ledger'},
    (e.procedureAt n scenario false q start ledger).result = .ok (timing, ledger') →
    within ledger' → within ledger
  inner : ∀ {m p n l context s progress progress'},
    (e.loopAt (e.procedureAt m) p n scenario false l context s progress).result = .ok progress' →
    within progress'.ledger → within progress.ledger

theorem keeps_true (e : Engine) (scenario : Scenario) : Keeps e scenario fun _ => True :=
  ⟨fun _ _ => trivial, fun _ _ => trivial, fun _ _ => trivial⟩

namespace Keeps

variable {scenario : Scenario} {m n b start : Nat} {p : Procedure} {context : Context}

theorem ofSummaries (hkeeps : Keeps e scenario within) :
    OfSummaries fun ledger ledger' => within ledger' → within ledger where
  of_eq heq h := hkeeps.stamps h heq
  trans h₁ h₂ h := h₁ (h₂ h)

theorem charge (hkeeps : Keeps e scenario within) {a a' : Account}
    {i : Code.Instruction × Source}
    (h : (e.charge (e.procedureAt m) scenario false p b start a i).result = .ok a') :
    within a'.ledger → within a.ledger :=
  charge_rel hkeeps.ofSummaries hkeeps.call h

theorem visit (hkeeps : Keeps e scenario within) {region : Option Nat} {s : Stamp}
    {progress progress' : Progress}
    (h : (e.visit (e.procedureAt m) (e.loopAt (e.procedureAt m) p n) scenario false p region context
      b s progress).result = .ok progress') : within progress'.ledger → within progress.ledger :=
  visit_rel hkeeps.ofSummaries hkeeps.call hkeeps.inner h

end Keeps

/-! ### Paths -/

/-- A procedure of the program in a context in which its bodies are followed: where loops are
summarised, no loop is followed within another one. -/
structure Reached (e : Engine) (p : Procedure) (context : Context) : Prop where
  procedure : e.program.procedures[p.id]? = some p
  wellFormed : p.WellFormed
  context : e.platform.loops = .summarize → context = .root

theorem Reached.round {p : Procedure} {context : Context} (h : Reached e p context)
    (hloops : e.platform.loops ≠ .summarize) (k : Nat) : Reached e p (roundContext context k) :=
  ⟨h.procedure, h.wellFormed, fun hsummarize => absurd hsummarize hloops⟩

/-- The times of an analysis in the scenario `bound` are on the safe side of a path through a part
of the program in the scenario `actual`. -/
def Bounded (e : Engine) (actual bound : Scenario) (within : Ledger → Prop) :
    Part → List Issue → Prop
  | .code p b context n, path => ∀ {m start} {g : Nat → Account}, (g 0).cost = 0 →
      within (g n).ledger →
      (∀ block, p.blocks[b]? = some block → ∀ k i, k < n → block.instructions[k]? = some i →
        (e.charge (e.procedureAt m) bound false p b start (g k)
          (i, e.sourceAt bound ⟨p.id, b, context⟩ k)).result = .ok (g (k + 1))) →
      bound.Bounds (start + (g n).cost) (e.clock actual path start)
  | .element p region context r u, path => Reached e p context → ∀ {m n s progress progress'},
      (e.visit (e.procedureAt m) (e.loopAt (e.procedureAt m) p n) bound false p region context r s
        progress).result = .ok progress' →
      within progress'.ledger →
      ∃ o, progress'.times.get? u = some o ∧
        bound.Bounds o.finish (e.clock actual path s.finish)
  | .body p region context u, path => Reached e p context → ∀ {m n s progress progress'},
      (e.region (e.procedureAt m) (e.loopAt (e.procedureAt m) p n) bound false p region context
        (p.orderOf region) s progress).result = .ok progress' →
      within progress'.ledger →
      ∃ o, progress'.times.get? u = some o ∧
        bound.Bounds o.finish (e.clock actual path s.finish)
  | .procedure q, path => ∀ {m start ledger timing ledger'},
      (e.procedureAt m bound false q start ledger).result = .ok (timing, ledger') →
      within ledger' → bound.Bounds (start + timing.cost) (e.clock actual path start)

/-- The treatment of loops bounds all paths through a loop if the times of its body bound all paths
through a round. -/
def BoundsLoops (e : Engine) (actual bound : Scenario) (within : Ledger → Prop) : Prop :=
  ∀ {p : Procedure} {l : Nat} {loop : Loop} {m n : Nat} {context : Context} {entry : Stamp}
    {progress progress' : Progress} {path : Nat → List Issue} {u : Nat},
    Reached e p context → p.loops[l]? = some loop → 0 < loop.bound →
    (∀ k < actual.rounds loop, Path e.program actual.rounds
      (.body p (some l) (roundContext context k) loop.sink) (path k)) →
    (∀ k < actual.rounds loop, Bounded e actual bound within
      (.body p (some l) (roundContext context k) loop.sink) (path k)) →
    (e.loop (bodyOf e (e.procedureAt m) p n l loop) bound false p l loop context entry
      progress).result = .ok progress' →
    within progress'.ledger → (u = loop.header ∨ u = loop.sink) →
    ∃ o, progress'.times.get? u = some o ∧
      bound.Bounds o.finish
        (e.clock actual ((List.range (actual.rounds loop)).flatMap path) entry.finish)

section Instructions

variable {p : Procedure} {b n : Nat} {context : Context} {path : List Issue}
  {i : Code.Instruction}

/-- What an instruction is charged bounds its fetch. -/
theorem bounds_fetch (hcharges : Charges e actual bound) {start d : Nat} {a : Account}
    {bus : Bus.Tracker}
    (hfetch : (e.fetch bound false (e.sourceAt bound ⟨p.id, b, context⟩ n) (start + a.cost)
      a.bus).result = .ok (d, bus))
    (hbefore : bound.Bounds (start + a.cost) (e.clock actual path start)) :
    bound.Bounds (start + (a.cost + d + e.platform.instrCost bound))
      (e.clock actual (path ++ [⟨⟨p.id, b, context⟩, n, i.address⟩]) start) := by
  have hnext := hcharges.after (i := ⟨⟨p.id, b, context⟩, n, i.address⟩) hbefore
  rw [Engine.after, ← fetch_eq_ok hfetch, Nat.add_assoc, Nat.add_assoc] at hnext
  rw [clock_append, clock_cons, clock_nil, Nat.add_assoc]
  exact hnext

/-- The cost up to the fetch of an instruction bounds a path to there, and a callee comes on top of
it. -/
theorem bounds_issue (hcharges : Charges e actual bound) (hkeeps : Keeps e bound within)
    {block : Code.Block} {m start : Nat} {g : Nat → Account}
    (hcode : Bounded e actual bound within (.code p b context n) path)
    (hblock : p.blocks[b]? = some block) (hi : block.instructions[n]? = some i)
    (hzero : (g 0).cost = 0) (hwithin : within (g (n + 1)).ledger)
    (hsteps : ∀ block, p.blocks[b]? = some block → ∀ k i, k < n + 1 →
      block.instructions[k]? = some i →
      (e.charge (e.procedureAt m) bound false p b start (g k)
        (i, e.sourceAt bound ⟨p.id, b, context⟩ k)).result = .ok (g (k + 1))) :
    ∃ cost, bound.Bounds (start + cost)
        (e.clock actual (path ++ [⟨⟨p.id, b, context⟩, n, i.address⟩]) start) ∧
      match i.callee with
      | none => (g (n + 1)).cost = cost
      | some q => ∃ timing, (e.procedureAt m bound false q (start + cost) (g n).ledger).result =
          .ok (timing, (g (n + 1)).ledger) ∧ (g (n + 1)).cost = cost + timing.cost := by
  have hstep := hsteps block hblock n i (Nat.lt_succ_self n) hi
  have hbefore := hcode hzero (hkeeps.charge hstep hwithin)
    fun block hblock k i hk => hsteps block hblock k i (Nat.lt_succ_of_lt hk)
  obtain ⟨d, hfetch, hcases⟩ := charge_eq_ok hstep
  refine ⟨_, bounds_fetch hcharges hfetch hbefore, ?_⟩
  cases hc : i.callee with
  | none =>
    simp only [hc] at hcases
    exact hcases.1
  | some q =>
    simp only [hc] at hcases
    exact hcases

end Instructions

section Regions

variable {p : Procedure} {region : Option Nat} {context : Context} {m n : Nat} {s : Stamp}
  {progress progress' : Progress}

/-- What is known of a visit in a run of a region is known of the whole run. -/
theorem bounds_of_stage (hkeeps : Keeps e bound within) {first rest : List Nat} {r u : Nat}
    {s₁ : Stamp} {t₁ t₂ : Progress} {path : List Issue}
    (hstage : (sweep e bound false (e.procedureAt m) (e.loopAt (e.procedureAt m) p n) p region
      context).Stage p region s progress progress' first r rest s₁ t₁ t₂)
    (hp : Reached e p context) (hwithin : within progress'.ledger) (hu : p.StandsFor region r u)
    (helement : Bounded e actual bound within (.element p region context r u) path) :
    ∃ o, progress'.times.get? u = some o ∧
      bound.Bounds o.finish (e.clock actual path s₁.finish) := by
  have hwithin₂ : within t₂.ledger :=
    hstage.within (fun t => within t.ledger) (fun _ hv => hkeeps.visit hv) hwithin
  obtain ⟨o, ho, hbounds⟩ := helement hp hstage.visit hwithin₂
  exact ⟨o, (hstage.now u hu).symm.trans ho, hbounds⟩

end Regions

/-- Runs are on the safe side of all paths, if the treatment of loops is. -/
theorem bounded_of_path (hprogram : e.program.Accepted) (hcharges : Charges e actual bound)
    (hkeeps : Keeps e bound within) (hloops : BoundsLoops e actual bound within) {part : Part}
    {path : List Issue} (hpath : Path e.program actual.rounds part path) :
    Bounded e actual bound within part path := by
  induction hpath with
  | start =>
    intro m start g hzero _ _
    simp [hzero]
  | @fetch p b context n path block i _ hblock hi hc ih =>
    intro m start g hzero hwithin hsteps
    obtain ⟨cost, hissue, hcases⟩ :=
      bounds_issue hcharges hkeeps ih hblock hi hzero hwithin hsteps
    simp only [hc] at hcases
    rwa [hcases]
  | @call p b context n path q path' block i _ hblock hi hc _ ih ih' =>
    intro m start g hzero hwithin hsteps
    obtain ⟨cost, hissue, hcases⟩ :=
      bounds_issue hcharges hkeeps ih hblock hi hzero hwithin hsteps
    simp only [hc] at hcases
    obtain ⟨timing, hcall, hcost⟩ := hcases
    rw [hcost, ← Nat.add_assoc, List.append_cons, clock_append]
    exact (ih' hcall hwithin).trans (hissue.map clock_mono)
  | @block p region context b path block hblock hself _ ih =>
    intro hp m n s progress progress' hvisit hwithin
    obtain ⟨stamp, ledger, hrun, rfl⟩ := visit_of_block hself hvisit
    obtain ⟨block', g, hblock', hfirst, hfinish, -, rfl, hsteps⟩ := block_eq_ok hrun
    obtain rfl := Option.some.inj (hblock.symm.trans hblock')
    refine ⟨stamp, Table.get?_insert_self _ _ _, ?_⟩
    rw [hfinish]
    apply ih (m := m) (by rw [hfirst]) (hkeeps.stamps hwithin rfl)
    intro block' hblock' k i _ hi
    obtain rfl := Option.some.inj (hblock.symm.trans hblock')
    exact hsteps k i hi
  | @pass p region context r u l loop hh hne hl hzero hu =>
    intro hp m n s progress progress' hvisit _
    rcases visit_loop hh hne hl hvisit with ⟨-, rfl⟩ | ⟨hpos, -⟩
    · rw [get?_spread, if_pos hu]
      exact ⟨_, rfl, .refl bound _⟩
    · omega
  | @loop p region context r u l loop path hh hne hl hbound hpaths hu ih =>
    intro hp m n s progress progress' hvisit hwithin
    rcases visit_loop hh hne hl hvisit with ⟨hzero, -⟩ | ⟨-, n', hloop⟩
    · omega
    · exact hloops hp hl hbound hpaths ih hloop hwithin hu
  | @enter p region context r u path hhead hpath ih =>
    intro hp m n s progress progress' hregion hwithin
    obtain ⟨first, rest, s₁, t₁, t₂, hstage⟩ :=
      stage_of_region hp.wellFormed (innerStamps_loopAt hp.wellFormed n) hregion
        (List.mem_of_mem_head? hhead)
    obtain ⟨rfl, -⟩ := hstage.start (hstage.first_eq_nil hp.wellFormed hhead)
    exact bounds_of_stage hkeeps hstage hp hwithin
      (hpath.standsFor hp.wellFormed) ih
  | @next p region context u v w path path' hbefore hedge hv hpath ih ih' =>
    intro hp m n s progress progress' hregion hwithin
    obtain ⟨o, ho, hbounds⟩ := ih hp hregion hwithin
    -- the block starts with the most extreme of its predecessors
    obtain ⟨first, rest, s₁, t₁, t₂, hstage, hlast⟩ := stage_of_edge hp.wellFormed
      (innerStamps_loopAt hp.wellFormed n) hregion hedge (hbefore.inside hp.wellFormed) hv
    have hmeet := (Scenario.bounds_iff_not_exceeds.mpr (hlast o ho)).trans hbounds
    obtain ⟨o', ho', hbounds'⟩ := bounds_of_stage hkeeps hstage hp hwithin
      (hpath.standsFor hp.wellFormed) ih'
    rw [clock_append]
    exact ⟨o', ho', hbounds'.trans (hmeet.map clock_mono)⟩
  | @procedure p q u path hq hu _ ih =>
    intro m start ledger timing ledger' hcall hwithin
    cases m with
    | zero => cases hcall
    | succ m =>
      obtain ⟨p', progress, hq', hregion, hexit, hfinish, hsummaries⟩ := procedureAt_eq_ok hcall
      obtain rfl := Option.some.inj (hq.symm.trans hq')
      have hp : Reached e p .root :=
        ⟨by rwa [hprogram.id_eq hq], hprogram.wellFormed hq, fun _ => rfl⟩
      obtain ⟨o, ho, hbounds⟩ := ih hp hregion (hkeeps.stamps hwithin hsummaries)
      rw [hfinish]
      exact (Scenario.bounds_iff_not_exceeds.mpr ((exitTime_eq_ok hexit).2 u o hu ho)).trans hbounds

/-! ### Loops -/

/-- A loop is followed as often as its paths go round. -/
theorem iterations_eq_ok {scenario : Scenario} {loop : Loop} {n : Nat}
    (h : iterations scenario loop = .ok n) : n = scenario.rounds loop := by
  unfold iterations at h
  unfold Scenario.rounds
  split at h
  · rename_i hmore
    rw [if_pos hmore]
    exact (Word.add_eq_ok_iff.mp h).2
  · rename_i hnot
    rw [if_neg hnot]
    exact (Except.ok.inj h).symm

/-- Times between the rounds of a loop that bound every single round bound all rounds. The bound may
be for more rounds at worst, and for less at best. -/
theorem bounds_rounds {path : Nat → List Issue} {a b : Nat} (z : Nat → Nat)
    (hrounds : bound.Bounds b a) (hmono : ∀ k < b, z k ≤ z (k + 1))
    (hstep : ∀ k, k < a → k < b → bound.Bounds (z (k + 1)) (e.clock actual (path k) (z k))) :
    bound.Bounds (z b) (e.clock actual ((List.range a).flatMap path) (z 0)) := by
  -- the rounds that both have
  have hboth : ∀ k, k ≤ a → k ≤ b →
      bound.Bounds (z k) (e.clock actual ((List.range k).flatMap path) (z 0)) := by
    intro k
    induction k with
    | zero => simp
    | succ k ih =>
      intro ha hb
      have hbefore := ih (Nat.le_of_succ_le ha) (Nat.le_of_succ_le hb)
      rw [List.range_succ, List.flatMap_append, clock_append, List.flatMap_singleton]
      exact (hstep k ha hb).trans (hbefore.map clock_mono)
  cases bound with
  | best =>
    -- further rounds of the path only take longer
    obtain ⟨c, rfl⟩ := Nat.exists_eq_add_of_le hrounds
    have hall := hboth b (Nat.le_add_right b c) (Nat.le_refl b)
    rw [List.range_add, List.flatMap_append, clock_append]
    exact hall.trans le_clock
  | worst =>
    -- further rounds of the bound only end later
    have hlater : ∀ k ≤ b, a ≤ k → z a ≤ z k := by
      intro k hk hak
      induction k, hak using Nat.le_induction with
      | base => exact Nat.le_refl _
      | succ k _ ih => exact Nat.le_trans (ih (Nat.le_of_succ_le hk)) (hmono k hk)
    exact Scenario.Bounds.trans (hlater b (Nat.le_refl b) hrounds)
      (hboth a (Nat.le_refl a) hrounds)

/-- The body of a loop as a region. -/
theorem bounded_bodyOf {p : Procedure} {l m n u : Nat} {loop : Loop} {context : Context}
    {path : List Issue} {s : Stamp} {progress progress' : Progress}
    (hbody : Bounded e actual bound within (.body p (some l) context u) path)
    (hp : Reached e p context) (hl : p.loops[l]? = some loop)
    (h : (bodyOf e (e.procedureAt m) p n l loop bound false context s progress).result =
      .ok progress')
    (hwithin : within progress'.ledger) :
    ∃ o, progress'.times.get? u = some o ∧
      bound.Bounds o.finish (e.clock actual path s.finish) := by
  rw [bodyOf, ← Procedure.orderOf_loop hl] at h
  exact hbody hp h hwithin

/-- Unrolled loops bound all paths. -/
theorem boundsLoops_unroll (hloops : e.platform.loops = .unroll)
    (hcharges : Charges e actual bound) : BoundsLoops e actual bound fun _ => True := by
  intro p l loop m n context entry progress progress' path u hp hl hbound _ hbody hloop _ hu
  simp only [Engine.loop, hloops] at hloop
  obtain ⟨k, g, hg⟩ := unroll_eq_ok hbound hloop
  obtain rfl := iterations_eq_ok hg.count
  obtain ⟨o, ho, hfinish⟩ := hg.exit_stamp hu
  refine ⟨o, ho, ?_⟩
  rw [hfinish, ← hg.start_finish]
  refine bounds_rounds (fun k => (g k).1.finish) (hcharges.rounds loop) hg.le fun k ha hb => ?_
  have hround := hp.round (by simp [hloops]) k
  obtain ⟨o', ho', hround⟩ := bounded_bodyOf (hbody k ha) hround hl (hg.runs k hb) trivial
  obtain rfl := Option.some.inj (ho'.symm.trans (hg.sink k hb))
  exact hround

end CycleBounds.Bound.Engine
