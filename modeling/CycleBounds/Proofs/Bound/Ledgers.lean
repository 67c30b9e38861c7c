import CycleBounds.Proofs.Bound.Rounds
import Mathlib.Data.List.Fold
import Mathlib.Data.List.MinMax

/-!
# Summaries in ledgers

A loop is summarised once per place, and what has been recorded about it is used from then on. So
the summaries that a run finds are still there when it ends (`Ledger.Within`), and all of them are
costs of rounds in relative runs (`AllPriced`).

* `region_rel`: what calls and inner loops do to the summaries, bodies do.
* `get?_summary`: the costs of rounds are those that are recorded.
* `procedureAt_rel`: what adding a summary does, all of a run does.
-/

namespace CycleBounds.Bound

/-- A relation between ledgers that depends on their summaries only. -/
structure OfSummaries (R : Ledger → Ledger → Prop) : Prop where
  of_eq : ∀ {ledger ledger'}, ledger'.summaries = ledger.summaries → R ledger ledger'
  trans : ∀ {a b c}, R a b → R b c → R a c

def Ledger.Within (ledger final : Ledger) : Prop :=
  ∀ place costs, ledger.summaries.get? place = some costs → final.summaries.get? place = some costs

theorem ofSummaries_within : OfSummaries Ledger.Within where
  of_eq heq place costs h := by rwa [heq]
  trans h₁ h₂ place costs h := h₂ place costs (h₁ place costs h)

namespace Engine

open Code (Procedure Loop Instruction)
open Cache (Place)

variable {e : Engine} {scenario : Scenario} {relative : Bool} {call : Call} {inner : Inner}
  {p : Procedure} {b l n start : Nat} {loop : Loop} {body : Body} {context : Context} {s : Stamp}
  {ledger ledger' : Ledger} {progress progress' : Progress}

/-! ### Bodies -/

section Parts

variable {R : Ledger → Ledger → Prop}

/-- What calls relate, charging an instruction relates. -/
theorem charge_rel (hR : OfSummaries R)
    (hcall : ∀ {q start ledger timing ledger'},
      (call scenario relative q start ledger).result = .ok (timing, ledger') → R ledger ledger')
    {a a' : Account} {i : Instruction × Source}
    (h : (e.charge call scenario relative p b start a i).result = .ok a') :
    R a.ledger a'.ledger := by
  obtain ⟨d, -, hcases⟩ := charge_eq_ok h
  cases hc : i.1.callee with
  | none =>
    rw [hc] at hcases
    exact hR.of_eq (by rw [hcases.2])
  | some q =>
    rw [hc] at hcases
    obtain ⟨timing, hrun, -⟩ := hcases
    exact hcall hrun

/-- What calls relate, the timing of a block relates. -/
theorem block_rel (hR : OfSummaries R)
    (hcall : ∀ {q start ledger timing ledger'},
      (call scenario relative q start ledger).result = .ok (timing, ledger') → R ledger ledger')
    {bus : Bus.Tracker}
    (h : (e.block call scenario relative p b context start bus ledger).result =
      .ok (s, ledger')) : R ledger ledger' := by
  obtain ⟨blk, g, -, hfirst, -, -, rfl, hstep⟩ := block_eq_ok h
  have hall : ∀ n ≤ blk.instructions.length, R (g 0).ledger (g n).ledger := by
    intro n hn
    induction n with
    | zero => exact hR.of_eq rfl
    | succ n ih =>
      have hcharge := charge_rel hR hcall (hstep n _ (List.getElem?_eq_getElem hn))
      exact hR.trans (ih (Nat.le_of_succ_le hn)) hcharge
  have hlast := hall _ (Nat.le_refl _)
  rwa [hfirst] at hlast

theorem summaries_stamp {procedure block : Nat} :
    (progress.stamp relative procedure block s).ledger.summaries = progress.ledger.summaries := by
  cases relative <;> rfl

theorem visit_rel (hR : OfSummaries R)
    (hcall : ∀ {q start ledger timing ledger'},
      (call scenario relative q start ledger).result = .ok (timing, ledger') → R ledger ledger')
    (hinner : ∀ {l context s progress progress'},
      (inner scenario relative l context s progress).result = .ok progress' →
      R progress.ledger progress'.ledger) {current : Option Nat}
    (h : (e.visit call inner scenario relative p current context b s progress).result =
      .ok progress') : R progress.ledger progress'.ledger := by
  rcases visit_eq_ok h with ⟨l, -, -, hl⟩ | ⟨-, stamp, ledger, hblock, rfl⟩
  · exact hinner hl
  · exact hR.trans (block_rel hR hcall hblock) (hR.of_eq summaries_stamp)

/-- What calls and inner loops relate, the timing of a body relates. -/
theorem region_rel (hR : OfSummaries R)
    (hcall : ∀ {q start ledger timing ledger'},
      (call scenario relative q start ledger).result = .ok (timing, ledger') → R ledger ledger')
    (hinner : ∀ {l context s progress progress'},
      (inner scenario relative l context s progress).result = .ok progress' →
      R progress.ledger progress'.ledger) {current : Option Nat} {order : List Nat}
    (h : (e.region call inner scenario relative p current context order s progress).result =
      .ok progress') : R progress.ledger progress'.ledger := by
  cases order with
  | nil =>
    obtain rfl := Except.ok.inj h
    exact hR.of_eq rfl
  | cons b rest =>
    simp only [region, Traced.result_bind, Traced.result_foldlM, Traced.result_liftM_except] at h
    obtain ⟨progress₁, hfirst, h⟩ := bind_eq_ok.mp h
    -- the first block is visited with the start, the others with what precedes them
    refine hR.trans (visit_rel hR hcall hinner hfirst) ?_
    refine foldlM_rel (R := fun t u : Progress => R t.ledger u.ledger) (fun _ => hR.of_eq rfl)
      hR.trans ?_ h
    intro b _ t u hstep
    obtain ⟨before, -, hvisit⟩ := bind_eq_ok.mp hstep
    exact visit_rel hR hcall hinner hvisit

end Parts

/-! ### Loops -/

theorem summaries_spread {finish : Nat} :
    (spread relative p loop start finish progress).ledger.summaries =
      progress.ledger.summaries := by
  unfold spread
  induction loop.blocks generalizing progress with
  | nil => rfl
  | cons b blocks ih => rw [List.foldl_cons, ih, summaries_stamp]

/-! The latest finish of some stamps. -/

theorem le_latest {times : Table Nat Stamp} {o : Stamp} (h : times.get? b = some o) :
    o.finish ≤ (times.values.map (·.finish)).foldl max 0 := by
  rw [List.foldl_eq_foldr]
  exact List.le_max_of_le' 0 (List.mem_map_of_mem (Table.mem_values_iff.mpr ⟨b, h⟩)) (Nat.le_refl _)

theorem latest_le {times : Table Nat Stamp} {t : Nat}
    (h : ∀ b o, times.get? b = some o → o.finish ≤ t) :
    (times.values.map (·.finish)).foldl max 0 ≤ t := by
  apply List.foldlRecOn (motive := (· ≤ t)) _ _ (Nat.zero_le t)
  intro m hm x hx
  obtain ⟨o, ho, rfl⟩ := List.mem_map.mp hx
  obtain ⟨b, hb⟩ := Table.mem_values_iff.mp ho
  exact Nat.max_le.mpr ⟨hm, h b o hb⟩

/-- The cost of an iteration is found in a run from zero: at worst it ends with the last of all
blocks, at best with the sink of the loop. -/
theorem relativeCost_eq_ok {cost : Nat}
    (h : (relativeCost body scenario loop context ledger).result = .ok (cost, ledger')) :
    ∃ progress, (body scenario true context (.moment 0) ⟨∅, ledger⟩).result = .ok progress ∧
      ledger' = progress.ledger ∧
      match scenario with
      | .worst => cost = (progress.times.values.map (·.finish)).foldl max 0
      | .best => ∃ o, progress.times.get? loop.sink = some o ∧ o.finish = cost := by
  simp only [relativeCost, Traced.result_bind] at h
  obtain ⟨progress, hrun, h⟩ := bind_eq_ok.mp h
  refine ⟨progress, hrun, ?_⟩
  cases scenario with
  | worst =>
    obtain ⟨rfl, rfl⟩ := Prod.mk.inj (Except.ok.inj h)
    exact ⟨rfl, rfl⟩
  | best =>
    simp only [Traced.result_bind, Traced.result_liftM_except] at h
    obtain ⟨o, ho, h⟩ := bind_eq_ok.mp h
    obtain ⟨rfl, rfl⟩ := Prod.mk.inj (Except.ok.inj h)
    exact ⟨rfl, o, stampOf_eq_ok.mp (mapError_eq_ok.mp ho), rfl⟩

/-- The costs of a first and of a steady iteration are found in the ledger, or computed. -/
theorem summary_cases {costs : Nat × Nat}
    (h : (summary body scenario p loop context ledger).result = .ok (costs, ledger')) :
    let place : Place := ⟨p.id, loop.header, context⟩
    (ledger.summaries.get? place = some costs ∧ ledger' = ledger) ∨
      ledger.summaries.get? place = none ∧ ∃ ledger₁ ledger₂,
        (relativeCost body scenario loop (context.nest .first) ledger).result =
          .ok (costs.1, ledger₁) ∧
        (relativeCost body scenario loop (context.nest .steady) ledger₁).result =
          .ok (costs.2, ledger₂) ∧
        ledger' = { ledger₂ with summaries := ledger₂.summaries.insert place costs } := by
  intro place
  simp only [summary] at h
  cases hget : ledger.summaries.get? place with
  | some known =>
    rw [hget] at h
    obtain ⟨rfl, rfl⟩ := Prod.mk.inj (Except.ok.inj h)
    exact .inl ⟨rfl, rfl⟩
  | none =>
    rw [hget] at h
    simp only [Traced.result_bind, Traced.result_liftM_except] at h
    obtain ⟨context₁, henter₁, h⟩ := bind_eq_ok.mp h
    obtain ⟨⟨first, ledger₁⟩, hfirst, h⟩ := bind_eq_ok.mp h
    obtain ⟨context₂, henter₂, h⟩ := bind_eq_ok.mp h
    obtain ⟨⟨steady, ledger₂⟩, hsteady, h⟩ := bind_eq_ok.mp h
    rw [mapError_eq_ok] at henter₁ henter₂
    rw [Context.enter_eq_ok henter₁] at hfirst
    rw [Context.enter_eq_ok henter₂] at hsteady
    obtain ⟨rfl, rfl⟩ := Prod.mk.inj (Except.ok.inj h)
    exact .inr ⟨rfl, ledger₁, ledger₂, hfirst, hsteady, rfl⟩

/-- The costs of iterations are those that are recorded from then on. -/
theorem get?_summary {costs : Nat × Nat}
    (h : (summary body scenario p loop context ledger).result = .ok (costs, ledger')) :
    ledger'.summaries.get? ⟨p.id, loop.header, context⟩ = some costs := by
  rcases summary_cases h with ⟨hget, rfl⟩ | ⟨-, ledger₁, ledger₂, -, -, rfl⟩
  · exact hget
  · exact Table.get?_insert_self _ _ _

/-- A relation still holds if a summary is added that procedures of some kind have. -/
def Records (e : Engine) (scenario : Scenario) (kind : Procedure → Prop)
    (R : Ledger → Ledger → Prop) : Prop :=
  ∀ {m n p l loop context ledger ledger₁ ledger₂ costs}, kind p → p.loops[l]? = some loop →
    ledger.summaries.get? ⟨p.id, loop.header, context⟩ = none →
    (relativeCost (bodyOf e (e.procedureAt m) p n l loop) scenario loop (context.nest .first)
      ledger).result = .ok (costs.1, ledger₁) →
    (relativeCost (bodyOf e (e.procedureAt m) p n l loop) scenario loop (context.nest .steady)
      ledger₁).result = .ok (costs.2, ledger₂) →
    R ledger ledger₂ → R ledger { ledger₂ with
      summaries := ledger₂.summaries.insert ⟨p.id, loop.header, context⟩ costs }

section Runs

variable {R : Ledger → Ledger → Prop} {kind : Procedure → Prop} {m : Nat}

/-- A summary relates ledgers if its two rounds do, and its own entry may be added. -/
theorem summary_rel (hR : OfSummaries R) (hrecords : Records e scenario kind R) (hp : kind p)
    (hl : p.loops[l]? = some loop)
    (hbody : ∀ {context s progress progress'},
      (bodyOf e (e.procedureAt m) p n l loop scenario true context s progress).result =
        .ok progress' → R progress.ledger progress'.ledger) {costs : Nat × Nat}
    (h : (summary (bodyOf e (e.procedureAt m) p n l loop) scenario p loop context ledger).result =
      .ok (costs, ledger')) : R ledger ledger' := by
  rcases summary_cases h with ⟨-, rfl⟩ | ⟨hnone, ledger₁, ledger₂, hfirst, hsteady, rfl⟩
  · exact hR.of_eq rfl
  · apply hrecords hp hl hnone hfirst hsteady
    obtain ⟨progress₁, hrun₁, rfl, -⟩ := relativeCost_eq_ok hfirst
    obtain ⟨progress₂, hrun₂, rfl, -⟩ := relativeCost_eq_ok hsteady
    have hafter := hbody hrun₁
    have hafter' := hbody hrun₂
    exact hR.trans hafter hafter'

/-- What calls do to the summaries, loops do. -/
theorem loopAt_rel (hloops : e.platform.loops = .summarize) (hR : OfSummaries R)
    (hrecords : Records e scenario kind R) (hp : kind p)
    (hcall : ∀ {relative q start ledger timing ledger'},
      (e.procedureAt m scenario relative q start ledger).result = .ok (timing, ledger') →
      R ledger ledger')
    (h : (e.loopAt (e.procedureAt m) p n scenario relative l context s progress).result =
      .ok progress') : R progress.ledger progress'.ledger := by
  induction n generalizing relative l context s progress progress' with
  | zero => cases h
  | succ n ih =>
    obtain ⟨loop, hl, ⟨-, rfl⟩ | ⟨-, hloop⟩⟩ := loopAt_eq_ok h
    · exact hR.of_eq summaries_spread
    · simp only [Engine.loop, hloops] at hloop
      obtain ⟨costs, ledger, k, cost, hsummary, -, -, rfl⟩ := summarize_eq_ok hloop
      -- only the bodies that are run for the summary may change the ledger
      have hafter : R progress.ledger ledger := by
        apply summary_rel hR hrecords hp hl _ hsummary
        intro context s progress progress' hrun
        exact region_rel hR hcall ih hrun
      exact hR.trans hafter (hR.of_eq summaries_spread)

/-- What adding a summary does, calls do. -/
theorem procedureAt_rel (hloops : e.platform.loops = .summarize) (hR : OfSummaries R)
    (hrecords : Records e scenario kind R)
    (hkind : ∀ {q : Nat} {p}, e.program.procedures[q]? = some p → kind p) {q : Nat}
    {timing : Timing}
    (h : (e.procedureAt n scenario relative q start ledger).result = .ok (timing, ledger')) :
    R ledger ledger' := by
  induction n generalizing relative q start ledger timing ledger' with
  | zero => cases h
  | succ n ih =>
    obtain ⟨p, progress, hq, hregion, -, -, hsummaries⟩ := procedureAt_eq_ok h
    refine hR.trans ?_ (hR.of_eq hsummaries)
    exact region_rel hR ih (fun hrun => loopAt_rel hloops hR hrecords (hkind hq) ih hrun) hregion

end Runs

/-! ### Kept summaries -/

theorem records_within (e : Engine) (scenario : Scenario) (kind : Procedure → Prop) :
    Records e scenario kind Ledger.Within := by
  intro m n p l loop context ledger ledger₁ ledger₂ costs _ _ hnone _ _ hbefore place known hget
  have hne : place ≠ ⟨p.id, loop.header, context⟩ := by
    rintro rfl
    rw [hnone] at hget
    cases hget
  exact (Table.get?_insert_of_ne _ hne _).trans (hbefore place known hget)

/-- Calls keep the summaries. -/
theorem procedureAt_within (hloops : e.platform.loops = .summarize) {q : Nat} {timing : Timing}
    (h : (e.procedureAt n scenario relative q start ledger).result = .ok (timing, ledger')) :
    ledger.Within ledger' :=
  procedureAt_rel hloops ofSummaries_within (records_within e scenario fun _ => True)
    (fun _ => trivial) h

/-- Loops keep the summaries. -/
theorem loopAt_within (hloops : e.platform.loops = .summarize) {m : Nat}
    (h : (e.loopAt (e.procedureAt m) p n scenario relative l context s progress).result =
      .ok progress') : progress.ledger.Within progress'.ledger :=
  loopAt_rel hloops ofSummaries_within (records_within e scenario fun _ => True) trivial
    (procedureAt_within hloops) h

/-! ### Where summaries come from -/

/-- The cost of a round is what it takes in a relative run. -/
def Priced (e : Engine) (scenario : Scenario) (p : Procedure) (l : Nat) (loop : Loop)
    (context : Context) (cost : Nat) : Prop :=
  ∃ m n ledger ledger', (relativeCost (bodyOf e (e.procedureAt m) p n l loop) scenario loop context
    ledger).result = .ok (cost, ledger')

/-- All summaries of a ledger have the costs of rounds of loops of the program. -/
def AllPriced (e : Engine) (scenario : Scenario) (ledger : Ledger) : Prop :=
  ∀ place costs, ledger.summaries.get? place = some costs → ∃ p l loop,
    e.program.procedures[p.id]? = some p ∧ p.loops[l]? = some loop ∧
    p.id = place.procedure ∧ loop.header = place.block ∧
    Priced e scenario p l loop (place.context.nest .first) costs.1 ∧
    Priced e scenario p l loop (place.context.nest .steady) costs.2

theorem allPriced_empty : AllPriced e scenario .empty :=
  nofun

theorem ofSummaries_allPriced :
    OfSummaries fun ledger ledger' =>
      AllPriced e scenario ledger → AllPriced e scenario ledger' where
  of_eq heq h place costs hget := h place costs (by rwa [← heq])
  trans h₁ h₂ h := h₂ (h₁ h)

theorem records_allPriced :
    Records e scenario (fun p => e.program.procedures[p.id]? = some p)
      fun ledger ledger' => AllPriced e scenario ledger → AllPriced e scenario ledger' := by
  intro m n p l loop context ledger ledger₁ ledger₂ costs hp hl _ hfirst hsteady hbefore hall place
    known hget
  by_cases heq : place = ⟨p.id, loop.header, context⟩
  · subst heq
    obtain rfl := Option.some.inj ((Table.get?_insert_self _ _ _).symm.trans hget)
    exact ⟨p, l, loop, hp, hl, rfl, rfl, ⟨m, n, _, _, hfirst⟩, ⟨m, n, _, _, hsteady⟩⟩
  · exact hbefore hall place known ((Table.get?_insert_of_ne _ heq _).symm.trans hget)

end Engine

end CycleBounds.Bound
