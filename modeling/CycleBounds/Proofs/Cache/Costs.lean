import CycleBounds.Proofs.Cache.Findings
import CycleBounds.Word
import Mathlib.Algebra.Order.BigOperators.Group.List
import Mathlib.Algebra.Order.Ring.Nat
import Mathlib.Data.List.Forall2

/-!
# Costs of records

A record adds up the latencies that the classes of its fetches leave open. Here these are plain sums
over the fetches (`Record.cost`), and a list of fetches has a record exactly if both of its sums
are in range (`Record.ofFetches_eq_ok_iff`).

Weaker classes cost more at worst if a hit is not dearer than a miss (`Record.cost_worst_le`), and
less at best if the level above serves the same fetches as well (`Record.cost_best_le`). Whatever
the latencies are, a list of fetches has a record if a weaker one has (`Record.Fits.of_weaker`).
-/

namespace CycleBounds

def Scenario.side : Scenario → Bool × Bool → Bool
  | .best, o => o.1
  | .worst, o => o.2

/-- A checked sum is the sum, provided that it fits. -/
theorem Word.foldlM_add {m : Nat} (hm : m < limit) (ns : List Nat) :
    ns.foldlM add m = fit (m + ns.sum) := by
  induction ns generalizing m with
  | nil => simp [fit, hm, pure, Except.pure]
  | cons n ns ih =>
    rw [List.foldlM_cons, List.sum_cons, ← Nat.add_assoc]
    by_cases hn : m + n < limit
    · rw [show add m n = .ok (m + n) from add_eq_ok_iff.mpr ⟨hn, rfl⟩]
      exact ih hn
    · -- once a sum is out of range, so is every later one
      have hlater : ¬ m + n + ns.sum < limit := by omega
      simp [add, fit, hn, hlater, bind, Except.bind]

theorem Word.sum_eq_fit (ns : List Nat) : sum ns = fit ns.sum := by
  rw [sum, foldlM_add (by decide), Nat.zero_add]

namespace Cache

variable {c : Config} {context : Context} {scenario : Scenario} {fs gs : List Fetch}

/-! ### Classes -/

namespace Access

variable {a b : Access}

/-- The latency of a fetch at its level; one that the level above serves has none. -/
def cost (c : Config) (context : Context) (scenario : Scenario) (a : Access) : Nat :=
  ((a.outcomes? context).map fun o => Record.latency c (scenario.side o)).getD 0

/-- No fetch costs more than a hit or a miss. -/
theorem cost_le (a : Access) : a.cost c context scenario ≤ max c.hitLatency c.missLatency := by
  unfold cost
  cases a.outcomes? context with
  | none => exact Nat.zero_le _
  | some o =>
    show Record.latency c (scenario.side o) ≤ _
    unfold Record.latency
    split
    · exact Nat.le_max_left _ _
    · exact Nat.le_max_right _ _

/-- Classes that weaken each other are the same. -/
theorem Weakens.antisymm (hab : a.Weakens b) (hba : b.Weakens a) : a = b := by
  cases hab with
  | refl => rfl
  | older hle =>
    cases hba with
    | refl => rfl
    | older hge => rw [Nat.le_antisymm hle hge]
  | persistent => cases hba
  | unknown =>
    cases hba with
    | refl => rfl
    | unknown => rfl

/-- The join is the strongest class that covers both. -/
theorem Weakens.join_weakens {d : Access} (ha : a.Weakens d) (hb : b.Weakens d) :
    (a.join b).Weakens d := by
  -- the classes above `a`, and for each of them what `b` can be to stay below it
  cases ha with
  | unknown => exact .unknown _
  | refl =>
    cases hb with
    | refl => cases a <;> simp [join, Weakens.refl]
    | older hle =>
      simp only [join, Nat.max_eq_left hle]
      exact .refl _
    | persistent => exact .refl _
    | unknown => exact .unknown _
  | older hle =>
    cases hb with
    | refl =>
      simp only [join, Nat.max_eq_right hle]
      exact .refl _
    | older hle' => exact .older (Nat.max_le.mpr ⟨hle, hle'⟩)
  | persistent =>
    cases hb with
    | refl => exact .refl _
    | persistent => exact .persistent _

/-- A weaker class leaves the same outcomes open, between a hit at best and a miss at worst. -/
theorem Weakens.outcomes (h : a.Weakens b) {o : Bool × Bool} (ha : a.outcomes? context = some o)
    (scenario : Scenario) :
    ∃ o', b.outcomes? context = some o' ∧ o'.2 ≤ scenario.side o ∧ scenario.side o ≤ o'.1 := by
  cases h with
  | refl =>
    refine ⟨o, ha, ?_⟩
    cases a <;> cases ha <;> cases scenario <;> simp [Scenario.side]
  | older => cases ha; cases scenario <;> exact ⟨_, rfl, Bool.le_refl _, Bool.le_refl _⟩
  | persistent => cases ha; cases scenario <;> exact ⟨_, rfl, Bool.le_true _, Bool.le_refl _⟩
  | unknown => exact ⟨_, rfl, Bool.false_le _, Bool.le_true _⟩

theorem cost_of_outcomes {o : Bool × Bool} (ha : a.outcomes? context = some o) :
    a.cost c context scenario = Record.latency c (scenario.side o) := by
  rw [cost, ha]
  rfl

theorem outcomes?_eq_none_iff : a.outcomes? context = none ↔ a = .hitUpper := by
  cases a <;> simp [outcomes?]

end Access

theorem Record.latency_antitone (hle : c.hitLatency ≤ c.missLatency) {x y : Bool} (h : x ≤ y) :
    latency c y ≤ latency c x := by
  cases x with
  | true => rw [h rfl]
  | false =>
    cases y with
    | true => exact hle
    | false => exact Nat.le_refl _

theorem Record.latency_monotone (hle : c.missLatency ≤ c.hitLatency) {x y : Bool} (h : x ≤ y) :
    latency c x ≤ latency c y := by
  cases x with
  | true => rw [h rfl]
  | false =>
    cases y with
    | true => exact hle
    | false => exact Nat.le_refl _

/-- The scenario in which fetches cost most. -/
def Config.dear (c : Config) : Scenario :=
  if c.hitLatency ≤ c.missLatency then .worst else .best

namespace Access

variable {a b : Access}

/-- A weaker class costs at least as much in the dearer scenario. -/
theorem Weakens.cost_le_dear (h : a.Weakens b) :
    a.cost c context scenario ≤ b.cost c context c.dear := by
  cases ha : a.outcomes? context with
  | none =>
    rw [cost, ha]
    exact Nat.zero_le _
  | some o =>
    obtain ⟨o', hb, hworst, hbest⟩ := h.outcomes ha scenario
    rw [cost_of_outcomes ha, cost_of_outcomes hb]
    unfold Config.dear
    split
    · rename_i hle
      exact Record.latency_antitone hle hworst
    · rename_i hlt
      exact Record.latency_monotone (Nat.le_of_not_le hlt) hbest

/-- Fetches that reach the level in both classes cost less at best in the weaker one. -/
theorem Weakens.cost_best_le (h : a.Weakens b) (hupper : a = .hitUpper ↔ b = .hitUpper)
    (hle : c.hitLatency ≤ c.missLatency) : b.cost c context .best ≤ a.cost c context .best := by
  cases ha : a.outcomes? context with
  | none =>
    obtain rfl := outcomes?_eq_none_iff.mp ha
    rw [hupper.mp rfl]
  | some o =>
    obtain ⟨o', hb, -, hbest⟩ := h.outcomes ha .best
    rw [cost_of_outcomes ha, cost_of_outcomes hb]
    exact Record.latency_antitone hle hbest

end Access

/-! ### Lists of fetches -/

/-- The second fetch is the first one with the same class or a weaker one. -/
structure Fetch.Weakens (f g : Fetch) : Prop where
  line : f.line = g.line
  access : f.access.Weakens g.access

theorem Fetch.Weakens.trans {f g h : Fetch} (h₁ : f.Weakens g) (h₂ : g.Weakens h) : f.Weakens h :=
  ⟨h₁.line.trans h₂.line, h₁.access.trans h₂.access⟩

theorem Fetch.Weakens.antisymm {f g : Fetch} (h : f.Weakens g) (h' : g.Weakens f) : f = g := by
  obtain ⟨line, a⟩ := f
  obtain ⟨line', b⟩ := g
  obtain rfl : line = line' := h.line
  rw [show a = b from h.access.antisymm h'.access]

/-- The second list has the same fetches, of the same classes or weaker ones. -/
def Weaker (fs gs : List Fetch) : Prop :=
  List.Forall₂ Fetch.Weakens fs gs

namespace Weaker

variable {hs : List Fetch}

theorem refl (fs : List Fetch) : Weaker fs fs :=
  List.forall₂_same.mpr fun _ _ => ⟨rfl, .refl _⟩

theorem trans (h₁ : Weaker fs gs) (h₂ : Weaker gs hs) : Weaker fs hs := by
  induction h₁ generalizing hs with
  | nil => exact h₂
  | cons hfg _ ih =>
    cases h₂ with
    | cons hgh hrest => exact .cons (hfg.trans hgh) (ih hrest)

theorem antisymm (h : Weaker fs gs) (h' : Weaker gs fs) : fs = gs := by
  induction h with
  | nil => rfl
  | cons hfg _ ih =>
    cases h' with
    | cons hgf hrest => rw [hfg.antisymm hgf, ih hrest]

end Weaker

/-- The lines of fetches, and whether the level above serves them. -/
def outline (fetches : List Fetch) : List (Nat × Bool) :=
  fetches.map fun f => (f.line, f.access = .hitUpper)

theorem outline_cons_eq {f g : Fetch} (h : outline (f :: fs) = outline (g :: gs)) :
    f.line = g.line ∧ (f.access = .hitUpper ↔ g.access = .hitUpper) ∧ outline fs = outline gs := by
  obtain ⟨hhead, htail⟩ := List.cons_eq_cons.mp h
  exact ⟨congrArg Prod.fst hhead, decide_eq_decide.mp (congrArg Prod.snd hhead), htail⟩

theorem length_eq_of_outline (h : outline fs = outline gs) : fs.length = gs.length := by
  simpa [outline] using congrArg List.length h

namespace Record

/-- The latency of all fetches that reach the level. -/
def cost (c : Config) (context : Context) (scenario : Scenario) (fetches : List Fetch) : Nat :=
  (fetches.map fun f => f.access.cost c context scenario).sum

/-- The latencies that a record sums up are the costs of its fetches. -/
theorem sum_latencies (fetches : List Fetch) :
    (latencies c context scenario.side fetches).sum = cost c context scenario fetches := by
  induction fetches with
  | nil => rfl
  | cons f fetches ih =>
    have hcost : cost c context scenario (f :: fetches) =
        f.access.cost c context scenario + cost c context scenario fetches := List.sum_cons
    rw [hcost, ← ih, Access.cost]
    unfold latencies
    rw [List.filterMap_cons]
    cases f.access.outcomes? context with
    | none => exact (Nat.zero_add _).symm
    | some o => exact List.sum_cons

theorem cost_le (fetches : List Fetch) : cost c context scenario fetches ≤
    fetches.length * max c.hitLatency c.missLatency := by
  unfold cost
  have h := List.sum_le_card_nsmul (fetches.map fun f => f.access.cost c context scenario)
    (max c.hitLatency c.missLatency) (by
      intro n hn
      obtain ⟨f, -, rfl⟩ := List.mem_map.mp hn
      exact f.access.cost_le)
  rw [List.length_map] at h
  exact h

def Fits (c : Config) (context : Context) (fetches : List Fetch) : Prop :=
  ∀ scenario, cost c context scenario fetches < Word.limit

theorem fits_of_short {fetches : List Fetch}
    (h : fetches.length * max c.hitLatency c.missLatency < Word.limit) :
    Fits c context fetches :=
  fun _ => Nat.lt_of_le_of_lt (cost_le fetches) h

/-- The record of a list of fetches, whether or not its costs are in range. -/
def counted (c : Config) (context : Context) (fetches : List Fetch) : Record where
  fetches := fetches
  hits := fetches.countP (·.access.isHit)
  misses := fetches.countP (·.access = .alwaysMiss)
  unknowns := fetches.countP fun f => f.access = .firstMiss ∨ f.access = .unknown
  bcost := cost c context .best fetches
  wcost := cost c context .worst fetches

/-- Every fetch is counted once, as a hit, as a miss or as unknown. -/
theorem counts_sum (c : Config) (context : Context) (fetches : List Fetch) :
    (counted c context fetches).hits + (counted c context fetches).misses +
      (counted c context fetches).unknowns = fetches.length := by
  unfold counted
  induction fetches with
  | nil => rfl
  | cons f fetches ih =>
    -- a fetch is counted once
    have hf : (if f.access.isHit = true then 1 else 0) +
        (if decide (f.access = .alwaysMiss) = true then 1 else 0) +
        (if decide (f.access = .firstMiss ∨ f.access = .unknown) = true then 1 else 0) = 1 := by
      cases f.access <;> rfl
    simp only [List.countP_cons, List.length_cons] at ih ⊢
    omega

theorem ofFetches_eq (fetches : List Fetch) : ofFetches c context fetches = (do
    let bcost ← Word.fit (cost c context .best fetches)
    let wcost ← Word.fit (cost c context .worst fetches)
    return { counted c context fetches with bcost, wcost }) := by
  rw [← sum_latencies, ← sum_latencies, ← Word.sum_eq_fit, ← Word.sum_eq_fit]
  rfl

/-- A list of fetches has a record just if both of its costs are in range. -/
theorem ofFetches_eq_ok_iff {fetches : List Fetch} {r : Record} :
    ofFetches c context fetches = .ok r ↔
      Fits c context fetches ∧ counted c context fetches = r := by
  rw [ofFetches_eq]
  constructor
  · intro h
    obtain ⟨bcost, hb, h⟩ := bind_eq_ok.mp h
    obtain ⟨wcost, hw, h⟩ := bind_eq_ok.mp h
    obtain ⟨hbest, rfl⟩ := Word.fit_eq_ok_iff.mp hb
    obtain ⟨hworst, rfl⟩ := Word.fit_eq_ok_iff.mp hw
    refine ⟨fun scenario => ?_, pure_eq_ok.mp h⟩
    cases scenario with
    | best => exact hbest
    | worst => exact hworst
  · rintro ⟨hfits, rfl⟩
    rw [Word.fit_eq_ok_iff.mpr ⟨hfits .best, rfl⟩, Word.fit_eq_ok_iff.mpr ⟨hfits .worst, rfl⟩]
    rfl

theorem ensures_ofFetches (c : Config) (context : Context) (fetches : List Fetch) :
    Ensures (· = .overflow) (ofFetches c context fetches) fun _ => True := by
  rw [ofFetches_eq]
  exact (Word.ensures_fit _).bind fun _ _ _ => (Word.ensures_fit _).bind fun _ _ _ => trivial

theorem ofFetches_overflow {fetches : List Fetch} (h : ¬ Fits c context fetches) :
    ofFetches c context fetches = .error .overflow := by
  have hend := ensures_ofFetches c context fetches
  cases heq : ofFetches c context fetches with
  | ok r => exact absurd (ofFetches_eq_ok_iff.mp heq).1 h
  | error cause =>
    rw [heq] at hend
    rw [show cause = .overflow from hend]

def bound (r : Record) : Scenario → Nat
  | .best => r.bcost
  | .worst => r.wcost

theorem bound_counted (fetches : List Fetch) :
    (counted c context fetches).bound scenario = cost c context scenario fetches := by
  cases scenario <;> rfl

theorem cost_le_cost {scenario' : Scenario} (h : List.Forall₂ (fun f g =>
      f.access.cost c context scenario ≤ g.access.cost c context scenario') fs gs) :
    cost c context scenario fs ≤ cost c context scenario' gs := by
  refine List.Forall₂.sum_le_sum ?_
  rw [List.forall₂_map_left_iff, List.forall₂_map_right_iff]
  exact h

theorem Fits.of_weaker (h : Fits c context gs) (hw : Weaker fs gs) : Fits c context fs :=
  fun _ => Nat.lt_of_le_of_lt
    (cost_le_cost (hw.imp fun _ _ hfg => hfg.access.cost_le_dear)) (h c.dear)

theorem cost_worst_le (hw : Weaker fs gs) (hle : c.hitLatency ≤ c.missLatency) :
    cost c context .worst fs ≤ cost c context .worst gs := by
  have hdear : c.dear = .worst := if_pos hle
  exact cost_le_cost (hw.imp fun _ _ hfg => hdear ▸ hfg.access.cost_le_dear)

theorem cost_best_le (hw : Weaker fs gs) (houtline : outline fs = outline gs)
    (hle : c.hitLatency ≤ c.missLatency) :
    cost c context .best gs ≤ cost c context .best fs := by
  refine cost_le_cost ?_
  induction hw with
  | nil => exact .nil
  | cons hfg _ ih =>
    obtain ⟨-, hupper, hrest⟩ := outline_cons_eq houtline
    exact .cons (hfg.access.cost_best_le hupper hle) (ih hrest)

end Record

end Cache

end CycleBounds
