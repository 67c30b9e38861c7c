import CycleBounds.Proofs.Bound.Blocks
import CycleBounds.Proofs.Bus.Delay
import CycleBounds.Proofs.Run.Path

/-!
# Paths in time

The time at which a path ends if its fetches are issued one after another: each one is served by the
level that its classes name, waits for the bus as of the moment when it is issued, and is followed
by the cost of the instruction itself.

* `Engine.clock`: the time after a path.
* `clock_mono`: a path that starts later ends later, and `clock_add_rounds`: one that starts a whole
  number of rounds of the bus later ends as much later.
* `Charges`: what a scenario is charged lies on the safe side of another one.
-/

namespace CycleBounds

namespace Scenario

/-- A bound is on the safe side of a time: not after it at best, not before it at worst. -/
def Bounds : Scenario → (bound time : Nat) → Prop
  | .best, bound, time => bound ≤ time
  | .worst, bound, time => time ≤ bound

variable {scenario : Scenario} {a b c k : Nat}

@[simp] theorem bounds_best : best.Bounds a b ↔ a ≤ b := Iff.rfl

@[simp] theorem bounds_worst : worst.Bounds a b ↔ b ≤ a := Iff.rfl

@[simp] theorem Bounds.refl (scenario : Scenario) (a : Nat) : scenario.Bounds a a := by
  cases scenario <;> simp

theorem Bounds.trans (h : scenario.Bounds a b) (h' : scenario.Bounds b c) :
    scenario.Bounds a c := by
  cases scenario
  · exact Nat.le_trans h h'
  · exact Nat.le_trans h' h

theorem Bounds.antisymm (h : scenario.Bounds a b) (h' : scenario.Bounds b a) : a = b := by
  cases scenario
  · exact Nat.le_antisymm h h'
  · exact Nat.le_antisymm h' h

theorem Bounds.add_right (h : scenario.Bounds a b) : scenario.Bounds (a + k) (b + k) := by
  cases scenario
  · exact Nat.add_le_add_right h k
  · exact Nat.add_le_add_right h k

/-- A monotone function keeps bounds on the safe side. -/
theorem Bounds.map {f : Nat → Nat} (hf : ∀ {x y}, x ≤ y → f x ≤ f y) (h : scenario.Bounds a b) :
    scenario.Bounds (f a) (f b) := by
  cases scenario
  · exact hf h
  · exact hf h

theorem bounds_iff_not_exceeds : scenario.Bounds a b ↔ scenario.exceeds b a = false := by
  cases scenario <;> simp [exceeds]

end Scenario

namespace Bound.Engine

open Cache (Access)
open Run (Issue)

variable (e : Engine) (scenario : Scenario)

def fetchSpan (source : Source) (t : Nat) : Nat :=
  match source with
  | .l1 => e.platform.hierarchy.l1.hitLatency
  | .l2 => e.platform.bus.span scenario e.core t e.platform.hierarchy.l2HitLatency
  | .memory => e.platform.bus.span scenario e.core t e.platform.hierarchy.missPenalty

def after (i : Issue) (t : Nat) : Nat :=
  t + e.fetchSpan scenario (e.sourceAt scenario i.place i.index) t + e.platform.instrCost scenario

/-- The time after a path that starts at a time. -/
def clock (path : List Issue) (t : Nat) : Nat :=
  path.foldl (fun t i => e.after scenario i t) t

variable {e scenario} {i : Issue} {path path' : List Issue} {t t' : Nat}

/-- What a fetch is charged outside of relative runs. -/
theorem fetch_eq_ok {source : Source} {bus bus' : Bus.Tracker} {d : Nat}
    (h : (e.fetch scenario false source t bus).result = .ok (d, bus')) :
    d = e.fetchSpan scenario source t := by
  cases source with
  | l1 =>
    obtain ⟨rfl, -⟩ := Prod.mk.inj (Except.ok.inj h)
    rfl
  | l2 => exact Bus.delay_eq_span (transfer_eq_ok h)
  | memory => exact Bus.delay_eq_span (transfer_eq_ok h)

theorem le_after : t ≤ e.after scenario i t := by
  unfold after
  omega

theorem add_fetchSpan_mono {source : Source} (h : t ≤ t') :
    t + e.fetchSpan scenario source t ≤ t' + e.fetchSpan scenario source t' := by
  cases source with
  | l1 => exact Nat.add_le_add_right h _
  | l2 => exact Bus.add_span_mono (.inr rfl) h (Nat.le_refl _)
  | memory => exact Bus.add_span_mono (.inr rfl) h (Nat.le_refl _)

theorem after_mono (h : t ≤ t') : e.after scenario i t ≤ e.after scenario i t' :=
  Nat.add_le_add_right (add_fetchSpan_mono h) _

/-- An instruction takes as long a number of bus rounds later. -/
theorem after_add_rounds {s : Bus.Schedule} (hs : e.platform.bus.timed? = some s) (n : Nat) :
    e.after scenario i (t + n * s.interval) = e.after scenario i t + n * s.interval := by
  have hspan : ∀ source, e.fetchSpan scenario source (t + n * s.interval) =
      e.fetchSpan scenario source t := by
    intro source
    cases source with
    | l1 => rfl
    | l2 => exact Bus.span_add_rounds hs n
    | memory => exact Bus.span_add_rounds hs n
  simp only [after, hspan]
  omega

@[simp] theorem clock_nil : e.clock scenario [] t = t := rfl

@[simp] theorem clock_cons :
    e.clock scenario (i :: path) t = e.clock scenario path (e.after scenario i t) := rfl

@[simp] theorem clock_append :
    e.clock scenario (path ++ path') t = e.clock scenario path' (e.clock scenario path t) := by
  simp [clock]

theorem le_clock : t ≤ e.clock scenario path t := by
  induction path generalizing t with
  | nil => exact Nat.le_refl t
  | cons i path ih => exact Nat.le_trans le_after ih

/-- A path that starts later ends later. -/
theorem clock_mono (h : t ≤ t') : e.clock scenario path t ≤ e.clock scenario path t' := by
  induction path generalizing t t' with
  | nil => exact h
  | cons i path ih => exact ih (after_mono h)

/-- A path takes as long if it starts some rounds later. -/
theorem clock_add_rounds {s : Bus.Schedule} (hs : e.platform.bus.timed? = some s) (n : Nat) :
    e.clock scenario path (t + n * s.interval) = e.clock scenario path t + n * s.interval := by
  induction path generalizing t with
  | nil => rfl
  | cons i path ih => rw [clock_cons, after_add_rounds hs, ih, clock_cons]

/-! ### One scenario on the safe side of another -/

/-- What the scenario `bound` charges for an instruction and how often it follows loops is on the
safe side of the scenario `actual`. -/
structure Charges (e : Engine) (actual bound : Scenario) : Prop where
  after : ∀ {i t t'}, bound.Bounds t' t → bound.Bounds (e.after bound i t') (e.after actual i t)
  rounds : ∀ loop, bound.Bounds (bound.rounds loop) (actual.rounds loop)

theorem charges_self (e : Engine) (scenario : Scenario) : Charges e scenario scenario where
  after h := h.map after_mono
  rounds _ := .refl scenario _

/-- A fetch that hits at worst hits at best. -/
theorem hits_best_of_worst {context : Context} {a : Access} (h : hits .worst context a = true) :
    hits .best context a = true := by
  cases a <;> simp_all [hits, Access.isHit]

def Ordered (hierarchy : Cache.Hierarchy) : Prop :=
  hierarchy.l1.hitLatency ≤ hierarchy.l2HitLatency ∧ hierarchy.l2HitLatency ≤ hierarchy.missPenalty

instance (hierarchy : Cache.Hierarchy) : Decidable (Ordered hierarchy) :=
  inferInstanceAs (Decidable (_ ∧ _))

/-- A fetch ends no later at best than it ends at worst if it is issued no earlier there. -/
theorem add_fetchSpan_le (hordered : Ordered e.platform.hierarchy) {context : Context} {a : Access}
    {b : Option Access} (h : t ≤ t') :
    t + e.fetchSpan .best (source .best context a b) t ≤
      t' + e.fetchSpan .worst (source .worst context a b) t' := by
  obtain ⟨hfirst, hsecond⟩ := hordered
  have hbus : ∀ {x y}, x ≤ y → t + e.platform.bus.span .best e.core t x ≤
      t' + e.platform.bus.span .worst e.core t' y := Bus.add_span_mono (.inl rfl) h
  -- a hit of the first level is over before any transfer would be
  have hnear : ∀ {y}, e.platform.hierarchy.l2HitLatency ≤ y →
      t + e.platform.hierarchy.l1.hitLatency ≤ t' + e.platform.bus.span .worst e.core t' y :=
    fun hy => Nat.add_le_add h (Nat.le_trans hfirst (Nat.le_trans hy Bus.le_span))
  -- the level at best is no further away than the one at worst
  unfold source
  by_cases ha : hits .worst context a = true
  · rw [if_pos (hits_best_of_worst ha), if_pos ha]
    exact Nat.add_le_add_right h _
  rw [if_neg ha]
  by_cases hb : b.any (hits .worst context) = true
  · rw [if_pos hb]
    have hb' : b.any (hits .best context) = true := by
      cases b with
      | none => cases hb
      | some x => exact hits_best_of_worst hb
    rw [if_pos hb']
    split
    · exact hnear (Nat.le_refl _)
    · exact hbus (Nat.le_refl _)
  · rw [if_neg hb]
    split
    · exact hnear hsecond
    split
    · exact hbus hsecond
    · exact hbus (Nat.le_refl _)

/-- The worst case is charged at least what the best case takes. -/
theorem charges_worst (hordered : Ordered e.platform.hierarchy) : Charges e .best .worst where
  after := by
    intro i t t' h
    have hinstr := e.platform.instr_ordered
    have hfetch : t + e.fetchSpan .best (e.sourceAt .best i.place i.index) t ≤
        t' + e.fetchSpan .worst (e.sourceAt .worst i.place i.index) t' :=
      add_fetchSpan_le hordered h
    exact Nat.add_le_add hfetch hinstr
  rounds loop := by
    have hbest : Scenario.best.rounds loop = loop.bound := by simp [Scenario.rounds]
    rw [Scenario.bounds_worst, hbest, Scenario.rounds]
    split <;> omega

end Bound.Engine

end CycleBounds
