import CycleBounds.Proofs.Results
import Mathlib.Data.List.Forall2

/-!
# Computations that match

Two computations match if they report the same and either stop for the same cause or have results
that are related. What matching computations are followed by may use the relation, so that one rule
per way of putting computations together carries a relation through a whole run.

* `Matched`: the results of two computations.
* `Traced.Matches`: the results and the reports. Computations that match by equality are equal.
-/

namespace CycleBounds

variable {ε α β α' β' σ τ : Type}

def Same (P : α → Prop) (a b : α) : Prop :=
  a = b ∧ P a

/-- Two computations stop for the same cause or have related results. -/
inductive Matched (R : α → β → Prop) : Except ε α → Except ε β → Prop
  | ok {a : α} {b : β} : R a b → Matched R (.ok a) (.ok b)
  | error (cause : ε) : Matched R (.error cause) (.error cause)

namespace Matched

variable {R : α → β → Prop} {x : Except ε α} {y : Except ε β}

theorem refl {R : α → α → Prop} (h : ∀ a, x = .ok a → R a a) : Matched R x x := by
  cases x with
  | error cause => exact .error cause
  | ok a => exact .ok (h a rfl)

theorem eq {x y : Except ε α} (h : Matched Eq x y) : x = y := by
  cases h with
  | error cause => rfl
  | ok hab => rw [hab]

/-- Computations match if their first parts do, and their second parts on all related results. -/
theorem bind (h : Matched R x y) {f : α → Except ε α'} {g : β → Except ε β'} {Q : α' → β' → Prop}
    (hfg : ∀ a b, R a b → Matched Q (f a) (g b)) : Matched Q (x >>= f) (y >>= g) := by
  cases h with
  | error cause => exact .error cause
  | ok hab => exact hfg _ _ hab

theorem mapError {δ : Type} (f : ε → δ) (h : Matched R x y) :
    Matched R (x.mapError f) (y.mapError f) := by
  cases h with
  | error cause => exact .error (f cause)
  | ok hab => exact .ok hab

/-- Entries of lists that are related one by one. -/
theorem entryAt {xs : List α} {ys : List β} (h : List.Forall₂ R xs ys) (i : Nat) :
    Matched R (entryAt xs i) (entryAt ys i) := by
  by_cases hi : i < xs.length
  · have hi' : i < ys.length := h.length_eq ▸ hi
    rw [entryAt_eq_ok.mpr (List.getElem?_eq_getElem hi),
      entryAt_eq_ok.mpr (List.getElem?_eq_getElem hi')]
    exact .ok (h.get hi hi')
  · have hi' : ¬ i < ys.length := h.length_eq ▸ hi
    rw [CycleBounds.entryAt, CycleBounds.entryAt, List.getElem?_eq_none (Nat.le_of_not_lt hi),
      List.getElem?_eq_none (Nat.le_of_not_lt hi'), h.length_eq]
    exact .error _

end Matched

/-- Two traced computations report the same, and their results match. -/
structure Traced.Matches (R : α → β → Prop) (x : Traced ε α) (y : Traced ε β) : Prop where
  log : x.log = y.log
  result : Matched R x.result y.result

namespace Traced.Matches

variable {R : α → β → Prop} {x : Traced ε α} {y : Traced ε β}

theorem refl {R : α → α → Prop} (h : ∀ a, x.result = .ok a → R a a) : Matches R x x :=
  ⟨rfl, .refl h⟩

theorem eq {x y : Traced ε α} (h : Matches Eq x y) : x = y := by
  obtain ⟨result, log⟩ := x
  obtain ⟨result', log'⟩ := y
  obtain rfl : log = log' := h.log
  obtain rfl : result = result' := h.result.eq
  rfl

theorem pure {a : α} {b : β} (h : R a b) :
    Matches R (Pure.pure a : Traced ε α) (Pure.pure b : Traced ε β) :=
  ⟨rfl, .ok h⟩

theorem bind (h : Matches R x y) {f : α → Traced ε α'} {g : β → Traced ε β'} {Q : α' → β' → Prop}
    (hfg : ∀ a b, R a b → Matches Q (f a) (g b)) : Matches Q (x >>= f) (y >>= g) := by
  obtain ⟨result, log⟩ := x
  obtain ⟨result', log'⟩ := y
  obtain ⟨rfl, hresult⟩ := h
  cases hresult with
  | error cause => exact ⟨rfl, .error cause⟩
  | ok hab =>
    obtain ⟨hlog, hmatched⟩ := hfg _ _ hab
    exact ⟨congrArg (log ++ ·) hlog, hmatched⟩

/-- A computation that occurs on both sides has the same result on both. -/
theorem bind_same {f : α → Traced ε α'} {g : α → Traced ε β'} {Q : α' → β' → Prop}
    (hfg : ∀ a, x.result = .ok a → Matches Q (f a) (g a)) : Matches Q (x >>= f) (x >>= g) := by
  refine (refl (R := Same fun a => x.result = .ok a) fun a ha => ⟨rfl, ha⟩).bind ?_
  rintro a _ ⟨rfl, ha⟩
  exact hfg a ha

/-! What every pair of steps keeps, two repetitions keep. -/

theorem foldlM {f : σ → α → Traced ε σ} {g : τ → α → Traced ε τ} {xs : List α}
    {I : σ → τ → Prop} (step : ∀ x ∈ xs, ∀ s t, I s t → Matches I (f s x) (g t x)) {s : σ} {t : τ}
    (hst : I s t) : Matches I (xs.foldlM f s) (xs.foldlM g t) := by
  induction xs generalizing s t with
  | nil => exact pure hst
  | cons x xs ih =>
    rw [List.foldlM_cons, List.foldlM_cons]
    refine (step x List.mem_cons_self s t hst).bind fun s' t' hst' => ?_
    exact ih (fun y hy => step y (List.mem_cons_of_mem x hy)) hst'

theorem iterate {f : σ → Traced ε σ} {g : τ → Traced ε τ} {I : σ → τ → Prop}
    (step : ∀ s t, I s t → Matches I (f s) (g t)) (n : Nat) {s : σ} {t : τ} (hst : I s t) :
    Matches I (Traced.iterate f n s) (Traced.iterate g n t) := by
  induction n generalizing s t with
  | zero => exact pure hst
  | succ n ih =>
    rw [Traced.iterate_succ, Traced.iterate_succ]
    exact (step s t hst).bind fun s' t' hst' => ih hst'

/-! Computations without reports match if their results do. -/

theorem lift {x : Except ε α} {y : Except ε β} (h : Matched R x y) :
    Matches R (liftM x : Traced ε α) (liftM y : Traced ε β) :=
  ⟨rfl, h⟩

theorem lift_fault {x : Except Fault α} {y : Except Fault β} (h : Matched R x y) :
    Matches R (liftM x : Traced (Failure ε) α) (liftM y : Traced (Failure ε) β) := by
  refine ⟨?_, ?_⟩
  · rfl
  · rw [Traced.result_liftM_except, Traced.result_liftM_except]
    exact h.mapError Failure.fault

end Traced.Matches

end CycleBounds
