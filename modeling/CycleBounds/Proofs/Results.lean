import CycleBounds.Traced
import Mathlib.Data.List.Basic
import Mathlib.Tactic.Common

/-!
# Results of computations

What it means that a computation has a result, for sequences, repetitions and lifted computations.
A traced computation is looked at through `Traced.result`, so everything is said of `Except`.

* `bind_eq_ok`, `foldlM_stages`, `Traced.iterate_stages`: what led to a result.
* `Ensures`: a computation has a result with a property, unless it stops for an allowed cause.
* `Coupled`: the results of two computations are related.
-/

namespace CycleBounds

variable {ε α β σ : Type}

/-! ### Sequences -/

theorem bind_eq_ok {x : Except ε α} {f : α → Except ε β} {b : β} :
    x >>= f = .ok b ↔ ∃ a, x = .ok a ∧ f a = .ok b := by
  cases x with
  | error e => simp [bind, Except.bind]
  | ok a => simp [bind, Except.bind]

@[simp] theorem pure_eq_ok {a b : α} : (pure a : Except ε α) = .ok b ↔ a = b := by
  simp [pure, Except.pure]

theorem entryAt_eq_ok {xs : List α} {i : Nat} {a : α} : entryAt xs i = .ok a ↔ xs[i]? = some a := by
  rw [entryAt]
  cases xs[i]? with
  | none => simp
  | some x => simp

theorem assume_eq_ok {holds : Bool} {otherwise : Defect} {u : Unit} :
    assume holds otherwise = .ok u ↔ holds = true := by
  cases holds <;> simp [assume]

theorem toOption_eq_some {x : Except ε α} {a : α} : x.toOption = some a ↔ x = .ok a := by
  cases x with
  | error e => simp [Except.toOption]
  | ok b => simp [Except.toOption]

/-! ### Lists -/

/-- A pass without an error has none at any element. -/
theorem forM_eq_ok {f : α → Except ε Unit} {xs : List α} (h : xs.forM f = .ok ()) :
    ∀ x ∈ xs, f x = .ok () := by
  induction xs with
  | nil => simp
  | cons y ys ih =>
    rw [List.forM_eq_forM, List.forM_cons] at h
    obtain ⟨⟨⟩, hy, hys⟩ := bind_eq_ok.mp h
    intro x hx
    rcases List.mem_cons.mp hx with rfl | hx
    · exact hy
    · exact ih hys x hx

theorem forM_ok_of_forall {f : α → Except ε Unit} {xs : List α} (h : ∀ x ∈ xs, f x = .ok ()) :
    xs.forM f = .ok () := by
  induction xs with
  | nil => rfl
  | cons x xs ih =>
    rw [List.forM_eq_forM, List.forM_cons, h x List.mem_cons_self]
    exact ih fun y hy => h y (List.mem_cons_of_mem x hy)

/-- A check of all entries that fails does so at one of them. -/
theorem forM_eq_error {f : α → Except ε Unit} {xs : List α} {cause : ε}
    (h : xs.forM f = .error cause) : ∃ x ∈ xs, f x = .error cause := by
  induction xs with
  | nil => cases h
  | cons x xs ih =>
    rw [List.forM_eq_forM, List.forM_cons] at h
    cases hx : f x with
    | error e =>
      rw [hx] at h
      obtain rfl : e = cause := Except.error.inj h
      exact ⟨x, List.mem_cons_self, hx⟩
    | ok u =>
      rw [hx] at h
      obtain ⟨y, hy, hfail⟩ := ih h
      exact ⟨y, List.mem_cons_of_mem x hy, hfail⟩

/-- A list of results has the result of each element. -/
theorem mapM_eq_ok {f : α → Except ε β} {xs : List α} {ys : List β} (h : xs.mapM f = .ok ys) :
    List.Forall₂ (fun x y => f x = .ok y) xs ys := by
  induction xs generalizing ys with
  | nil =>
    rw [List.mapM_nil, pure_eq_ok] at h
    rw [← h]
    exact .nil
  | cons x xs ih =>
    rw [List.mapM_cons] at h
    obtain ⟨y, hy, h⟩ := bind_eq_ok.mp h
    obtain ⟨zs, hzs, h⟩ := bind_eq_ok.mp h
    rw [pure_eq_ok] at h
    rw [← h]
    exact .cons hy (ih hzs)

/-- A list is changed by a computation whose results are given by a function. -/
theorem mapM_eq_ok_iff {f : α → Except ε β} {allowed : α → Prop} {g : α → β}
    (hf : ∀ x y, f x = .ok y ↔ allowed x ∧ g x = y) {xs : List α} {ys : List β} :
    xs.mapM f = .ok ys ↔ (∀ x ∈ xs, allowed x) ∧ xs.map g = ys := by
  induction xs generalizing ys with
  | nil => simp
  | cons x xs ih =>
    rw [List.mapM_cons, List.forall_mem_cons, List.map_cons]
    constructor
    · intro h
      obtain ⟨y, hy, h⟩ := bind_eq_ok.mp h
      obtain ⟨zs, hzs, h⟩ := bind_eq_ok.mp h
      obtain ⟨hx, rfl⟩ := (hf x y).mp hy
      obtain ⟨hxs, rfl⟩ := ih.mp hzs
      exact ⟨⟨hx, hxs⟩, pure_eq_ok.mp h⟩
    · rintro ⟨⟨hx, hxs⟩, rfl⟩
      exact bind_eq_ok.mpr ⟨_, (hf x _).mpr ⟨hx, rfl⟩,
        bind_eq_ok.mpr ⟨_, ih.mpr ⟨hxs, rfl⟩, rfl⟩⟩

/-- The entries of the result are the results of the entries. -/
theorem mapM_getElem? {f : α → Except ε β} {xs : List α} {ys : List β} (h : xs.mapM f = .ok ys)
    (i : Nat) : ys[i]? = none ∧ xs[i]? = none ∨
      ∃ x y, xs[i]? = some x ∧ ys[i]? = some y ∧ f x = .ok y := by
  have hall := mapM_eq_ok h
  clear h
  induction hall generalizing i with
  | nil => exact .inl ⟨rfl, rfl⟩
  | cons hx hrest ih =>
    cases i with
    | zero => exact .inr ⟨_, _, rfl, rfl, hx⟩
    | succ i => exact ih i

/-- Lists that match entry by entry have the same length. -/
theorem length_eq_of_getElem? {xs : List α} {ys : List β} {f : Nat → β → α}
    (h : ∀ n, xs[n]? = ys[n]?.map (f n)) : xs.length = ys.length := by
  apply Nat.le_antisymm
  · rw [← List.getElem?_eq_none_iff, h, List.getElem?_eq_none (Nat.le_refl _)]
    rfl
  · have hnone := List.getElem?_eq_none (Nat.le_refl xs.length)
    rw [h, Option.map_eq_none_iff] at hnone
    exact List.getElem?_eq_none_iff.mp hnone

theorem nodup_eraseDups (xs : List Nat) : xs.eraseDups.Nodup := by
  -- by induction on the length: what follows the first entry is filtered before it goes on
  induction hn : xs.length using Nat.strongRecOn generalizing xs with
  | ind n ih =>
    cases xs with
    | nil => exact .nil
    | cons x xs =>
      rw [List.eraseDups_cons, List.nodup_cons, List.mem_eraseDups]
      refine ⟨by simp, ih _ ?_ _ rfl⟩
      rw [← hn, List.length_cons]
      exact Nat.lt_succ_of_le (List.length_filter_le _ _)

theorem foldlM_cons_eq_ok {f : σ → α → Except ε σ} {x : α} {xs : List α} {s t : σ} :
    (x :: xs).foldlM f s = .ok t ↔ ∃ u, f s x = .ok u ∧ xs.foldlM f u = .ok t := by
  rw [List.foldlM_cons]
  exact bind_eq_ok

/-- A repetition that stops does so in one of its steps. -/
theorem foldlM_eq_error {f : σ → α → Except ε σ} {xs : List α} {s : σ} {cause : ε}
    (h : xs.foldlM f s = .error cause) : ∃ x ∈ xs, ∃ t, f t x = .error cause := by
  induction xs generalizing s with
  | nil => cases h
  | cons x xs ih =>
    rw [List.foldlM_cons] at h
    cases hx : f s x with
    | error e =>
      rw [hx] at h
      obtain rfl : e = cause := Except.error.inj h
      exact ⟨x, List.mem_cons_self, s, hx⟩
    | ok t =>
      rw [hx] at h
      obtain ⟨y, hy, hstep⟩ := ih h
      exact ⟨y, List.mem_cons_of_mem x hy, hstep⟩

/-- What every step of a repetition relates is related by the whole. -/
theorem foldlM_rel {f : σ → α → Except ε σ} {xs : List α} {R : σ → σ → Prop}
    (refl : ∀ s, R s s) (trans : ∀ {s t u}, R s t → R t u → R s u)
    (step : ∀ x ∈ xs, ∀ {s t}, f s x = .ok t → R s t) {s t : σ}
    (h : xs.foldlM f s = .ok t) : R s t := by
  induction xs generalizing s with
  | nil =>
    rw [List.foldlM_nil, pure_eq_ok] at h
    exact h ▸ refl s
  | cons x xs ih =>
    obtain ⟨u, hu, h⟩ := foldlM_cons_eq_ok.mp h
    exact trans (step x List.mem_cons_self hu)
      (ih (fun y hy => step y (List.mem_cons_of_mem x hy)) h)

/-- What every step of a repetition relates, in the state after the steps before, is related in the
end. -/
theorem foldlM_rel_after {f : σ → α → Except ε σ} {xs : List α} {s₀ t : σ}
    {R : σ → σ → Prop} (refl : ∀ s, R s s) (trans : ∀ {s t u}, R s t → R t u → R s u)
    (step : ∀ {first x rest s t}, xs = first ++ x :: rest → first.foldlM f s₀ = .ok s →
      f s x = .ok t → R s t) (h : xs.foldlM f s₀ = .ok t) : R s₀ t := by
  -- the steps that are done are kept, as a step may depend on them
  suffices ∀ rest first s, xs = first ++ rest → first.foldlM f s₀ = .ok s →
      rest.foldlM f s = .ok t → R s t from this xs [] s₀ rfl rfl h
  intro rest
  induction rest with
  | nil =>
    intro first s _ _ h
    exact pure_eq_ok.mp h ▸ refl s
  | cons x rest ih =>
    intro first s hxs hfirst h
    obtain ⟨u, hu, h⟩ := foldlM_cons_eq_ok.mp h
    refine trans (step hxs hfirst hu) (ih (first ++ [x]) u (by simp [hxs]) ?_ h)
    rw [List.foldlM_append]
    exact bind_eq_ok.mpr ⟨s, hfirst, foldlM_cons_eq_ok.mpr ⟨u, hu, rfl⟩⟩

/-- Steps with one more in front. -/
theorem exists_steps_cons {R : Nat → σ → σ → Prop} {g : Nat → σ} {s : σ} {n : Nat}
    (hfirst : R 0 s (g 0)) (hrest : ∀ k < n, R (k + 1) (g k) (g (k + 1))) :
    ∃ g' : Nat → σ, g' 0 = s ∧ (∀ k, g' (k + 1) = g k) ∧ ∀ k < n + 1, R k (g' k) (g' (k + 1)) := by
  refine ⟨fun k => k.casesOn s g, rfl, fun _ => rfl, fun k hk => ?_⟩
  cases k with
  | zero => exact hfirst
  | succ k => exact hrest k (Nat.lt_of_succ_lt_succ hk)

/-- The states between the steps of a repetition. -/
theorem foldlM_stages {f : σ → α → Except ε σ} {xs : List α} {s t : σ}
    (h : xs.foldlM f s = .ok t) : ∃ g : Nat → σ, g 0 = s ∧ g xs.length = t ∧
      ∀ (k : Nat) x, xs[k]? = some x → f (g k) x = .ok (g (k + 1)) := by
  induction xs generalizing s with
  | nil =>
    rw [List.foldlM_nil, pure_eq_ok] at h
    exact ⟨fun _ => s, rfl, h, fun k x hx => by cases hx⟩
  | cons y ys ih =>
    obtain ⟨u, hu, h⟩ := foldlM_cons_eq_ok.mp h
    obtain ⟨g, rfl, hlast, hstep⟩ := ih h
    obtain ⟨g', hzero, hsucc, hsteps⟩ := exists_steps_cons
      (R := fun k a b => ∀ x, (y :: ys)[k]? = some x → f a x = .ok b) (n := ys.length)
      (fun x hx => Option.some.inj hx ▸ hu) fun k _ => hstep k
    refine ⟨g', hzero, (hsucc _).trans hlast, fun k x hx => hsteps k ?_ x hx⟩
    exact (List.getElem?_eq_some_iff.mp hx).1

/-! ### Traced computations -/

@[simp] theorem Traced.result_foldlM (f : σ → α → Traced ε σ) (xs : List α) (s : σ) :
    (xs.foldlM f s).result = xs.foldlM (fun s x => (f s x).result) s := by
  induction xs generalizing s with
  | nil => rfl
  | cons x xs ih =>
    rw [List.foldlM_cons, List.foldlM_cons, Traced.result_bind]
    exact congrArg _ (funext ih)

@[simp] theorem Traced.result_liftM (x : Except ε α) : (liftM x : Traced ε α).result = x := rfl

/-! Faults are lifted to failures of any kind. -/

@[simp] theorem Traced.result_liftM_except (x : Except Fault α) :
    (liftM x : Traced (Failure ε) α).result = x.mapError .fault := by
  cases x <;> rfl

@[simp] theorem Traced.result_liftM_traced (x : Traced Fault α) :
    (liftM x : Traced (Failure ε) α).result = x.result.mapError .fault := rfl

theorem liftM_eq_ok {x : Except ε α} {a : α} :
    (liftM x : Except (Failure ε) α) = .ok a ↔ x = .ok a := by
  cases x with
  | ok b =>
    show (Except.ok b : Except (Failure ε) α) = .ok a ↔ _
    simp
  | error e => exact ⟨nofun, nofun⟩

theorem liftM_fault_eq_ok {x : Except Fault α} {a : α} :
    (liftM x : Except (Failure ε) α) = .ok a ↔ x = .ok a := by
  cases x with
  | ok b =>
    show (Except.ok b : Except (Failure ε) α) = .ok a ↔ _
    simp
  | error e => exact ⟨nofun, nofun⟩

theorem mapError_eq_ok {δ : Type} {f : ε → δ} {x : Except ε α} {a : α} :
    x.mapError f = .ok a ↔ x = .ok a := by
  cases x with
  | error e => simp [Except.mapError]
  | ok b => simp [Except.mapError]

/-- The states of a repetition. -/
theorem Traced.iterate_stages {f : σ → Traced ε σ} {n : Nat} {s t : σ}
    (h : (Traced.iterate f n s).result = .ok t) :
    ∃ g : Nat → σ, g 0 = s ∧ g n = t ∧ ∀ k < n, (f (g k)).result = .ok (g (k + 1)) := by
  induction n generalizing s with
  | zero =>
    rw [Traced.iterate_zero, Traced.result_pure] at h
    exact ⟨fun _ => s, rfl, Except.ok.inj h, nofun⟩
  | succ n ih =>
    rw [Traced.iterate_succ, Traced.result_bind] at h
    obtain ⟨u, hu, h⟩ := bind_eq_ok.mp h
    obtain ⟨g, rfl, hlast, hstep⟩ := ih h
    obtain ⟨g', hzero, hsucc, hsteps⟩ :=
      exists_steps_cons (R := fun _ a b => (f a).result = .ok b) hu hstep
    exact ⟨g', hzero, (hsucc n).trans hlast, hsteps⟩

/-! ### Allowed causes -/

/-- A computation stops for allowed causes only, and otherwise its result has a property. -/
def Ensures (allowed : ε → Prop) (x : Except ε α) (P : α → Prop) : Prop :=
  match x with
  | .ok a => P a
  | .error cause => allowed cause

namespace Ensures

variable {allowed : ε → Prop} {x : Except ε α} {P : α → Prop}

theorem of_ok {a : α} (hx : x = .ok a) (hP : P a) : Ensures allowed x P := by
  rw [hx]
  exact hP

/-- Where everything is allowed, only the results matter. -/
theorem of_result (h : ∀ a, x = .ok a → P a) : Ensures (fun _ => True) x P := by
  cases x with
  | error cause => trivial
  | ok a => exact h a rfl

theorem result (h : Ensures allowed x P) {a : α} (hx : x = .ok a) : P a := by
  rw [hx] at h
  exact h

/-- Where nothing is allowed, there is a result. -/
theorem exists_ok (h : Ensures allowed x P) (hnever : ∀ cause, ¬ allowed cause) :
    ∃ a, x = .ok a ∧ P a := by
  cases x with
  | error cause => exact absurd h (hnever cause)
  | ok a => exact ⟨a, rfl, h⟩

theorem imp (h : Ensures allowed x P) {Q : α → Prop} (himp : ∀ a, x = .ok a → P a → Q a) :
    Ensures allowed x Q := by
  cases x with
  | error cause => exact h
  | ok a => exact himp a rfl h

theorem allow (h : Ensures allowed x P) {allowed' : ε → Prop}
    (himp : ∀ cause, allowed cause → allowed' cause) : Ensures allowed' x P := by
  cases x with
  | error cause => exact himp cause h
  | ok a => exact h

theorem bind (h : Ensures allowed x P) {f : α → Except ε β} {Q : β → Prop}
    (hf : ∀ a, x = .ok a → P a → Ensures allowed (f a) Q) : Ensures allowed (x >>= f) Q := by
  cases x with
  | error cause => exact h
  | ok a => exact hf a rfl h

theorem mapError {δ : Type} {f : ε → δ} {allowed' : δ → Prop} (h : Ensures allowed x P)
    (hf : ∀ cause, allowed cause → allowed' (f cause)) : Ensures allowed' (x.mapError f) P := by
  cases x with
  | error cause => exact hf cause h
  | ok a => exact h

/-- Every entry of a list has a result. -/
theorem mapM {f : α → Except ε β} {xs : List α} {P : α → β → Prop}
    (h : ∀ x ∈ xs, Ensures allowed (f x) (P x)) :
    Ensures allowed (xs.mapM f) fun ys => ∀ x ∈ xs, ∃ y ∈ ys, P x y := by
  induction xs with
  | nil => exact nofun
  | cons x xs ih =>
    rw [List.mapM_cons]
    refine (h x List.mem_cons_self).bind fun y _ hy => ?_
    refine (ih fun z hz => h z (List.mem_cons_of_mem x hz)).bind fun ys _ hys => ?_
    intro z hz
    rcases List.mem_cons.mp hz with rfl | hz
    · exact ⟨y, List.mem_cons_self, hy⟩
    · obtain ⟨y', hy', hP⟩ := hys z hz
      exact ⟨y', List.mem_cons_of_mem y hy', hP⟩

/-! A repetition comes to its end if every step does. -/

/-- What every step keeps, a fold keeps. -/
theorem foldlM_keep {f : σ → α → Except ε σ} {xs : List α} {I : σ → Prop}
    (step : ∀ x ∈ xs, ∀ s, I s → Ensures allowed (f s x) I) {s : σ} (hs : I s) :
    Ensures allowed (xs.foldlM f s) I := by
  induction xs generalizing s with
  | nil => exact hs
  | cons x xs ih =>
    rw [List.foldlM_cons]
    refine (step x List.mem_cons_self s hs).bind fun t _ ht => ?_
    exact ih (fun y hy => step y (List.mem_cons_of_mem x hy)) ht

theorem foldlM_end {f : σ → α → Except ε σ} {xs : List α}
    (h : ∀ x ∈ xs, ∀ s, Ensures allowed (f s x) fun _ => True) (s : σ) :
    Ensures allowed (xs.foldlM f s) fun _ => True :=
  foldlM_keep (fun x hx s _ => h x hx s) trivial

theorem iterate_end {f : σ → Traced ε σ} (h : ∀ s, Ensures allowed (f s).result fun _ => True)
    (n : Nat) (s : σ) : Ensures allowed (Traced.iterate f n s).result fun _ => True := by
  induction n generalizing s with
  | zero => trivial
  | succ n ih =>
    rw [Traced.iterate_succ, Traced.result_bind]
    exact (h s).bind fun t _ _ => ih t

/-- A repetition in which every step keeps an invariant, goes on by a transitive relation, and
brings about something that the relation keeps. -/
theorem foldlM {f : σ → α → Except ε σ} {xs : List α} {I : σ → Prop} {R : σ → σ → Prop}
    {Q : α → σ → Prop} (refl : ∀ s, R s s) (trans : ∀ {s t u}, R s t → R t u → R s u)
    (stable : ∀ {x s t}, R s t → Q x s → Q x t)
    (step : ∀ x ∈ xs, ∀ s, I s → Ensures allowed (f s x) fun t => I t ∧ R s t ∧ Q x t) {s : σ}
    (hs : I s) : Ensures allowed (xs.foldlM f s) fun t => I t ∧ R s t ∧ ∀ x ∈ xs, Q x t := by
  induction xs generalizing s with
  | nil => exact ⟨hs, refl s, nofun⟩
  | cons x xs ih =>
    rw [List.foldlM_cons]
    refine (step x List.mem_cons_self s hs).bind fun t _ ⟨ht, hst, hx⟩ => ?_
    refine (ih (fun y hy => step y (List.mem_cons_of_mem x hy)) ht).imp ?_
    rintro u - ⟨hu, htu, hall⟩
    exact ⟨hu, trans hst htu, List.forall_mem_cons.mpr ⟨stable htu hx, hall⟩⟩

end Ensures

/-! ### Two computations -/

/-- Where two computations both have results, these are related. -/
def Coupled {δ : Type} (R : α → β → Prop) (x : Except ε α) (y : Except δ β) : Prop :=
  ∀ a b, x = .ok a → y = .ok b → R a b

namespace Coupled

variable {δ α' β' σ' : Type} {R : α → β → Prop} {x : Except ε α} {y : Except δ β}

theorem pure {a : α} {b : β} (h : R a b) :
    Coupled R (Pure.pure a : Except ε α) (Pure.pure b : Except δ β) := by
  rintro _ _ ⟨⟩ ⟨⟩
  exact h

theorem imp (h : Coupled R x y) {Q : α → β → Prop} (himp : ∀ a b, R a b → Q a b) :
    Coupled Q x y :=
  fun a b hx hy => himp a b (h a b hx hy)

theorem bind (h : Coupled R x y) {f : α → Except ε α'} {g : β → Except δ β'} {Q : α' → β' → Prop}
    (hfg : ∀ a b, R a b → Coupled Q (f a) (g b)) : Coupled Q (x >>= f) (y >>= g) := by
  intro a' b' hf hg
  obtain ⟨a, hx, hf⟩ := bind_eq_ok.mp hf
  obtain ⟨b, hy, hg⟩ := bind_eq_ok.mp hg
  exact hfg a b (h a b hx hy) a' b' hf hg

/-- A computation that occurs on both sides has the same result on both. -/
theorem bind_same {f : α → Except ε α'} {g : α → Except ε β'} {Q : α' → β' → Prop}
    (hfg : ∀ a, x = .ok a → Coupled Q (f a) (g a)) : Coupled Q (x >>= f) (x >>= g) := by
  intro a' b' hf hg
  obtain ⟨a, hx, hf⟩ := bind_eq_ok.mp hf
  obtain ⟨b, hy, hg⟩ := bind_eq_ok.mp hg
  obtain rfl := Except.ok.inj (hx.symm.trans hy)
  exact hfg a hx a' b' hf hg

theorem mapError {ε' δ' : Type} {f : ε → ε'} {g : δ → δ'} (h : Coupled R x y) :
    Coupled R (x.mapError f) (y.mapError g) :=
  fun a b hx hy => h a b (mapError_eq_ok.mp hx) (mapError_eq_ok.mp hy)

/-! What every pair of steps keeps, two repetitions keep. -/

theorem foldlM {f : σ → α → Except ε σ} {g : σ' → α → Except δ σ'} {xs : List α}
    {I : σ → σ' → Prop} (step : ∀ x ∈ xs, ∀ s t, I s t → Coupled I (f s x) (g t x)) {s : σ}
    {t : σ'} (hst : I s t) : Coupled I (xs.foldlM f s) (xs.foldlM g t) := by
  induction xs generalizing s t with
  | nil => exact pure hst
  | cons x xs ih =>
    rw [List.foldlM_cons, List.foldlM_cons]
    refine (step x List.mem_cons_self s t hst).bind fun s' t' hst' => ?_
    exact ih (fun y hy => step y (List.mem_cons_of_mem x hy)) hst'

theorem iterate {f : σ → Traced ε σ} {g : σ' → Traced δ σ'} {I : σ → σ' → Prop}
    (step : ∀ s t, I s t → Coupled I (f s).result (g t).result) (n : Nat) {s : σ} {t : σ'}
    (hst : I s t) : Coupled I (Traced.iterate f n s).result (Traced.iterate g n t).result := by
  induction n generalizing s t with
  | zero => exact pure hst
  | succ n ih =>
    rw [Traced.iterate_succ, Traced.iterate_succ, Traced.result_bind, Traced.result_bind]
    exact (step s t hst).bind fun s' t' hst' => ih hst'

end Coupled

namespace Word

/-! Results that are not in range are overflows. -/

theorem ensures_fit (n : Nat) : Ensures (· = .overflow) (fit n) (· = n) := by
  unfold fit
  split
  · rfl
  · rfl

theorem ensures_add (a b : Nat) : Ensures (· = .overflow) (add a b) (· = a + b) :=
  ensures_fit (a + b)

/-- A sum overflows only if it is out of range. -/
theorem ensures_add_limit (a b : Nat) :
    Ensures (fun c => c = .overflow ∧ limit ≤ a + b) (add a b) (· = a + b) := by
  unfold add fit
  split
  · rfl
  · rename_i hge
    exact ⟨rfl, Nat.le_of_not_lt hge⟩

theorem ensures_mul (a b : Nat) : Ensures (· = .overflow) (mul a b) (· = a * b) :=
  ensures_fit (a * b)

theorem ensures_sum (ns : List Nat) : Ensures (· = .overflow) (sum ns) fun _ => True :=
  Ensures.foldlM_end (fun n _ m => (ensures_add m n).imp fun _ _ _ => trivial) 0

theorem ensures_sub (a b : Nat) : Ensures (· = .overflow) (sub a b) (· = a - b) := by
  unfold sub
  split
  · rfl
  · rfl

section Bind

variable {α : Type} {a b : Nat} {f : Nat → Except Fault α} {y : α}

theorem add_bind_eq_ok : (add a b >>= f) = .ok y ↔ a + b < limit ∧ f (a + b) = .ok y := by
  simp only [bind_eq_ok, add_eq_ok_iff]
  grind

theorem mul_bind_eq_ok : (mul a b >>= f) = .ok y ↔ a * b < limit ∧ f (a * b) = .ok y := by
  simp only [bind_eq_ok, mul_eq_ok_iff]
  grind

theorem sub_bind_eq_ok : (sub a b >>= f) = .ok y ↔ b ≤ a ∧ f (a - b) = .ok y := by
  simp only [bind_eq_ok, sub_eq_ok_iff]
  grind

end Bind

end Word

end CycleBounds
