import CycleBounds.Event

/-!
# Traced computations

A traced computation has a result and a log. The log is kept when the computation stops, and it
never has a part in the result: `result_bind` computes the result of a sequence from results alone.

* `emit` writes one event.
* `iterate` repeats a step, in constant stack space (`iterate_succ`).
-/

namespace CycleBounds

/-- A result or the cause why there is none, and what was reported on the way. -/
structure Traced (ε α : Type) where
  result : Except ε α
  log : List Event

namespace Traced

variable {ε δ α β σ : Type}

protected def pure (a : α) : Traced ε α := ⟨.ok a, []⟩

protected def bind (x : Traced ε α) (f : α → Traced ε β) : Traced ε β :=
  match x with
  | ⟨.ok a, log⟩ =>
    let y := f a
    ⟨y.result, log ++ y.log⟩
  | ⟨.error e, log⟩ => ⟨.error e, log⟩

instance : Monad (Traced ε) where
  pure := Traced.pure
  bind := Traced.bind

def emit (e : Event) : Traced ε Unit := ⟨.ok (), [e]⟩

def ofExcept (x : Except ε α) : Traced ε α := ⟨x, []⟩

def mapError (f : ε → δ) (x : Traced ε α) : Traced δ α :=
  ⟨x.result.mapError f, x.log⟩

instance : MonadLift (Except ε) (Traced ε) where
  monadLift := ofExcept

instance : MonadLift (Traced Fault) (Traced (Failure ε)) where
  monadLift := mapError .fault

@[simp] theorem result_pure (a : α) : (pure a : Traced ε α).result = .ok a := rfl

@[simp] theorem log_pure (a : α) : (pure a : Traced ε α).log = [] := rfl

@[simp] theorem result_bind (x : Traced ε α) (f : α → Traced ε β) :
    (x >>= f).result = x.result >>= fun a => (f a).result := by
  obtain ⟨x, log⟩ := x
  cases x <;> rfl

@[simp] theorem result_emit (e : Event) : (emit e : Traced ε Unit).result = .ok () := rfl

@[simp] theorem result_ofExcept (x : Except ε α) : (ofExcept x).result = x := rfl

theorem map_id_eq (x : Traced ε α) : id <$> x = x := by
  obtain ⟨x, log⟩ := x
  cases x <;> simp [Functor.map, Traced.bind, Traced.pure]

theorem pure_bind_eq (a : α) (f : α → Traced ε β) : pure a >>= f = f a := by
  simp [pure, bind, Traced.pure, Traced.bind]

theorem bind_assoc_eq (x : Traced ε α) (f : α → Traced ε β) (g : β → Traced ε σ) :
    x >>= f >>= g = x >>= fun a => f a >>= g := by
  obtain ⟨x, log⟩ := x
  cases x with
  | error e => rfl
  | ok a =>
    simp only [bind, Traced.bind]
    obtain ⟨y, log'⟩ := f a
    cases y <;> simp

instance : LawfulMonad (Traced ε) :=
  LawfulMonad.mk' (Traced ε) map_id_eq pure_bind_eq bind_assoc_eq

/-! ### Repetition -/

/-- Repeat a step, `before` being the events so far, latest first. -/
def iterateAfter (f : σ → Traced ε σ) : Nat → List Event → σ → Traced ε σ
  | 0, before, s => ⟨.ok s, before.reverse⟩
  | n + 1, before, s =>
    match f s with
    | ⟨.ok t, log⟩ => iterateAfter f n (log.reverse ++ before) t
    | ⟨.error e, log⟩ => ⟨.error e, (log.reverse ++ before).reverse⟩

def iterate (f : σ → Traced ε σ) (n : Nat) (s : σ) : Traced ε σ :=
  iterateAfter f n [] s

theorem iterateAfter_eq (f : σ → Traced ε σ) (n : Nat) (before : List Event) (s : σ) :
    iterateAfter f n before s =
      ⟨(iterate f n s).result, before.reverse ++ (iterate f n s).log⟩ := by
  suffices h : ∀ before s, iterateAfter f n before s =
      ⟨(iterateAfter f n [] s).result, before.reverse ++ (iterateAfter f n [] s).log⟩ from
    h before s
  induction n with
  | zero => simp [iterateAfter]
  | succ n ih =>
    intro before s
    simp only [iterateAfter]
    obtain ⟨x, log⟩ := f s
    cases x with
    | error e => simp
    | ok t =>
      simp only [List.append_nil]
      rw [ih (log.reverse ++ before), ih log.reverse]
      simp

@[simp] theorem iterate_zero (f : σ → Traced ε σ) (s : σ) : iterate f 0 s = pure s := rfl

theorem iterate_succ (f : σ → Traced ε σ) (n : Nat) (s : σ) :
    iterate f (n + 1) s = f s >>= iterate f n := by
  simp only [iterate, iterateAfter, bind]
  obtain ⟨x, log⟩ := f s
  cases x with
  | error e => simp [Traced.bind]
  | ok t => simp [Traced.bind, iterateAfter_eq f n log.reverse t, iterate]

end Traced

end CycleBounds
