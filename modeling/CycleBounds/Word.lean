import CycleBounds.Fault

/-!
# Cycle counts

Times, costs, counts and ages are natural numbers below `Word.limit`. A sum, difference or product
that leaves this range is a `Fault.overflow`; one that stays in it is the plain result on `Nat`. A
bound on such a number is taken over the cheapest or over the dearest course of events.
-/

namespace CycleBounds

/-! ### Powers of two -/

def twoPow (n : Nat) : Nat := Nat.pow 2 n

@[simp] theorem twoPow_zero : twoPow 0 = 1 := rfl

theorem twoPow_succ (n : Nat) : twoPow (n + 1) = twoPow n * 2 := rfl

theorem twoPow_pos (n : Nat) : 0 < twoPow n :=
  Nat.two_pow_pos n

@[simp] theorem log2_twoPow (n : Nat) : (twoPow n).log2 = n :=
  Nat.log2_two_pow

/-! ### Checked arithmetic -/

namespace Word

def limit : Nat := twoPow 64

def largest : Nat := limit - 1

/-- A result, provided that it fits. -/
def fit (n : Nat) : Except Fault Nat :=
  if n < limit then .ok n else .error .overflow

def add (a b : Nat) : Except Fault Nat :=
  fit (a + b)

def mul (a b : Nat) : Except Fault Nat :=
  fit (a * b)

/-- The difference, provided that it is not negative. -/
def sub (a b : Nat) : Except Fault Nat :=
  if b ≤ a then .ok (a - b) else .error .overflow

def sum (ns : List Nat) : Except Fault Nat :=
  ns.foldlM add 0

theorem fit_eq_ok_iff {n r : Nat} : fit n = .ok r ↔ n < limit ∧ r = n := by
  by_cases h : n < limit
  · simp [fit, h, eq_comm]
  · simp [fit, h]

theorem add_eq_ok_iff {a b r : Nat} : add a b = .ok r ↔ a + b < limit ∧ r = a + b :=
  fit_eq_ok_iff

theorem mul_eq_ok_iff {a b r : Nat} : mul a b = .ok r ↔ a * b < limit ∧ r = a * b :=
  fit_eq_ok_iff

theorem sub_eq_ok_iff {a b r : Nat} : sub a b = .ok r ↔ b ≤ a ∧ r = a - b := by
  by_cases h : b ≤ a
  · simp [sub, h, eq_comm]
  · simp [sub, h]

end Word

/-! ### Scenarios -/

/-- The course of events that a bound speaks about. -/
inductive Scenario where
  | best
  | worst
deriving DecidableEq, Repr

def Scenario.name : Scenario → String
  | .best => "Bcet"
  | .worst => "Wcet"

/-- Whether a value is more extreme than another: smaller at best, larger at worst. -/
def Scenario.exceeds : Scenario → Nat → Nat → Bool
  | .best, a, b => a < b
  | .worst, a, b => b < a

end CycleBounds
