/-!
# Nested loops

A `Nest` gives the blocks of all loops of a procedure, loop by loop. In a proper nest any two loops
are disjoint or one lies in the other, so the loops around a block form a chain. The smallest loop
around a loop is its parent, the number of steps from parent to parent is its level, and the loop
of the highest level around a block is the innermost one.
-/

namespace CycleBounds.Code

/-- The blocks of every loop, in ascending order. -/
abbrev Nest := List (List Nat)

namespace Nest

/-- Every block of `xs` is one of `ys`. -/
def within (xs ys : List Nat) : Bool :=
  xs.all ys.contains

def strictlyWithin (xs ys : List Nat) : Bool :=
  xs.length < ys.length ∧ within xs ys

def disjoint (xs ys : List Nat) : Bool :=
  xs.all fun x => !ys.contains x

/-- Two loops share blocks and neither lies in the other. -/
def overlap (xs ys : List Nat) : Bool :=
  !disjoint xs ys ∧ !strictlyWithin ys xs ∧ !strictlyWithin xs ys

def overlapping? (nest : Nest) : Option (Nat × Nat) :=
  nest.zipIdx.findSome? fun (xs, i) =>
    nest.zipIdx.findSome? fun (ys, j) =>
      if i ≠ j ∧ overlap xs ys then some (i, j) else none

/-- Go through the first loops and keep the best of those selected: a loop takes the place of
another one if it wins against it. -/
def best (loops : Nat) (select : Nat → Bool) (wins : Nat → Nat → Bool) : Option Nat :=
  (List.range loops).foldl (fun best i =>
    if select i ∧ best.all (wins i) then some i else best) none

/-- The loop with the fewest blocks among those selected, the first one if there are several. -/
def smallest (nest : Nest) (select : List Nat → Bool) : Option Nat :=
  best nest.length (fun i => select (nest.getD i []))
    fun i j => (nest.getD i []).length < (nest.getD j []).length

/-- The smallest loop around a loop with the given blocks. -/
def parent (nest : Nest) (blocks : List Nat) : Option Nat :=
  nest.smallest (strictlyWithin blocks)

/-- The number of loops on the way from parent to parent, `n` at most. -/
def climb (parents : List (Option Nat)) : (n : Nat) → Option Nat → Nat
  | n + 1, some i => climb parents n (parents.getD i none) + 1
  | _, _ => 0

/-- How many parents each loop has, one above the other. -/
def levels (nest : Nest) : List Nat :=
  let parents := nest.map nest.parent
  parents.map (climb parents parents.length)

/-- The loop of the highest level around a block, the first one if there are several. -/
def deepest (nest : Nest) (levels : List Nat) (block : Nat) : Option Nat :=
  best nest.length (fun i => (nest.getD i []).contains block)
    fun i j => levels.getD j 0 < levels.getD i 0

def innermost (nest : Nest) (block : Nat) : Option Nat :=
  nest.deepest nest.levels block

end Nest

end CycleBounds.Code
