import CycleBounds.Fault
import CycleBounds.Word

/-!
# Loop contexts

A block inside loops is analysed separately for the first iteration of each enclosing loop and for
its later, steady iterations. A `Context` says which of the two holds for every enclosing loop. It
is stored as a binary number with one digit per loop, outermost loop first, where a steady
iteration is a one.

* `enter` and `leave?` add and drop the innermost loop.
* `iterations` lists the digits and `ofIterations` reads them back.
* `slice` enumerates the contexts of one depth in the order of their index.
* Contexts are ordered by depth, then by index.
-/

namespace CycleBounds

inductive Iteration where
  | first
  | steady
deriving DecidableEq, Repr

namespace Iteration

def digit : Iteration → Nat
  | .first => 0
  | .steady => 1

def ofDigit (d : Nat) : Iteration :=
  if d = 1 then .steady else .first

def letter : Iteration → String
  | .first => "F"
  | .steady => "S"

def name : Iteration → String
  | .first => "First"
  | .steady => "Steady"

theorem digit_lt_two (it : Iteration) : it.digit < 2 := by
  cases it <;> decide

end Iteration

/-- The iterations of all loops around a block, as the `index` of a `depth`-digit binary number. -/
structure Context where
  depth : Nat
  index : Nat
  index_lt : index < twoPow depth
deriving DecidableEq

namespace Context

def maxDepth : Nat := 63

def root : Context := ⟨0, 0, by decide⟩

instance : Inhabited Context := ⟨root⟩

/-- The context one loop further in, whatever the depth. -/
def nest (c : Context) (it : Iteration) : Context where
  depth := c.depth + 1
  index := c.index * 2 + it.digit
  index_lt := by
    have h := c.index_lt
    have hd := it.digit_lt_two
    rw [twoPow_succ]
    omega

/-- The context inside a further loop, during iteration `it` of it. -/
def enter (c : Context) (it : Iteration) : Except Fault Context :=
  if c.depth < maxDepth then .ok (c.nest it) else .error (.defect .nestingTooDeep)

/-- The context around the innermost loop; there is none outside of all loops. -/
def leave? (c : Context) : Option Context :=
  match c with
  | ⟨0, _, _⟩ => none
  | ⟨d + 1, i, h⟩ => some ⟨d, i / 2, by rw [twoPow_succ] at h; omega⟩

def ofIterations (its : List Iteration) : Except Fault Context :=
  its.foldlM enter root

def innermost? (c : Context) : Option Iteration :=
  if c.depth = 0 then none else some (.ofDigit (c.index % 2))

/-- The last `depth` binary digits of a number, most significant first. -/
def digits : (depth index : Nat) → List Iteration
  | 0, _ => []
  | d + 1, i => digits d (i / 2) ++ [.ofDigit (i % 2)]

/-- The iterations of all enclosing loops, outermost first. -/
def iterations (c : Context) : List Iteration :=
  digits c.depth c.index

/-- The context at a position among those of its depth. -/
def ofIndex? (depth index : Nat) : Option Context :=
  if h : index < twoPow depth then some ⟨depth, index, h⟩ else none

/-- Up to `count` contexts of one depth, from position `start` on. -/
def slice (depth start count : Nat) : Except Fault (List Context) :=
  if depth < maxDepth then
    .ok ((List.range' start (min count (twoPow depth - start))).filterMap (ofIndex? depth))
  else
    .error (.defect .nestingTooDeep)

def all (depth : Nat) : Except Fault (List Context) :=
  slice depth 0 (twoPow depth)

/-- The text of a context: the initials of its iterations, as in `[F,S]`. -/
def text (c : Context) : String :=
  "[" ++ ",".intercalate (c.iterations.map Iteration.letter) ++ "]"

/-! ### The order of contexts -/

instance : Ord Context where
  compare := compareLex (compareOn depth) (compareOn index)

instance : Std.TransOrd Context :=
  inferInstanceAs (Std.TransCmp (compareLex (compareOn depth) (compareOn index)))

instance : Std.LawfulEqOrd Context where
  eq_of_compare {a b} h := by
    have h : compareLex (compareOn depth) (compareOn index) a b = .eq := h
    simp only [compareLex, compareOn, Ordering.then_eq_eq, Std.LawfulEqOrd.compare_eq_iff_eq] at h
    cases a
    cases b
    simp_all

end Context

end CycleBounds
