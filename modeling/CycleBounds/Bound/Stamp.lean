import CycleBounds.Bus.Tracker
import CycleBounds.Cache.Classification
import CycleBounds.Offset.Solver

/-!
# Time stamps

What a timing run computes: when blocks and procedures start and finish, and the offset graphs of
the loops that were bounded by one. A block or procedure that runs more than once keeps the times of
its latest run.
-/

namespace CycleBounds.Bound

inductive TimingError where
  | solver (procedure loop : Nat) (cause : Offset.SolverError)
deriving DecidableEq, Repr

def TimingError.message : TimingError → String
  | .solver procedure loop _ => s!"failed to bound loop L{loop} of procedure P{procedure}"

structure Timing where
  start : Nat
  finish : Nat
  cost : Nat
deriving DecidableEq, Repr

/-- The time of one run of a block, and the transfer that matters for what follows. -/
structure Stamp where
  start : Nat
  finish : Nat
  bus : Bus.Tracker
deriving DecidableEq, Repr

/-- A moment at which nothing has happened yet. -/
def Stamp.moment (time : Nat) : Stamp := ⟨time, time, .start⟩

structure Spot where
  procedure : Nat
  block : Nat
deriving DecidableEq, Repr

namespace Spot

instance : Ord Spot where
  compare := compareLex (compareOn procedure) (compareOn block)

instance : Std.TransOrd Spot :=
  inferInstanceAs (Std.TransCmp (compareLex (compareOn procedure) (compareOn block)))

instance : Std.LawfulEqOrd Spot where
  eq_of_compare {a b} h := by
    have h : compareLex (compareOn procedure) (compareOn block) a b = .eq := h
    simp only [compareLex, compareOn, Ordering.then_eq_eq, Std.LawfulEqOrd.compare_eq_iff_eq] at h
    cases a
    cases b
    simp_all

end Spot

structure Ledger where
  /-- Start and finish of blocks. -/
  blocks : Table Spot (Nat × Nat)
  procedures : Table Nat Timing
  /-- The offset graphs of loops, in the order in which they were solved. -/
  graphs : List (Nat × Nat × Offset.Graph)
  /-- The costs of a first and of a steady iteration of loops that were summarised already, by the
  place of their headers. -/
  summaries : Table Cache.Place (Nat × Nat)

def Ledger.empty : Ledger := ⟨∅, ∅, [], ∅⟩

/-- The results so far, and the stamps of the blocks of the procedure at hand. -/
structure Progress where
  times : Table Nat Stamp
  ledger : Ledger

/-- Stamp a block. Times relative to the start of an iteration are not results. -/
def Progress.stamp (p : Progress) (relative : Bool) (procedure block : Nat) (s : Stamp) :
    Progress where
  times := p.times.insert block s
  ledger :=
    if relative then p.ledger
    else { p.ledger with
      blocks := p.ledger.blocks.insert ⟨procedure, block⟩ (s.start, s.finish) }

end CycleBounds.Bound
