import CycleBounds.Table

/-!
# Footprints

The lines that a task fetches at one cache level, grouped by cache set. Two tasks that share the
level disturb each other only in sets that both use.
-/

namespace CycleBounds.Cache

structure Footprint where
  sets : Table Nat (KeySet Nat)
deriving DecidableEq

namespace Footprint

def empty : Footprint := ⟨∅⟩

instance : Inhabited Footprint := ⟨empty⟩

def inSet (f : Footprint) (set : Nat) : KeySet Nat :=
  (f.sets.get? set).getD ∅

def record (f : Footprint) (set line : Nat) : Footprint :=
  ⟨f.sets.insert set ((f.inSet set).insert line ())⟩

def uses (f : Footprint) (set : Nat) : Bool :=
  f.sets.contains set

def lines (f : Footprint) (set : Nat) : List Nat :=
  (f.inSet set).keys

def usedSets (f : Footprint) : List Nat :=
  f.sets.keys

def conflicts (f g : Footprint) : List Nat :=
  f.usedSets.filter g.uses

/-- How many lines the others use in a set that `f` does not use itself. -/
def foreignLines (f : Footprint) (set : Nat) (others : List Footprint) : Nat :=
  let lines := others.flatMap fun g => g.lines set
  (lines.filter fun l => !(f.inSet set).contains l).eraseDups.length

end Footprint

end CycleBounds.Cache
