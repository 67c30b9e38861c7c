import CycleBounds.Cache.Config
import CycleBounds.Table

/-!
# Ages of cache lines

In a least-recently-used cache set, the age of a line is the number of lines used since. `Ages`
gives lines an age each, and lines without one are absent. A touch makes a line the youngest of its
set and lets others of the set grow older by one; an `Aging` rule says which, and what becomes of
the oldest.

* `touch` is the update by one access (`get?_touch`).
* `meet` and `union` combine two such maps line by line (`get?_meet`, `get?_union`).
* `onlySet` and `withSet` take the lines of one set out and put them back (`get?_withSet`).
-/

namespace CycleBounds.Cache

abbrev Ages := Table Nat Nat

/-- How lines grow older when another line of their set is touched. -/
structure Aging where
  /-- Ages lie below this number. -/
  ages : Nat
  /-- Lines of the same age as the touched one grow older, too. -/
  inclusive : Bool
  /-- Lines of the highest age keep it instead of dropping out. -/
  sticky : Bool
deriving DecidableEq, Repr

namespace Aging

/-- The lines below this age grow older when a line of the given age is touched. -/
def limit (rule : Aging) : Option Nat → Nat
  | none => rule.ages
  | some age => if rule.inclusive then min (age + 1) rule.ages else age

/-- The new age of a line of the same set. -/
def grow (rule : Aging) (limit age : Nat) : Option Nat :=
  if age < limit then
    if age + 1 < rule.ages then some (age + 1)
    else if rule.sticky then some age
    else none
  else
    some age

end Aging

namespace Ages

def touch (c : Config) (rule : Aging) (t : Ages) (line : Nat) : Ages :=
  let limit := rule.limit (t.get? line)
  (t.filterMap fun l age =>
    if c.setOf l = c.setOf line then rule.grow limit age else some age).insert line 0

/-- The lines of both sides, at the age that `pick` chooses. -/
def meet (pick : Nat → Nat → Nat) (s t : Ages) : Ages :=
  s.mergeWith (fun
    | some a, some b => some (pick a b)
    | _, _ => none) t

/-- The lines of either side; one that both have is at the age that `pick` chooses. -/
def union (pick : Nat → Nat → Nat) (s t : Ages) : Ages :=
  s.mergeWith (fun
    | some a, some b => some (pick a b)
    | some a, none => some a
    | none, b => b) t

def onlySet (c : Config) (t : Ages) (set : Nat) : Ages :=
  t.filterMap fun l age => if c.setOf l = set then some age else none

/-- The lines of one set as `own` has them, and those of all other sets as they are. -/
def withSet (c : Config) (t : Ages) (set : Nat) (own : Ages) : Ages :=
  (own.onlySet c set).union max
    (t.filterMap fun l age => if c.setOf l = set then none else some age)

theorem get?_touch (c : Config) (rule : Aging) (t : Ages) (line l : Nat) :
    (t.touch c rule line).get? l =
      if l = line then some 0
      else if c.setOf l = c.setOf line then
        (t.get? l).bind (rule.grow (rule.limit (t.get? line)))
      else t.get? l := by
  simp only [touch, Table.get?_insert, Table.get?_filterMap, Std.LawfulEqOrd.compare_eq_iff_eq]
  split
  · rfl
  · split
    · rfl
    · cases t.get? l <;> rfl

theorem get?_meet (pick : Nat → Nat → Nat) (s t : Ages) (l : Nat) :
    (s.meet pick t).get? l = match s.get? l, t.get? l with
      | some a, some b => some (pick a b)
      | _, _ => none :=
  Table.get?_mergeWith rfl s t l

theorem get?_union (pick : Nat → Nat → Nat) (s t : Ages) (l : Nat) :
    (s.union pick t).get? l = match s.get? l, t.get? l with
      | some a, some b => some (pick a b)
      | some a, none => some a
      | none, b => b :=
  Table.get?_mergeWith rfl s t l

theorem get?_onlySet (c : Config) (t : Ages) (set l : Nat) :
    (t.onlySet c set).get? l = if c.setOf l = set then t.get? l else none := by
  rw [onlySet, Table.get?_filterMap]
  cases t.get? l <;> simp

theorem get?_withSet (c : Config) (t : Ages) (set : Nat) (own : Ages) (l : Nat) :
    (t.withSet c set own).get? l = if c.setOf l = set then own.get? l else t.get? l := by
  rw [withSet, get?_union, get?_onlySet, Table.get?_filterMap]
  by_cases hset : c.setOf l = set
  · cases own.get? l <;> cases t.get? l <;> simp [hset]
  · cases t.get? l <;> simp [hset]

theorem meet_self {pick : Nat → Nat → Nat} (hpick : ∀ a, pick a a = a) (s : Ages) :
    s.meet pick s = s := by
  ext l
  rw [get?_meet]
  cases s.get? l <;> simp [hpick]

theorem union_self {pick : Nat → Nat → Nat} (hpick : ∀ a, pick a a = a) (s : Ages) :
    s.union pick s = s := by
  ext l
  rw [get?_union]
  cases s.get? l <;> simp [hpick]

def ways (c : Config) (rule : Aging) (t : Ages) (set : Nat) : List (List Nat) :=
  (List.range rule.ages).map fun age =>
    (t.entries.filter fun e => c.setOf e.1 = set ∧ e.2 = age).map (·.1)

end Ages

end CycleBounds.Cache
