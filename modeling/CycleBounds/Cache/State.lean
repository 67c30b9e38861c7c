import CycleBounds.Cache.Access
import CycleBounds.Cache.Ages

/-!
# Abstract cache states

A state stands for the caches that an execution may leave behind. It bounds the ages of lines in
three domains.

* *Must*: these lines are cached, at most as old as stated.
* *May*: no other lines are cached, and these are at least as old as stated.
* *Persistence*: how old a line may have become since it was loaded; the last age is for lines that
  may have been evicted since.

`access` follows a fetch, `accessMaybe` a fetch that may or may not happen, `join` a merge of
control flow, and `classify` reads off what is known about a fetch.
-/

namespace CycleBounds.Cache

inductive Domain where
  | must
  | may
  | persistence
deriving DecidableEq, Repr

/-- The rule by which the lines of a domain grow older. -/
def Domain.aging (c : Config) : Domain → Aging
  | .must => { ages := c.ways, inclusive := false, sticky := false }
  | .may => { ages := c.ways, inclusive := true, sticky := false }
  | .persistence => { ages := c.ways + 1, inclusive := false, sticky := true }

/-- Bounds on the ages of cached lines. -/
structure State where
  must : Ages
  may : Ages
  persistence : Ages
deriving DecidableEq

namespace State

def empty : State := ⟨∅, ∅, ∅⟩

instance : Inhabited State := ⟨empty⟩

def ages (s : State) : Domain → Ages
  | .must => s.must
  | .may => s.may
  | .persistence => s.persistence

def accessLine (c : Config) (s : State) (line : Nat) : State where
  must := s.must.touch c (Domain.must.aging c) line
  may := s.may.touch c (Domain.may.aging c) line
  persistence := s.persistence.touch c (Domain.persistence.aging c) line

def access (c : Config) (s : State) (address : Nat) : State :=
  s.accessLine c (c.line address)

/-- The state where two paths meet. -/
def join (s t : State) : State where
  must := s.must.meet max t.must
  may := s.may.union min t.may
  persistence := s.persistence.union max t.persistence

def onlySet (c : Config) (s : State) (set : Nat) : State where
  must := s.must.onlySet c set
  may := s.may.onlySet c set
  persistence := s.persistence.onlySet c set

/-- The lines of one set as `own` has them, and those of all other sets as they are. -/
def withSet (c : Config) (s : State) (set : Nat) (own : State) : State where
  must := s.must.withSet c set own.must
  may := s.may.withSet c set own.may
  persistence := s.persistence.withSet c set own.persistence

/-- The state after a fetch that may or may not happen: in the set of the line, the paths with and
without it meet. -/
def accessMaybe (c : Config) (s : State) (address : Nat) : State :=
  let set := c.setOfAddress address
  let own := s.onlySet c set
  s.withSet c set (own.join (own.access c address))

def age? (c : Config) (s : State) (d : Domain) (address : Nat) : Option Nat :=
  (s.ages d).get? (c.line address)

def classifyLine (c : Config) (s : State) (line : Nat) : Access :=
  match s.must.get? line with
  | some age => .alwaysHit age
  | none =>
    if (s.may.get? line).isNone then .alwaysMiss
    else if (s.persistence.get? line).any (· < c.ways) then .firstMiss
    else .unknown

def classify (c : Config) (s : State) (address : Nat) : Access :=
  s.classifyLine c (c.line address)

def usedSets (c : Config) (s : State) : List Nat :=
  let lines := s.must.keys ++ s.may.keys ++ s.persistence.keys
  (KeySet.ofList (lines.map c.setOf)).keys

/-! ### Fetches that may happen -/

variable {c : Config} {d : Domain} {s s' t t' : State} {l : Nat}

/-- States are equal if they agree about all lines in all domains. -/
@[ext] theorem ext (h : ∀ d l, (s.ages d).get? l = (t.ages d).get? l) : s = t := by
  have hages : ∀ d, s.ages d = t.ages d := fun d => Table.ext (h d)
  obtain ⟨must, may, persistence⟩ := s
  obtain ⟨must', may', persistence'⟩ := t
  obtain rfl : must = must' := hages .must
  obtain rfl : may = may' := hages .may
  obtain rfl : persistence = persistence' := hages .persistence
  rfl

theorem ages_accessLine (s : State) (x : Nat) (d : Domain) :
    (s.accessLine c x).ages d = (s.ages d).touch c (d.aging c) x := by
  cases d <;> rfl

theorem ages_onlySet (c : Config) (s : State) (set : Nat) (d : Domain) :
    (s.onlySet c set).ages d = (s.ages d).onlySet c set := by
  cases d <;> rfl

theorem ages_withSet (c : Config) (s : State) (set : Nat) (own : State) (d : Domain) :
    (s.withSet c set own).ages d = (s.ages d).withSet c set (own.ages d) := by
  cases d <;> rfl

/-- A join combines the ages of each line in each domain by themselves. -/
theorem get?_join_congr (hs : (s.ages d).get? l = (s'.ages d).get? l)
    (ht : (t.ages d).get? l = (t'.ages d).get? l) :
    ((s.join t).ages d).get? l = ((s'.join t').ages d).get? l := by
  cases d with
  | must =>
    simp only [ages] at hs ht
    simp only [ages, join, Ages.get?_meet, hs, ht]
  | may | persistence =>
    simp only [ages] at hs ht
    simp only [ages, join, Ages.get?_union, hs, ht]

theorem join_self (s : State) : s.join s = s := by
  rw [join, Ages.meet_self Nat.max_self, Ages.union_self Nat.min_self,
    Ages.union_self Nat.max_self]

/-- A fetch leaves the other sets as they are. -/
theorem get?_accessLine_of_ne (s : State) (d : Domain) {x : Nat} (hset : c.setOf l ≠ c.setOf x) :
    ((s.accessLine c x).ages d).get? l = (s.ages d).get? l := by
  have hne : l ≠ x := fun heq => hset (congrArg c.setOf heq)
  rw [ages_accessLine, Ages.get?_touch, if_neg hne, if_neg hset]

/-- To follow a fetch it is enough to know the lines of its set. -/
theorem get?_accessLine_onlySet (s : State) (d : Domain) {x : Nat}
    (hset : c.setOf l = c.setOf x) :
    (((s.onlySet c (c.setOf x)).accessLine c x).ages d).get? l =
      ((s.accessLine c x).ages d).get? l := by
  simp only [ages_accessLine, ages_onlySet, Ages.get?_touch, Ages.get?_onlySet, hset, if_true]

/-- A fetch that may happen leaves the other sets as they are. -/
theorem get?_accessMaybe_of_ne (s : State) (d : Domain) {address : Nat}
    (hset : c.setOf l ≠ c.setOfAddress address) :
    ((s.accessMaybe c address).ages d).get? l = (s.ages d).get? l := by
  rw [accessMaybe, ages_withSet, Ages.get?_withSet, if_neg hset]

/-- The state after a fetch that may happen is where the states with and without it meet. The lines
of all other sets meet themselves there. -/
theorem accessMaybe_eq_join (c : Config) (s : State) (address : Nat) :
    s.accessMaybe c address = s.join (s.access c address) := by
  refine ext fun d l => ?_
  by_cases hset : c.setOf l = c.setOfAddress address
  · rw [accessMaybe, ages_withSet, Ages.get?_withSet, if_pos hset]
    refine get?_join_congr ?_ (get?_accessLine_onlySet s d hset)
    rw [ages_onlySet, Ages.get?_onlySet, if_pos hset]
  · calc ((s.accessMaybe c address).ages d).get? l
        = (s.ages d).get? l := get?_accessMaybe_of_ne s d hset
      _ = ((s.join s).ages d).get? l := by rw [join_self]
      _ = ((s.join (s.access c address)).ages d).get? l :=
        get?_join_congr rfl (get?_accessLine_of_ne s d hset).symm

end State

end CycleBounds.Cache
