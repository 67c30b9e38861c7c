import CycleBounds.Cache.State

/-!
# Directories of cache lines

A cache set has a way for every age, the youngest first, and each way lists the lines of its age.
A `Directory` keeps such lists for all sets of a cache and all domains, where a `State` keeps the
age of every line.

* `Ways.touch` takes a line out of its way, moves the younger ways back by one, the oldest of them
  first, and puts the line into the youngest way.
* `Ways.combine` goes through the lines of one side, and then through those that only the other
  side has.
* `Directory.access`, `accessMaybe` and `join` do so in the set of a line, or in all sets.
-/

namespace CycleBounds.Cache

/-! ### The ways of a set -/

/-- The lines of each age, the youngest first. -/
abbrev Ways := List (KeySet Nat)

namespace Ways

def empty (ages : Nat) : Ways :=
  List.replicate ages ∅

/-- The age of a line: its first way. -/
def age? (w : Ways) (line : Nat) : Option Nat :=
  w.findIdx? fun way => way.contains line

def lines (w : Ways) : List (Nat × Nat) :=
  w.zipIdx.flatMap fun (way, age) => way.keys.map fun line => (age, line)

def isEmpty (w : Ways) : Bool :=
  w.all fun way => Table.isEmpty way

def add (w : Ways) (age line : Nat) : Ways :=
  w.modify age fun way => way.insert line ()

def remove (w : Ways) (age line : Nat) : Ways :=
  w.modify age fun way => way.erase line

/-- Move the lines of one way into the next older one. Those of the oldest way drop out, unless the
rule keeps them. -/
def shift (rule : Aging) (w : Ways) (age : Nat) : Ways :=
  let moved := w.getD age ∅
  let others := w.set age ∅
  if age + 1 < rule.ages then others.modify (age + 1) (KeySet.union · moved)
  else if rule.sticky then others.modify age (KeySet.union · moved)
  else others

/-- Move the lines of all ways below an age, the oldest of these ways first. -/
def growOlder (rule : Aging) : Nat → Ways → Ways
  | 0, w => w
  | age + 1, w => growOlder rule age (w.shift rule age)

/-- Take a line out of its way. -/
def without (w : Ways) (line : Nat) : Ways :=
  match w.age? line with
  | some age => w.remove age line
  | none => w

def touch (rule : Aging) (w : Ways) (line : Nat) : Ways :=
  ((w.without line).growOlder rule (rule.limit (w.age? line))).add 0 line

/-- Put each of the given lines into the way that `place` finds for it, if there is one. -/
def fill (place : Nat → Nat → Option Nat) (lines : List (Nat × Nat)) (w : Ways) : Ways :=
  lines.foldl (fun w (age, line) =>
    match place age line with
    | some new => w.add new line
    | none => w) w

/-- Combine two sides line by line. A line of both sides is put at the age that `pick` chooses, a
line of one side is kept if `union` is set. -/
def combine (union : Bool) (pick : Nat → Nat → Nat) (w v : Ways) : Ways :=
  let own := fill (fun age line =>
    match v.age? line with
    | some other => some (pick age other)
    | none => if union then some age else none) w.lines (empty w.length)
  if union then
    fill (fun age line => if (w.age? line).isNone then some age else none) v.lines own
  else
    own

end Ways

/-! ### Sets -/

structure SetWays where
  must : Ways
  may : Ways
  persistence : Ways
deriving DecidableEq

namespace SetWays

def empty (c : Config) : SetWays where
  must := .empty (Domain.must.aging c).ages
  may := .empty (Domain.may.aging c).ages
  persistence := .empty (Domain.persistence.aging c).ages

def ways (s : SetWays) : Domain → Ways
  | .must => s.must
  | .may => s.may
  | .persistence => s.persistence

def isEmpty (s : SetWays) : Bool :=
  s.must.isEmpty && s.may.isEmpty && s.persistence.isEmpty

def access (c : Config) (s : SetWays) (line : Nat) : SetWays where
  must := s.must.touch (Domain.must.aging c) line
  may := s.may.touch (Domain.may.aging c) line
  persistence := s.persistence.touch (Domain.persistence.aging c) line

def join (s t : SetWays) : SetWays where
  must := s.must.combine false max t.must
  may := s.may.combine true min t.may
  persistence := s.persistence.combine true max t.persistence

end SetWays

/-! ### Directories -/

/-- The ways of all sets of a cache. -/
abbrev Directory := List SetWays

namespace Directory

def empty (c : Config) : Directory :=
  List.replicate c.sets (.empty c)

def access (c : Config) (dir : Directory) (address : Nat) : Directory :=
  dir.modify (c.setOfAddress address) fun s => s.access c (c.line address)

/-- The directory after a fetch that may or may not happen. Only the set of the line is merged. -/
def accessMaybe (c : Config) (dir : Directory) (address : Nat) : Directory :=
  dir.modify (c.setOfAddress address) fun s => s.join (s.access c (c.line address))

def join (dir dir' : Directory) : Directory :=
  List.zipWith SetWays.join dir dir'

def ageLine? (c : Config) (dir : Directory) (d : Domain) (line : Nat) : Option Nat :=
  dir[c.setOf line]?.bind fun s => (s.ways d).age? line

def age? (c : Config) (dir : Directory) (d : Domain) (address : Nat) : Option Nat :=
  dir.ageLine? c d (c.line address)

def classify (c : Config) (dir : Directory) (address : Nat) : Access :=
  match dir.age? c .must address with
  | some age => .alwaysHit age
  | none =>
    if (dir.age? c .may address).isNone then .alwaysMiss
    else if (dir.age? c .persistence address).any (· < c.ways) then .firstMiss
    else .unknown

/-- The lines of one set with their ages in one domain, the younger ones first. -/
def linesIn (dir : Directory) (d : Domain) (set : Nat) : Except Fault (List (Nat × Nat)) := do
  return ((← entryAt dir set).ways d).lines

def usedSets (dir : Directory) : List (Nat × SetWays) :=
  (dir.zipIdx.filter fun (s, _) => !s.isEmpty).map fun (s, i) => (i, s)

end Directory

end CycleBounds.Cache
