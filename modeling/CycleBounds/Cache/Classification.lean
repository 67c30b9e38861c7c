import CycleBounds.Cache.Access
import CycleBounds.Cache.Footprint
import CycleBounds.Table
import CycleBounds.Word

/-!
# Classifications

The result of a cache analysis at one level: for every block, in every context in which it runs,
the classes of its fetches. A block that is analysed again in the same context keeps the join of
both records, and other tasks that share the level weaken a classification.

* `Record.ofFetches` counts the classes and adds up the latencies at best and at worst.
* `Classification.record` stores a record.
* `Classification.weaken` accounts for the lines of other tasks.
-/

namespace CycleBounds.Cache

/-- The classes of the fetches of one block in one context. -/
structure Record where
  fetches : List Fetch
  hits : Nat
  misses : Nat
  unknowns : Nat
  /-- The latency of all fetches at this level at best. -/
  bcost : Nat
  /-- The latency of all fetches at this level at worst. -/
  wcost : Nat
deriving DecidableEq, Repr

namespace Record

def latency (c : Config) (hit : Bool) : Nat :=
  if hit then c.hitLatency else c.missLatency

/-- The latencies of the fetches that reach the level, at best or at worst as `side` selects. -/
def latencies (c : Config) (context : Context) (side : Bool × Bool → Bool)
    (fetches : List Fetch) : List Nat :=
  fetches.filterMap fun f => (f.access.outcomes? context).map fun o => latency c (side o)

def ofFetches (c : Config) (context : Context) (fetches : List Fetch) : Except Fault Record := do
  let bcost ← Word.sum (latencies c context (·.1) fetches)
  let wcost ← Word.sum (latencies c context (·.2) fetches)
  return {
    fetches
    hits := fetches.countP (·.access.isHit)
    misses := fetches.countP (·.access = .alwaysMiss)
    unknowns := fetches.countP fun f => f.access = .firstMiss ∨ f.access = .unknown
    bcost
    wcost }

def join (c : Config) (context : Context) (r s : Record) : Except Fault Record := do
  assume (r.fetches.length = s.fetches.length) .differentBlocks
  ofFetches c context
    (List.zipWith (fun f g => { f with access := f.access.join g.access }) r.fetches s.fetches)

end Record

structure Place where
  procedure : Nat
  block : Nat
  context : Context
deriving DecidableEq

namespace Place

def text (p : Place) : String :=
  s!"P{p.procedure}/B{p.block}{p.context.text}"

/-! Places are ordered by procedure, then block, then context. -/

instance : Ord Place where
  compare := compareLex (compareOn procedure) (compareLex (compareOn block) (compareOn context))

instance : Std.TransOrd Place :=
  inferInstanceAs (Std.TransCmp
    (compareLex (compareOn procedure) (compareLex (compareOn block) (compareOn context))))

instance : Std.LawfulEqOrd Place where
  eq_of_compare {a b} h := by
    have h : compareLex (compareOn procedure) (compareLex (compareOn block) (compareOn context))
      a b = .eq := h
    simp only [compareLex, compareOn, Ordering.then_eq_eq, Std.LawfulEqOrd.compare_eq_iff_eq] at h
    cases a
    cases b
    simp_all

end Place

/-- The records of all analysed blocks at one cache level. -/
structure Classification where
  config : Config
  records : Table Place Record

namespace Classification

def empty (config : Config) : Classification := ⟨config, ∅⟩

def get? (k : Classification) (place : Place) : Option Record :=
  k.records.get? place

def access? (k : Classification) (place : Place) (instruction : Nat) : Option Access :=
  (k.get? place).bind fun r => r.fetches[instruction]?.map (·.access)

/-- Pair the instructions of a block with the classes of their fetches; a fetch without a record is
unknown. -/
def pairAccesses {α : Type} : List α → List Fetch → List (α × Access)
  | [], _ => []
  | a :: rest, [] => (a, .unknown) :: pairAccesses rest []
  | a :: rest, f :: fetches => (a, f.access) :: pairAccesses rest fetches

def classified {α : Type} (k : Classification) (place : Place) (instructions : List α) :
    List (α × Access) :=
  pairAccesses instructions (((k.get? place).map (·.fetches)).getD [])

/-- Store the fetches of a block, joined with what is stored already. -/
def record (k : Classification) (place : Place) (fetches : List Fetch) :
    Except Fault Classification := do
  let fresh ← Record.ofFetches k.config place.context fetches
  let stored ← match k.get? place with
    | none => pure fresh
    | some old => old.join k.config place.context fresh
  return { k with records := k.records.insert place stored }

/-- A fetch with `foreign` lines of other tasks in its set. A guaranteed hit stays one only if its
age leaves room for all of them, and a single one may evict a line that was not evicted before. -/
def weakenFetch (c : Config) (foreign : Nat) (f : Fetch) : Except Fault Fetch :=
  match f.access with
  | .alwaysHit age => do
    let pushed ← Word.add age foreign
    return if c.ways ≤ pushed then { f with access := .unknown } else f
  | .firstMiss => return if 0 < foreign then { f with access := .unknown } else f
  | _ => return f

def weaken (k : Classification) (own : Footprint) (others : List Footprint) :
    Except Fault Classification := do
  let records ← k.records.traverse fun place r => do
    let fetches ← r.fetches.mapM fun f =>
      weakenFetch k.config (own.foreignLines (k.config.setOf f.line) others) f
    Record.ofFetches k.config place.context fetches
  return { k with records }

end Classification

end CycleBounds.Cache
