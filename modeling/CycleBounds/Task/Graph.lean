import CycleBounds.Bound.Trace

/-!
# Task graphs

Tasks are programs on the cores of a platform. A task graph lists them so that a task precedes only
later ones; `TaskGraph.ofTasks` refuses all other lists.
-/

namespace CycleBounds

/-- A program that runs once, from an entry procedure, on a fixed core. -/
structure Task where
  name : String
  program : Code.Program
  entry : Nat
  core : Nat
  /-- The earliest time of its release. -/
  earliest : Nat
  /-- The latest time of its release. -/
  latest : Nat
  /-- The tasks that may start only when this one has finished. -/
  successors : List Nat

inductive TaskError where
  | unknownSuccessor (task succ : Nat)
  | notTopological (task succ : Nat)
  | unknownCore (task core : Nat)
  | release (task earliest latest : Nat)
  | timing (task : Nat) (cause : Bound.TimingError)
deriving DecidableEq, Repr

def TaskError.message : TaskError → String
  | .unknownSuccessor task succ => s!"task T{task} precedes unknown task T{succ}"
  | .notTopological task succ => s!"task T{task} precedes T{succ}, which is listed before it"
  | .unknownCore task core =>
    s!"task T{task} is mapped to core {core}, which the bus does not serve"
  | .release task earliest latest =>
    s!"task T{task} is released at {earliest} but no later than {latest}"
  | .timing task _ => s!"failed to analyse task T{task}"

namespace Task

def release (t : Task) : Scenario → Nat
  | .best => t.earliest
  | .worst => t.latest

/-- What is wrong with one successor of task `id` among `count` tasks. -/
def successorError? (count id succ : Nat) : Option TaskError :=
  if count ≤ succ then some (.unknownSuccessor id succ)
  else if succ ≤ id then some (.notTopological id succ)
  else none

/-- What is wrong with task `id` of `count` tasks. -/
def error? (t : Task) (count id : Nat) : Option TaskError :=
  if t.latest < t.earliest then some (.release id t.earliest t.latest)
  else t.successors.findSome? (successorError? count id)

/-- Task `id` of `count` tasks has a proper release and precedes only later ones. -/
def Fits (t : Task) (count id : Nat) : Prop :=
  t.earliest ≤ t.latest ∧ ∀ s ∈ t.successors, id < s ∧ s < count

theorem successorError?_eq_none_iff {count id succ : Nat} :
    successorError? count id succ = none ↔ id < succ ∧ succ < count := by
  unfold successorError?
  split
  · simp
    omega
  · split <;> simp <;> omega

theorem error?_eq_none_iff {t : Task} {count id : Nat} :
    t.error? count id = none ↔ t.Fits count id := by
  unfold error? Fits
  split
  · simp
    omega
  · simp [successorError?_eq_none_iff]
    omega

end Task

/-- Tasks in an order in which they may be placed. -/
structure TaskGraph where
  tasks : List Task
  fits : ∀ (i : Nat) (t : Task), tasks[i]? = some t → t.Fits tasks.length i

namespace TaskGraph

/-- What is wrong with a list of tasks, by the first of them that does not fit. -/
def error? (tasks : List Task) : Option TaskError :=
  tasks.zipIdx.findSome? fun (t, i) => t.error? tasks.length i

theorem error?_eq_none_iff {tasks : List Task} :
    error? tasks = none ↔
      ∀ (i : Nat) (t : Task), tasks[i]? = some t → t.Fits tasks.length i := by
  simp only [error?, List.findSome?_eq_none_iff, Task.error?_eq_none_iff]
  constructor
  · intro h i t ht
    exact h (t, i) (by simp [List.mem_zipIdx_iff_getElem?, ht])
  · intro h ⟨t, i⟩ hm
    exact h i t (by simpa [List.mem_zipIdx_iff_getElem?] using hm)

def ofTasks (tasks : List Task) : Except TaskError TaskGraph :=
  match h : error? tasks with
  | some e => .error e
  | none => .ok ⟨tasks, error?_eq_none_iff.1 h⟩

/-- Classify the fetches of every task by itself. -/
def ownAnalyses (g : TaskGraph) (h : Cache.Hierarchy) : Traced Fault (List Cache.Analysis) :=
  g.tasks.mapM fun t => h.analyze t.program t.entry

/-- The footprints of the tasks that run on another core than the given one. -/
def foreignFootprints (g : TaskGraph) (analyses : List Cache.Analysis) (core : Nat) :
    List Cache.Footprint :=
  ((g.tasks.zip analyses).filter fun (t, _) => t.core ≠ core).map fun (_, a) => a.footprint

/-- Classify the fetches of every task. With interference, tasks on other cores may evict lines
from the second level, which they share. -/
def analyses (g : TaskGraph) (h : Cache.Hierarchy) (interference : Bool) :
    Traced Fault (List Cache.Analysis) := do
  let own ← g.ownAnalyses h
  if interference then
    (g.tasks.zip own).mapM fun (t, a) => a.weaken (g.foreignFootprints own t.core)
  else
    return own

end TaskGraph

end CycleBounds
