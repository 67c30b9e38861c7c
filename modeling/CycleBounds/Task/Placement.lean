import CycleBounds.Task.Graph

/-!
# Placement of tasks

The tasks of a graph are placed in their order: a task starts once it is released, all tasks that
precede it have finished, and its core is free. How long it runs is bounded from that start.
-/

namespace CycleBounds

structure Placement where
  task : Nat
  start : Nat
  finish : Nat
  cost : Nat
deriving DecidableEq, Repr

namespace Placement

/-- What the tasks placed so far leave to the others. -/
structure Board where
  /-- When the last predecessor of a task has finished. -/
  ready : Table Nat Nat
  /-- When a core has become free. -/
  free : Table Nat Nat

def Board.start : Board := ⟨∅, ∅⟩

/-- When task `id` may start. -/
def Board.startOf (b : Board) (scenario : Scenario) (id : Nat) (t : Task) : Nat :=
  max (max (t.release scenario) ((b.ready.get? id).getD 0)) ((b.free.get? t.core).getD 0)

/-- The board after a task has been placed. -/
def Board.place (b : Board) (t : Task) (finish : Nat) : Board where
  ready := t.successors.foldl
    (fun ready s => ready.insert s (max ((ready.get? s).getD 0) finish)) b.ready
  free := b.free.insert t.core finish

def served (bus : Bus) (core : Nat) : Bool :=
  bus.schedule?.all fun s => core < s.cores

variable (platform : Bound.Platform) (solver : Offset.Solver) (scenario : Scenario)

def placeOne (id : Nat) (t : Task) (analysis : Cache.Analysis) (b : Board) :
    Traced (Failure TaskError) (Placement × Board) := do
  if ¬ served platform.bus t.core then
    Traced.ofExcept (refuse (.unknownCore id t.core))
  else
    let start := if platform.independent then 0 else b.startOf scenario id t
    let engine : Bound.Engine := { program := t.program, analysis, platform, solver, core := 0 }
    let engine ← engine.onCore t.core
    let timing ← (engine.analyze t.entry start scenario).mapError
      (Failure.mapError (TaskError.timing id))
    Traced.emit (.taskPlaced scenario t.name id t.core start timing.cost)
    let b := if platform.independent then b else b.place t timing.finish
    return ({ task := id, start, finish := timing.finish, cost := timing.cost }, b)

/-- Place tasks, the first of which has the number `id`. -/
def placeFrom : (id : Nat) → List (Task × Cache.Analysis) → Board →
    Traced (Failure TaskError) (List Placement)
  | _, [], _ => return []
  | id, (t, a) :: rest, b => do
    let (p, b) ← placeOne platform solver scenario id t a b
    return p :: (← placeFrom (id + 1) rest b)

end Placement

/-- Place all tasks of a graph, given the cache analysis of each. -/
def TaskGraph.place (g : TaskGraph) (analyses : List Cache.Analysis) (platform : Bound.Platform)
    (solver : Offset.Solver) (scenario : Scenario) :
    Traced (Failure TaskError) (List Placement) := do
  assume (analyses.length = g.tasks.length) .analysesPerTask
  Placement.placeFrom platform solver scenario 0 (g.tasks.zip analyses) .start

end CycleBounds
