import CycleBounds.Bound.Iteration

/-!
# Loops by their offsets

On a scheduled bus the cost of an iteration depends on the offset in the round at which it starts.
`explore` finds all offsets that steady iterations can start at, with the best and the worst cost
from each, as an offset graph; the optimal walk through the graph bounds the loop.
-/

namespace CycleBounds.Bound.Engine

open Code (Procedure Loop)

variable (e : Engine)

def steadyCost (body : Body) (scenario : Scenario) (loop : Loop) (context : Context)
    (offset : Nat) : Timed Nat := do
  let context ← context.enter .steady
  let progress ← body scenario false context (.moment offset) { times := ∅, ledger := .empty }
  let sink ← stampOf progress.times loop.sink
  Word.sub sink.finish offset

/-- The offsets at which an iteration may end that costs from `lo` to `hi`. -/
def endOffsets (interval offset lo hi : Nat) : Except Fault (List Nat) :=
  if interval ≤ hi - lo then .ok (List.range interval)
  else (List.range' lo (hi + 1 - lo)).mapM fun d => do
    return (← Word.add offset d) % interval

/-- Lead edges from a node to the nodes of some offsets. New nodes are put in front of the work. -/
def leadTo (node : Nat) : (ends : List Nat) → Offset.Graph → (work : List Nat) →
    Except Fault (Offset.Graph × List Nat)
  | [], g, work => .ok (g, work)
  | o :: ends, g, work => do
    let (g, next, new) := g.addNode o
    -- the iteration is charged to the node it starts in
    let (g, _) ← g.addEdge (.node node) (.node next) 0 0
    leadTo node ends g (if new then next :: work else work)

/-- Explore the offsets that steady iterations reach from the nodes in `work`. Every offset is new
once, so there are at most as many steps as the interval has cycles. -/
def explore (body : Body) (loop : Loop) (context : Context) :
    (fuel : Nat) → Offset.Graph → (work : List Nat) → Timed Offset.Graph
  | 0, g, _ => return g
  | _, g, [] => return g
  | fuel + 1, g, node :: work => do
    let offset := (← g.node node).offset
    let best ← steadyCost body .best loop context offset
    let worst ← steadyCost body .worst loop context offset
    let lo := min best worst
    let hi := max best worst
    let g ← g.setWeights node lo hi
    let ends ← endOffsets g.interval offset lo hi
    let (g, work) ← leadTo node ends g work
    explore body loop context fuel g work

/-- Bound a loop by the walks through the offsets of its steady iterations. -/
def byOffsets (body : Body) (schedule : Bus.Schedule) (scenario : Scenario) (relative : Bool)
    (p : Procedure) (id : Nat) (loop : Loop) (context : Context) (entry : Stamp)
    (progress : Progress) : Timed Progress := do
  let progress ← body scenario relative (← context.enter .first) entry progress
  let firstEnd := (← stampOf progress.times loop.sink).finish
  let steady ← Word.sub (← iterations scenario loop) 1
  if steady = 0 then
    return spread relative p loop entry.finish firstEnd progress
  else
    let g ← Offset.Graph.empty schedule.interval
    let (g, start, _) := g.addNode firstEnd
    let g ← explore body loop context schedule.interval g [start]
    let g ← g.connect start
    Traced.emit (.offsetsExplored g)
    let objective := Offset.Objective.ofScenario scenario
    let solution ← (e.solver.solve g objective steady).mapError
      (Failure.mapError (TimingError.solver p.id id))
    Traced.emit (.loopSolved id p.name context g.nodes.size objective solution.value steady)
    let finish ← Word.add firstEnd solution.value
    let progress := spread relative p loop entry.finish finish progress
    if relative then
      return progress
    else
      let ledger := progress.ledger
      return { progress with
        ledger := { ledger with graphs := ledger.graphs ++ [(p.id, id, g)] } }

end CycleBounds.Bound.Engine
