import CycleBounds.Cache.Access
import CycleBounds.Offset.Listing
import CycleBounds.Offset.Solution

/-!
# Events: what the analyses report while they run

Every event has a level of detail and a text. A reader asks for one level and sees the events of
that level and of the more severe ones.
-/

namespace CycleBounds

inductive Detail where
  | warning
  | summary
  | step
deriving DecidableEq, Repr

namespace Detail

def label : Detail → String
  | .warning => "WARN"
  | .summary => "DEBUG"
  | .step => "TRACE"

def rank : Detail → Nat
  | .warning => 0
  | .summary => 1
  | .step => 2

end Detail

/-- One report of an analysis. Procedures are reported by name, all other things by number. -/
inductive Event where
  /-- A transfer waits longer than any slot of the schedule explains. -/
  | longDelay (delay time : Nat)
  /-- One cache level has been classified. -/
  | levelClassified (procedure : String) (id records sets : Nat)
  /-- A loop of bound zero is passed, as seen by the cache analysis. -/
  | loopPassed (loop : Nat) (procedure : String)
  /-- The steady iterations of a loop have reached a fixed point. -/
  | loopStable (loop : Nat) (procedure : String) (rounds : Nat)
  /-- A block has been classified in one context. -/
  | blockClassified (procedure : String) (block : Nat) (context : Context)
      (fetches : List Cache.Fetch)
  /-- A procedure has been timed. -/
  | procedureTimed (scenario : Scenario) (procedure : String) (id start cost : Nat)
  /-- A call has been timed. -/
  | callTimed (procedure : String) (block : Nat) (callee : String) (cost : Nat)
  /-- A block has been timed in one context. -/
  | blockTimed (procedure : String) (block : Nat) (context : Context) (start cost : Nat)
  /-- A loop of bound zero is passed, as seen by the timing analysis. -/
  | loopNotTimed (loop : Nat) (procedure : String)
  /-- A loop has been timed by unrolling it. -/
  | loopUnrolled (loop : Nat) (procedure : String) (context : Context) (start finish : Nat)
  /-- A loop has been timed from one first and one steady iteration. -/
  | loopSummarized (scenario : Scenario) (loop : Nat) (procedure : String) (context : Context)
      (first steady total : Nat)
  /-- The offsets of a loop have been explored. -/
  | offsetsExplored (graph : Offset.Graph)
  /-- A loop has been timed by its offset graph. -/
  | loopSolved (loop : Nat) (procedure : String) (context : Context) (offsets : Nat)
      (objective : Offset.Objective) (value iterations : Nat)
  /-- The walk found by the embedded solver. -/
  | walkFound (flow : Offset.Flow)
  /-- The answer of the embedded solver. -/
  | walkSolved (objective : Offset.Objective) (value units : Nat)
  /-- The answer of an external solver. -/
  | programSolved (objective : Offset.Objective) (value : Nat)
  /-- A task has been placed. -/
  | taskPlaced (scenario : Scenario) (name : String) (task core start cost : Nat)

namespace Event

def detail : Event → Detail
  | .longDelay .. => .warning
  | .levelClassified .. => .summary
  | .loopPassed .. => .step
  | .loopStable .. => .step
  | .blockClassified .. => .step
  | .procedureTimed .. => .summary
  | .callTimed .. => .step
  | .blockTimed .. => .step
  | .loopNotTimed .. => .summary
  | .loopUnrolled .. => .step
  | .loopSummarized .. => .summary
  | .offsetsExplored .. => .step
  | .loopSolved .. => .summary
  | .walkFound .. => .step
  | .walkSolved .. => .summary
  | .programSolved .. => .summary
  | .taskPlaced .. => .summary

def text : Event → String
  | .longDelay delay time =>
    s!"bus delay of {delay} cycles at {time} exceeds the bound of the schedule"
  | .levelClassified procedure id records sets =>
    s!"cache analysis of {procedure} from P{id}: {records} records, {sets} sets in use"
  | .loopPassed loop procedure => s!"loop L{loop} of {procedure} is never executed"
  | .loopStable loop procedure rounds =>
    s!"loop L{loop} of {procedure} stable after {rounds} rounds"
  | .blockClassified procedure block context fetches =>
    s!"{procedure}/B{block} {context.text}: [" ++
      ", ".intercalate (fetches.map Cache.Fetch.longText) ++ "]"
  | .procedureTimed scenario procedure id start cost =>
    s!"{scenario.name} of {procedure} (P{id}) starting at {start}: {cost}"
  | .callTimed procedure block callee cost =>
    s!"call from {procedure}/B{block} to {callee}: {cost}"
  | .blockTimed procedure block context start cost =>
    s!"{procedure}/B{block} {context.text} at {start}: {cost}"
  | .loopNotTimed loop procedure => s!"loop L{loop} of {procedure} is never executed"
  | .loopUnrolled loop procedure context start finish =>
    s!"loop L{loop} of {procedure} {context.text}: {start} to {finish}"
  | .loopSummarized scenario loop procedure context first steady total =>
    s!"{scenario.name} summary of loop L{loop} of {procedure} {context.text}: " ++
      s!"first {first}, steady {steady}, total {total}"
  | .offsetsExplored graph => graph.listing
  | .loopSolved loop procedure context offsets objective value iterations =>
    s!"offset graph of loop L{loop} of {procedure} {context.text}: {offsets} offsets, " ++
      s!"{objective.name} {value} for {iterations} iterations"
  | .walkFound flow => s!"path solver: flow {flow.text}"
  | .walkSolved objective value units =>
    s!"path solver: {objective.name} objective {value} for {units} units"
  | .programSolved objective value => s!"lp_solve: {objective.name} objective {value}"
  | .taskPlaced scenario name task core start cost =>
    s!"{scenario.name} of task {name} (T{task}) on core {core}: start {start}, cost {cost}"

def report (e : Event) : String :=
  e.detail.label ++ " " ++ e.text

end Event

/-- The reports that a reader asking for a level of detail sees. -/
def reportsAt (level : Detail) (log : List Event) : List String :=
  (log.filter fun e => e.detail.rank ≤ level.rank).map Event.report

end CycleBounds
