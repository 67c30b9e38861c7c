/-!
# Faults: computations that stop without an answer

Three ways for a computation to stop, kept apart because callers treat them differently:

* `Fault.overflow`: a count left the range of 64-bit naturals (see `CycleBounds.Word`);
* `Fault.defect`: an assumption of the analysis does not hold, named by a `Defect`;
* `Failure.error`: the input was refused for a cause that its own error type describes.

`Defect.message` and the `message` functions of the error types hold the wording.
-/

namespace CycleBounds

/-- An assumption that the analyses rely on and that did not hold. -/
inductive Defect where
  /-- A list of `length` entries has no entry `index`. -/
  | outOfBounds (length index : Nat)
  /-- More loops are nested than a context can tell apart. -/
  | nestingTooDeep
  /-- More calls are nested than there are procedures. -/
  | callsTooDeep
  /-- The first block of a loop in topological order is not its header. -/
  | headerNotFirst
  /-- Two records of one block hold different numbers of fetches. -/
  | differentBlocks
  /-- A block was reached before any of its predecessors left a cache state. -/
  | noAnalysedPredecessor (block : Nat) (procedure : String)
  /-- A block that has to be analysed left no cache state. -/
  | noState (block : Nat)
  /-- The states of a loop grew for longer than any chain of states can. -/
  | neverStable (loop : Nat) (procedure : String)
  /-- A block was reached before any of its predecessors was timed. -/
  | noTimedPredecessor (block : Nat) (procedure : String)
  /-- A block that has to be timed was not. -/
  | noStamp
  /-- No block through which a procedure is left was timed. -/
  | noSinkReached (procedure : String)
  /-- A procedure would finish before it starts. -/
  | negativeRuntime (procedure : String)
  /-- An iteration of a loop would finish before it starts. -/
  | negativeLoopRuntime (loop : Nat) (procedure : String)
  /-- The best-case cost of an instruction is above its worst-case cost. -/
  | instructionCosts
  /-- The bus schedule has no slot for a core. -/
  | coreNotScheduled (core : Nat)
  /-- Offsets are taken modulo an interval of length zero. -/
  | noInterval
  /-- The best-case weight of a node is above its worst-case weight. -/
  | nodeWeights
  /-- An edge leaves the node at which walks end. -/
  | edgeLeavesSink (edge : Nat)
  /-- An edge enters the node at which walks start. -/
  | edgeEntersSource (edge : Nat)
  /-- Walks are to start at a node that does not exist. -/
  | noStartNode (node : Nat)
  /-- There is not one cache analysis per task. -/
  | analysesPerTask
deriving DecidableEq, Repr

def Defect.message : Defect → String
  | .outOfBounds length index =>
    s!"index out of bounds: the len is {length} but the index is {index}"
  | .nestingTooDeep => "loop nesting too deep"
  | .callsTooDeep => "call nesting too deep"
  | .headerNotFirst => "assertion `left == right` failed"
  | .differentBlocks =>
    "assertion `left == right` failed: classification records of different blocks"
  | .noAnalysedPredecessor block procedure =>
    s!"block B{block} of {procedure} reached with no analysed predecessor"
  | .noState block => s!"no cache state for block B{block}"
  | .neverStable loop procedure => s!"loop L{loop} of {procedure} never becomes stable"
  | .noTimedPredecessor block procedure =>
    s!"block B{block} of {procedure} reached with no processed predecessor"
  | .noStamp => "no entry found for key"
  | .noSinkReached procedure => s!"no sink of {procedure} was reached"
  | .negativeRuntime procedure => s!"computed negative runtime for {procedure}"
  | .negativeLoopRuntime loop procedure =>
    s!"computed negative runtime for loop L{loop} of {procedure}"
  | .instructionCosts => "instruction BCET exceeds WCET"
  | .coreNotScheduled core => s!"core {core} is not in the bus schedule"
  | .noInterval => "offset graph without an interval"
  | .nodeWeights => "node weights out of order"
  | .edgeLeavesSink edge => s!"edge {edge} leaves the supersink"
  | .edgeEntersSource edge => s!"edge {edge} enters the supersource"
  | .noStartNode node => s!"no node #{node} to start at"
  | .analysesPerTask => "assertion `left == right` failed: one cache analysis per task"

/-- Why a computation on accepted input stopped. -/
inductive Fault where
  | overflow
  | defect (cause : Defect)
deriving DecidableEq, Repr

/-- Why a computation that may also refuse its input stopped. -/
inductive Failure (ε : Type) where
  | fault (cause : Fault)
  | error (cause : ε)
deriving DecidableEq, Repr

/-- A failure with its own cause rephrased by `f`; faults stay as they are. -/
def Failure.mapError {ε δ : Type} (f : ε → δ) : Failure ε → Failure δ
  | .fault c => .fault c
  | .error c => .error (f c)

/-- The entry of a list at an index that is expected to be in range. -/
def entryAt {α : Type} (xs : List α) (index : Nat) : Except Fault α :=
  match xs[index]? with
  | some a => .ok a
  | none => .error (.defect (.outOfBounds xs.length index))

def assume (holds : Bool) (otherwise : Defect) : Except Fault Unit :=
  if holds then .ok () else .error (.defect otherwise)

def refuse {ε α : Type} (cause : ε) : Except (Failure ε) α :=
  .error (.error cause)

instance {ε : Type} : MonadLift (Except Fault) (Except (Failure ε)) where
  monadLift
    | .ok a => .ok a
    | .error f => .error (.fault f)

instance {ε : Type} : MonadLift (Except ε) (Except (Failure ε)) where
  monadLift
    | .ok a => .ok a
    | .error e => .error (.error e)

end CycleBounds
