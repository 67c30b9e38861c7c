import CycleBounds.Fault

/-!
# Procedures

A procedure is a list of basic blocks with forward edges and natural loops. The edge back from a
loop's sink to its header is part of the loop and not one of the forward edges. Blocks, loops and
procedures are named by their positions.

Analyses walk a procedure in topological order with every loop collapsed into its header
(`Procedure.order`), and a loop in its own such order, header first (`Loop.order`).
-/

namespace CycleBounds.Code

/-- An instruction by its address and, for a call, the called procedure. -/
structure Instruction where
  address : Nat
  callee : Option Nat
deriving DecidableEq, Repr

structure Block where
  instructions : List Instruction
  preds : List Nat
  succs : List Nat
  /-- The loop that this block is the header of. -/
  headerOf : Option Nat
  /-- The smallest loop around this block. -/
  innermost : Option Nat
deriving DecidableEq, Repr

structure Loop where
  header : Nat
  /-- The block from which control returns to the header. -/
  sink : Nat
  /-- How often the loop iterates at most. -/
  bound : Nat
  /-- The bound counts the runs of the header; otherwise the header may run once more. -/
  naturalExit : Bool
  /-- The smallest loop around this one. -/
  parent : Option Nat
  /-- The number of loops around this one. -/
  level : Nat
  /-- All blocks of the loop in ascending order, those of inner loops included. -/
  blocks : List Nat
  /-- The body in topological order, inner loops collapsed into their headers. -/
  order : List Nat
deriving DecidableEq, Repr

def Loop.contains (l : Loop) (block : Nat) : Bool :=
  l.blocks.contains block

structure Procedure where
  id : Nat
  name : String
  blocks : List Block
  loops : List Loop
  /-- The body in topological order, loops collapsed into their headers. -/
  order : List Nat
  /-- The blocks of `order` through which control leaves the procedure. -/
  sinks : List Nat
deriving DecidableEq, Repr

namespace Procedure

def block (p : Procedure) (id : Nat) : Except Fault Block :=
  entryAt p.blocks id

def loop (p : Procedure) (id : Nat) : Except Fault Loop :=
  entryAt p.loops id

def entry (p : Procedure) : Except Fault Nat :=
  entryAt p.order 0

def callees (p : Procedure) : List Nat :=
  (p.blocks.flatMap (·.instructions)).filterMap (·.callee)

def depth (p : Procedure) (id : Nat) : Except Fault Nat := do
  match (← p.block id).innermost with
  | none => return 0
  | some l => return (← p.loop l).level + 1

end Procedure

/-! ### Refusals -/

inductive ProgramError where
  | unknownBlock (procedure block : Nat)
  | cycle (procedure block : Nat)
  | malformedLoop (procedure loop : Nat)
  | duplicateHeader (procedure block : Nat)
  | loopEntry (procedure loop block : Nat)
  | overlap (procedure a b : Nat)
  | nestedSink (procedure loop : Nat)
  | unreachable (procedure block : Nat)
  | empty (procedure : Nat)
  | noSink (procedure : Nat)
  | misplaced (procedure : Nat)
  | unknownCallee (caller callee : Nat)
  | recursive (procedure : Nat)
deriving DecidableEq, Repr

def ProgramError.message : ProgramError → String
  | .unknownBlock p b => s!"procedure P{p}: block B{b} does not exist"
  | .cycle p b => s!"procedure P{p}: forward edges contain a cycle through B{b}"
  | .malformedLoop p l => s!"procedure P{p}: loop L{l} must contain its header and its sink"
  | .duplicateHeader p b => s!"procedure P{p}: block B{b} heads more than one loop"
  | .loopEntry p l b => s!"procedure P{p}: loop L{l} is entered through B{b} instead of its header"
  | .overlap p a b => s!"procedure P{p}: loops L{a} and L{b} overlap without nesting"
  | .nestedSink p l => s!"procedure P{p}: the sink of loop L{l} lies in a nested loop"
  | .unreachable p b => s!"procedure P{p}: block B{b} has no predecessor but is not the entry"
  | .empty p => s!"procedure P{p} has no blocks"
  | .noSink p => s!"procedure P{p} has no exit"
  | .misplaced p => s!"procedure P{p} is stored at the wrong index"
  | .unknownCallee p q => s!"procedure P{p} calls unknown procedure P{q}"
  | .recursive p => s!"procedure P{p} is part of a recursive call chain"

end CycleBounds.Code
