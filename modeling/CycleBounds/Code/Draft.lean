import CycleBounds.Code.Nesting
import CycleBounds.Code.Procedure
import CycleBounds.Table
import CycleBounds.Word

/-!
# Drafts of procedures

A draft lists blocks, forward edges and loops as they are declared. `Draft.build` accepts a draft
if its blocks form an acyclic graph entered only at block 0 and its loops nest properly and are
entered only at their headers, and derives the orders and the nesting that the analyses use.

The checks run one after another: edges, reachability, acyclicity, the loops by themselves, their
nesting, and last how control enters and repeats each loop. The first that fails is reported.
-/

namespace CycleBounds.Code

/-! ### Topological order

A list of items that wait for one another is put in order by taking out, again and again, the first
item that waits for none of the items that are left. What is left when there is no such item waits
for itself in a circle, or for such a circle. -/

/-- An item and the items that have to come before it. -/
structure Waiting where
  item : Nat
  after : List Nat
deriving DecidableEq, Repr

namespace Waiting

/-- The items that are left once one of them is taken out. -/
def without (item : Nat) (waiting : List Waiting) : List Waiting :=
  (waiting.filter fun w => w.item ≠ item).map fun w => { w with after := w.after.filter (· ≠ item) }

/-- The order in which items are taken out, and the items that are left in the end. At most `n`
items are taken out. -/
def arrange : (n : Nat) → List Waiting → List Nat × List Nat
  | 0, waiting => ([], waiting.map item)
  | n + 1, waiting =>
    match waiting.find? fun w => w.after.isEmpty with
    | none => ([], waiting.map item)
    | some w =>
      let (order, left) := arrange n (without w.item waiting)
      (w.item :: order, left)

end Waiting

/-! ### Declarations -/

structure LoopDraft where
  header : Nat
  sink : Nat
  members : List Nat
  bound : Nat
  naturalExit : Bool
deriving DecidableEq, Repr

def LoopDraft.blocks (l : LoopDraft) : List Nat :=
  (KeySet.ofList (l.members ++ [l.header, l.sink])).keys

structure Draft where
  id : Nat
  name : String
  blocks : List (List Instruction)
  edges : List (Nat × Nat)
  loops : List LoopDraft
deriving DecidableEq, Repr

def instructionBytes : Nat := 4

def straightLine (start count : Nat) : Except Fault (List Instruction) :=
  if count = 0 ∨ start + (count - 1) * instructionBytes < Word.limit then
    .ok ((List.range count).map fun k =>
      { address := start + k * instructionBytes, callee := none })
  else
    .error .overflow

namespace Draft

variable (d : Draft)

/-! ### Edges -/

/-- The blocks that edges lead to from a block, in the order of their first declaration. -/
def succs (b : Nat) : List Nat :=
  (d.edges.filterMap fun e => if e.1 = b then some e.2 else none).eraseDups

/-- The blocks that edges lead from to a block, in the order of their first declaration. -/
def preds (b : Nat) : List Nat :=
  (d.edges.filterMap fun e => if e.2 = b then some e.1 else none).eraseDups

def checkBlock (b : Nat) : Except ProgramError Unit :=
  if b < d.blocks.length then .ok () else .error (.unknownBlock d.id b)

def checkEdges : Except ProgramError Unit :=
  d.edges.forM fun e => do
    d.checkBlock e.1
    d.checkBlock e.2

/-- Every block but the first has a predecessor. -/
def checkReachable : Except ProgramError Unit :=
  match ((List.range d.blocks.length).drop 1).find? fun b => (d.preds b).isEmpty with
  | some b => .error (.unreachable d.id b)
  | none => .ok ()

/-- All blocks, each after its predecessors and otherwise in ascending order. -/
def topological : Except ProgramError (List Nat) :=
  let blocks := List.range d.blocks.length
  match Waiting.arrange d.blocks.length (blocks.map fun b => ⟨b, d.preds b⟩) with
  | (order, []) => .ok order
  | (_, b :: _) => .error (.cycle d.id b)

/-! ### Loops -/

def nest : Nest :=
  d.loops.map LoopDraft.blocks

def headerOf (b : Nat) : Option Nat :=
  d.loops.findIdx? fun l => l.header = b

/-- The loops by themselves: their blocks exist, and no header is shared. -/
def checkLoops : Except ProgramError Unit :=
  d.loops.zipIdx.forM fun (l, i) => do
    l.blocks.forM d.checkBlock
    if ¬ (l.blocks.contains l.header ∧ l.blocks.contains l.sink) then
      throw (.malformedLoop d.id i)
    if (d.loops.take i).any fun k => k.header = l.header then
      throw (.duplicateHeader d.id l.header)

/-- Any two loops are disjoint, or one lies in the other. -/
def checkNesting (nest : Nest) : Except ProgramError Unit :=
  match nest.overlapping? with
  | some (i, j) => .error (.overlap d.id i j)
  | none => .ok ()

/-- Whether a block stands for itself or for an inner loop in the order of loop `i`. -/
def ranksIn (nest : Nest) (levels : List Nat) (i b : Nat) : Bool :=
  nest.deepest levels b = some i ∨ ((d.headerOf b).bind (nest[·]?)).bind nest.parent = some i

/-- A loop with its place among the others, given the order of all blocks. -/
def buildLoop (nest : Nest) (levels all : List Nat) (l : LoopDraft) (i : Nat) :
    Except (Failure ProgramError) Loop := do
  let blocks := l.blocks
  match blocks.find? fun b => b ≠ l.header ∧ ¬ Nest.within (d.preds b) blocks with
  | some b => refuse (.loopEntry d.id i b)
  | none => pure ()
  if nest.deepest levels l.sink ≠ some i then
    refuse (.nestedSink d.id i)
  let order := all.filter fun b => blocks.contains b ∧ d.ranksIn nest levels i b
  assume (order.head? = some l.header) .headerNotFirst
  return {
    header := l.header
    sink := l.sink
    bound := l.bound
    naturalExit := l.naturalExit
    parent := nest.parent blocks
    level := levels.getD i 0
    blocks
    order }

/-! ### Procedures -/

/-- Whether a block stands for itself or for an outermost loop in the order of the procedure. -/
def ranksOutside (nest : Nest) (levels : List Nat) (b : Nat) : Bool :=
  match nest.deepest levels b with
  | none => true
  | some i => d.headerOf b = some i ∧ levels[i]? = some 0

/-- Whether control leaves the procedure through a block: it has no successor or, if it stands for
a loop, no edge leaves the loop. -/
def isSink (nest : Nest) (b : Nat) : Bool :=
  match (d.headerOf b).bind (nest[·]?) with
  | some blocks => blocks.all fun m => Nest.within (d.succs m) blocks
  | none => (d.succs b).isEmpty

def build : Except (Failure ProgramError) Procedure := do
  if d.blocks.isEmpty then
    refuse (.empty d.id)
  d.checkEdges
  d.checkReachable
  let all ← d.topological
  d.checkLoops
  let nest := d.nest
  d.checkNesting nest
  let levels := nest.levels
  let loops ← d.loops.zipIdx.mapM fun (l, i) => d.buildLoop nest levels all l i
  let order := all.filter (d.ranksOutside nest levels)
  let sinks := order.filter (d.isSink nest)
  if sinks.isEmpty then
    refuse (.noSink d.id)
  return {
    id := d.id
    name := d.name
    blocks := d.blocks.zipIdx.map fun (instructions, b) => {
      instructions
      preds := d.preds b
      succs := d.succs b
      headerOf := d.headerOf b
      innermost := nest.deepest levels b }
    loops
    order
    sinks }

end Draft

end CycleBounds.Code
