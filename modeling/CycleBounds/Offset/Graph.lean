import CycleBounds.Fault
import CycleBounds.Table
import CycleBounds.Word

/-!
# Offset graphs

On a bus with a periodic schedule, the cost of a loop iteration depends on the offset at which it
starts, its start time modulo the interval of the schedule. An offset graph has one node per offset
at which iterations start, weighted with the best-case and the worst-case cost of an iteration from
there, and an edge from each offset to every offset at which such an iteration may end. Consecutive
iterations are a walk from the source through the nodes to the sink.

* `Graph.addNode`, `setWeights`, `addEdge` and `connect` build a graph.
* `find?`, `node`, `incoming`, `outgoing`, `sources` and `sinks` look at it.
-/

namespace CycleBounds.Offset

inductive Objective where
  | minimize
  | maximize
deriving DecidableEq, Repr

namespace Objective

/-- The cheapest walk bounds the best case, the dearest one the worst case. -/
def ofScenario : Scenario → Objective
  | .best => .minimize
  | .worst => .maximize

def name : Objective → String
  | .minimize => "Minimize"
  | .maximize => "Maximize"

def pick : Objective → (bcet wcet : Nat) → Nat
  | .minimize, bcet, _ => bcet
  | .maximize, _, wcet => wcet

def improves : Objective → Nat → Option Nat → Bool
  | _, _, none => true
  | .minimize, w, some best => w < best
  | .maximize, w, some best => best < w

end Objective

inductive Endpoint where
  | source
  | sink
  | node (index : Nat)
deriving DecidableEq, Repr

def Endpoint.text : Endpoint → String
  | .source => "source"
  | .sink => "sink"
  | .node n => s!"node #{n}"

/-- An offset, the costs of an iteration from there, and the edges at it by their indices. -/
structure Node where
  offset : Nat
  bcet : Nat
  wcet : Nat
  incoming : List Nat
  outgoing : List Nat
deriving DecidableEq, Repr

def Node.weight (n : Node) (o : Objective) : Nat := o.pick n.bcet n.wcet

structure Edge where
  start : Endpoint
  finish : Endpoint
  bcet : Nat
  wcet : Nat
deriving DecidableEq, Repr

def Edge.weight (e : Edge) (o : Objective) : Nat := o.pick e.bcet e.wcet

/-- A graph of offsets modulo `interval`. Nodes and edges are named by their indices. -/
structure Graph where
  interval : Nat
  interval_pos : 0 < interval
  nodes : Array Node
  edges : Array Edge
  /-- The node of every offset that has one. -/
  byOffset : Table Nat Nat
  sources : List Nat
  sinks : List Nat

namespace Graph

def empty (interval : Nat) : Except Fault Graph :=
  if h : 0 < interval then
    .ok ⟨interval, h, #[], #[], ∅, [], []⟩
  else
    .error (.defect .noInterval)

/-- The node of an offset, taken modulo the interval. -/
def find? (g : Graph) (offset : Nat) : Option Nat :=
  g.byOffset.get? (offset % g.interval)

def node (g : Graph) (index : Nat) : Except Fault Node :=
  match g.nodes[index]? with
  | some n => .ok n
  | none => .error (.defect (.outOfBounds g.nodes.size index))

def updateNode (g : Graph) (index : Nat) (f : Node → Node) : Except Fault Graph := do
  let n ← g.node index
  return { g with nodes := g.nodes.setIfInBounds index (f n) }

/-- The graph with a node for an offset, the node, and whether it is new. -/
def addNode (g : Graph) (offset : Nat) : Graph × Nat × Bool :=
  match g.find? offset with
  | some n => (g, n, false)
  | none =>
    let offset := offset % g.interval
    ({ g with
      nodes := g.nodes.push ⟨offset, 0, 0, [], []⟩
      byOffset := g.byOffset.insert offset g.nodes.size }, g.nodes.size, true)

def setWeights (g : Graph) (index bcet wcet : Nat) : Except Fault Graph := do
  assume (bcet ≤ wcet) .nodeWeights
  g.updateNode index fun n => { n with bcet, wcet }

def leaveFrom (g : Graph) (edge : Nat) : Endpoint → Except Fault Graph
  | .source => .ok { g with sources := g.sources ++ [edge] }
  | .node n => g.updateNode n fun m => { m with outgoing := m.outgoing ++ [edge] }
  | .sink => .error (.defect (.edgeLeavesSink edge))

def arriveAt (g : Graph) (edge : Nat) : Endpoint → Except Fault Graph
  | .sink => .ok { g with sinks := g.sinks ++ [edge] }
  | .node n => g.updateNode n fun m => { m with incoming := m.incoming ++ [edge] }
  | .source => .error (.defect (.edgeEntersSource edge))

/-- The graph with an edge between two ends, and its index if they were not connected before. -/
def addEdge (g : Graph) (start finish : Endpoint) (bcet wcet : Nat) :
    Except Fault (Graph × Option Nat) :=
  if g.edges.any fun e => e.start = start ∧ e.finish = finish then
    .ok (g, none)
  else do
    let edge := g.edges.size
    let g := { g with edges := g.edges.push ⟨start, finish, bcet, wcet⟩ }
    let g ← g.leaveFrom edge start
    let g ← g.arriveAt edge finish
    return (g, some edge)

/-- Let walks start at one node and end at any node. -/
def connect (g : Graph) (start : Nat) : Except Fault Graph := do
  assume (start < g.nodes.size) (.noStartNode start)
  let (g, _) ← g.addEdge .source (.node start) 0 0
  (List.range g.nodes.size).foldlM (fun g n => do
    let (g, _) ← g.addEdge (.node n) .sink 0 0
    return g) g

def incoming (g : Graph) (index : Nat) : Except Fault (List Nat) := do
  return (← g.node index).incoming

def outgoing (g : Graph) (index : Nat) : Except Fault (List Nat) := do
  return (← g.node index).outgoing

end Graph

end CycleBounds.Offset
