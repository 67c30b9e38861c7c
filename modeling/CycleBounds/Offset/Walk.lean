import CycleBounds.Offset.Graph
import CycleBounds.Offset.Solution
import CycleBounds.Traced
import CycleBounds.Word

/-!
# The best walk through an offset graph

The best walk to every node is extended by one edge at a time: a `Layer` holds, for each node, the
weight of the best walk that ends there after a given number of visits and the edge by which it
arrives. The layers then lead back from the sink to the source and tell how often the best walk uses
each edge and node. Among walks of equal weight the one found first is kept, edges being tried by
ascending index.
-/

namespace CycleBounds.Offset

/-- For every node, the weight of the best walk to it and its last edge. -/
abbrev Layer := Array (Option (Nat × Nat))

namespace Layer

def blank (g : Graph) : Layer :=
  Array.replicate g.nodes.size none

def weight? (l : Layer) (node : Nat) : Option Nat :=
  (l[node]?.join).map (·.1)

def edge? (l : Layer) (node : Nat) : Option Nat :=
  (l[node]?.join).map (·.2)

def offer (o : Objective) (l : Layer) (node weight edge : Nat) : Layer :=
  if o.improves weight (l.weight? node) then l.setIfInBounds node (some (weight, edge)) else l

/-- Offer a walk of weight `before` extended by an edge to a node. -/
def extend (g : Graph) (o : Objective) (l : Layer) (before : Nat) (edge : Nat) (e : Edge)
    (node : Nat) : Except Fault Layer := do
  let weight ← Word.add before (e.weight o)
  let weight ← Word.add weight ((← g.node node).weight o)
  return l.offer o node weight edge

/-- The best walks that visit one node. -/
def first (g : Graph) (o : Objective) : Except Fault Layer :=
  g.sources.foldlM (fun l i =>
    match g.edges[i]? with
    | some e =>
      match e.finish with
      | .node n => l.extend g o 0 i e n
      | _ => .ok l
    | none => .ok l) (blank g)

/-- The best walks that visit one more node. -/
def next (g : Graph) (o : Objective) (prev : Layer) : Except Fault Layer :=
  (g.edges.toList.zipIdx).foldlM (fun l (e, i) =>
    match e.start, e.finish with
    | .node n, .node m =>
      match prev.weight? n with
      | some w => l.extend g o w i e m
      | none => .ok l
    | _, _ => .ok l) (blank g)

/-- Put `n` more layers in front of the latest one. -/
def stack (g : Graph) (o : Objective) : (n : Nat) → Layer → List Layer →
    Except Fault (List Layer)
  | 0, latest, before => .ok (latest :: before)
  | n + 1, latest, before => do
    let l ← latest.next g o
    stack g o n l (latest :: before)

/-- The best way to the sink: the weight of the walk and its last edge. -/
def exit (g : Graph) (o : Objective) (l : Layer) : Except Fault (Option (Nat × Nat)) :=
  g.sinks.foldlM (fun best i =>
    match g.edges[i]? with
    | some e =>
      match e.start with
      | .node n =>
        match l.weight? n with
        | some w => do
          let w ← Word.add w (e.weight o)
          return if o.improves w (best.map (·.1)) then some (w, i) else best
        | none => .ok best
      | _ => .ok best
    | none => .ok best) none

end Layer

/-- The uses of edges and nodes on the way back from the sink, and the node reached. -/
structure Trail where
  edges : Array Nat
  nodes : Array Nat
  position : Nat

namespace Trail

/-- The node at which an edge starts; for an edge from the source, the node at hand. -/
def startOf (g : Graph) (edge position : Nat) : Nat :=
  match g.edges[edge]?.map Edge.start with
  | some (.node n) => n
  | _ => position

/-- Count an edge and go to where it starts. -/
def back (g : Graph) (t : Trail) (edge : Nat) : Trail :=
  { t with
    edges := t.edges.modify edge (· + 1)
    position := startOf g edge t.position }

/-- Visit a node on the way back, and leave it by the edge by which the best walk arrives. -/
def step (g : Graph) (t : Trail) (l : Layer) : Except SolverError Trail :=
  match l.edge? t.position with
  | none => .error .infeasible
  | some edge => .ok ({ t with nodes := t.nodes.modify t.position (· + 1) }.back g edge)

/-- Go back through all layers, the latest first. -/
def follow (g : Graph) (layers : List Layer) (t : Trail) : Except SolverError Trail :=
  layers.foldlM (step g) t

def flow (t : Trail) : Flow :=
  { edges := t.edges.toList, nodes := t.nodes.toList }

def start (g : Graph) : Trail where
  edges := Array.replicate g.edges.size 0
  nodes := Array.replicate g.nodes.size 0
  position := 0

end Trail

/-- The weight and the flow of the best walk that visits `units` nodes. -/
def bestWalk (g : Graph) (o : Objective) (units : Nat) :
    Traced (Failure SolverError) Solution := do
  if units = 0 then
    return { value := 0, flow := some (Trail.start g).flow }
  else
    let first ← Layer.first g o
    let layers ← Layer.stack g o (units - 1) first []
    match ← Layer.exit g o (layers.headD (Layer.blank g)) with
    | none => Traced.ofExcept (refuse .infeasible)
    | some (value, last) =>
      let trail ← Trail.follow g layers ((Trail.start g).back g last)
      Traced.emit (.walkFound trail.flow)
      Traced.emit (.walkSolved o value units)
      return { value, flow := some trail.flow }

end CycleBounds.Offset
