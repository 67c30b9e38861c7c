import CycleBounds.Offset.Graph

/-!
# Offset graphs as text

`Graph.listing` describes a graph for a reader, and `Graph.integerProgram` states the search for
the best walk as an integer program: edge `i` is the variable `x<i>` and node `n` the variable
`y<n>`, each counting how often the walk uses it.
-/

namespace CycleBounds.Offset.Graph

def numbered {α : Type} (xs : Array α) : List (Nat × α) :=
  xs.toList.zipIdx.map fun p => (p.2, p.1)

/-- The terms of a sum, or a zero if there are none. -/
def sumText : List String → String
  | [] => "0"
  | terms => " + ".intercalate terms

/-! ### For a reader -/

/-- Edges by their index and one of their ends. -/
def edgeList (g : Graph) (ids : List Nat) (other : Edge → Endpoint) : String :=
  ", ".intercalate (ids.map fun i =>
    match g.edges[i]? with
    | some e => s!"{i} ({(other e).text})"
    | none => s!"{i}")

def nodeListing (g : Graph) (index : Nat) (n : Node) : String :=
  s!"  #{index} at offset {n.offset}: BCET {n.bcet}, WCET {n.wcet}\n" ++
    s!"    In-Edges : {g.edgeList n.incoming Edge.start}\n" ++
    s!"    Out-Edges: {g.edgeList n.outgoing Edge.finish}\n"

def edgeListing (index : Nat) (e : Edge) : String :=
  s!"  {index}: {e.start.text} --> {e.finish.text} with BCET {e.bcet}, WCET {e.wcet}\n"

def listing (g : Graph) : String :=
  s!"Offset graph with {g.nodes.size} nodes and {g.edges.size} edges (interval {g.interval})\n" ++
    "\nNodes:\n" ++ String.join ((numbered g.nodes).map fun p => g.nodeListing p.1 p.2) ++
    "\nEdges:\n" ++ String.join ((numbered g.edges).map fun p => edgeListing p.1 p.2)

/-! ### For an integer-program solver -/

def edgeVar (i : Nat) : String := s!"x{i}"

def nodeVar (n : Nat) : String := s!"y{n}"

/-- The weighted sum to be optimised; weights of zero are left out. -/
def objectiveText (g : Graph) (o : Objective) : String :=
  let edgeTerms := (numbered g.edges).filter (fun p => p.2.weight o ≠ 0) |>.map fun p =>
    s!"{p.2.weight o} {edgeVar p.1}"
  let nodeTerms := (numbered g.nodes).filter (fun p => p.2.weight o ≠ 0) |>.map fun p =>
    s!"{p.2.weight o} {nodeVar p.1}"
  (match o with
    | .maximize => "MAX: "
    | .minimize => "MIN: ") ++ sumText (edgeTerms ++ nodeTerms) ++ ";\n"

/-- A walk leaves a node as often as it enters it. -/
def conservationText (index : Nat) (n : Node) : String :=
  s!"{sumText (n.incoming.map edgeVar)} = {nodeVar index};\n" ++
    s!"{nodeVar index} = {sumText (n.outgoing.map edgeVar)};\n"

/-- The integer program of a walk that visits `units` nodes. -/
def integerProgram (g : Graph) (o : Objective) (units : Nat) : String :=
  let nodeVars := (List.range g.nodes.size).map nodeVar
  let vars := (List.range g.edges.size).map edgeVar ++ nodeVars
  "/*\n * Objective function\n */\n\n" ++ g.objectiveText o ++
    "\n/*\n * Constraints\n */\n\n" ++
    "/* Flow conservation constraints */\n" ++
    String.join ((numbered g.nodes).map fun p => conservationText p.1 p.2) ++
    "\n/* Demand / supply constraints */\n" ++
    s!"{sumText (g.sources.map edgeVar)} = 1;\n" ++
    s!"{sumText (g.sinks.map edgeVar)} = 1;\n" ++
    "\n/* Iteration count */\n" ++
    s!"{sumText nodeVars} = {units};\n" ++
    "\n/*\n * Variable bounds\n */\n\n" ++
    String.join (vars.map fun v => s!"{v} >= 0;\n{v} <= {units};\n") ++
    "\n/*\n * Variable declarations\n */\n\n" ++
    String.join (vars.map fun v => s!"int {v};\n")

end CycleBounds.Offset.Graph
