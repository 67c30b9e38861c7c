import CycleBounds.Offset.Listing
import CycleBounds.Proofs.Offset.Exact
import Mathlib.Algebra.BigOperators.Ring.Finset
import Mathlib.Algebra.Order.Ring.Cast
import Mathlib.Algebra.Order.Ring.Rat
import Mathlib.Data.Int.LeastGreatest
import Mathlib.Data.Nat.Cast.Order.Ring

/-!
# The integer program of a walk

The text of an integer program is read as an objective, constraints over variables and declarations
of variables that have to be integers (`IntegerProgram`). Its solutions assign numbers to variables.
The counts of a route solve the program of its graph: what arrives at a node leaves it again, since
the edges of a route lead from one visited node to the next.

* `text_program`: the program of a graph is the one that is printed.
* `Route.feasible`, `Route.value_eq`: the counts of a route solve it, and the objective is its
  weight.
* `bestWalk_feasible`: so does the answer of a search, which is hence never beyond the optimum.
-/

namespace CycleBounds.Offset

/-! ### Integer programs -/

/-- A variable counts the uses of an edge or the visits of a node. -/
inductive Variable where
  | edge (i : Nat)
  | node (n : Nat)
deriving DecidableEq, Repr

def Variable.text : Variable → String
  | .edge i => Graph.edgeVar i
  | .node n => Graph.nodeVar n

inductive Comparison where
  | eq
  | ge
  | le
deriving DecidableEq, Repr

namespace Comparison

def text : Comparison → String
  | .eq => " = "
  | .ge => " >= "
  | .le => " <= "

def Holds : Comparison → ℚ → ℚ → Prop
  | .eq, x, y => x = y
  | .ge, x, y => y ≤ x
  | .le, x, y => x ≤ y

end Comparison

inductive Side where
  | sum (vs : List Variable)
  | number (n : Nat)
deriving DecidableEq, Repr

namespace Side

def text : Side → String
  | .sum vs => Graph.sumText (vs.map Variable.text)
  | .number n => toString n

def value (a : Variable → ℚ) : Side → ℚ
  | .sum vs => (vs.map a).sum
  | .number n => n

end Side

structure Constraint where
  left : Side
  comparison : Comparison
  right : Side
deriving DecidableEq, Repr

namespace Constraint

def text (c : Constraint) : String :=
  s!"{c.left.text}{c.comparison.text}{c.right.text};\n"

def Holds (a : Variable → ℚ) (c : Constraint) : Prop :=
  c.comparison.Holds (c.left.value a) (c.right.value a)

end Constraint

/-- A weighted sum to be optimised under constraints, by kind, and the variables that are
integers. -/
structure IntegerProgram where
  objective : Objective
  terms : List (Nat × Variable)
  conservation : List Constraint
  demand : List Constraint
  count : List Constraint
  bounds : List Constraint
  integers : List Variable

namespace IntegerProgram

def objectiveText (p : IntegerProgram) : String :=
  (match p.objective with
    | .maximize => "MAX: "
    | .minimize => "MIN: ") ++
    Graph.sumText (p.terms.map fun t => s!"{t.1} {t.2.text}") ++ ";\n"

def linesText (cs : List Constraint) : String :=
  String.join (cs.map Constraint.text)

def text (p : IntegerProgram) : String :=
  "/*\n * Objective function\n */\n\n" ++ p.objectiveText ++
    "\n/*\n * Constraints\n */\n\n" ++
    "/* Flow conservation constraints */\n" ++ linesText p.conservation ++
    "\n/* Demand / supply constraints */\n" ++ linesText p.demand ++
    "\n/* Iteration count */\n" ++ linesText p.count ++
    "\n/*\n * Variable bounds\n */\n\n" ++ linesText p.bounds ++
    "\n/*\n * Variable declarations\n */\n\n" ++
    String.join (p.integers.map fun v => s!"int {v.text};\n")

/-- All constraints hold, and the variables that are declared so are integers. -/
structure Feasible (p : IntegerProgram) (a : Variable → ℚ) : Prop where
  conservation : ∀ c ∈ p.conservation, c.Holds a
  demand : ∀ c ∈ p.demand, c.Holds a
  count : ∀ c ∈ p.count, c.Holds a
  bounds : ∀ c ∈ p.bounds, c.Holds a
  integral : ∀ v ∈ p.integers, ∃ z : ℤ, a v = z

def value (p : IntegerProgram) (a : Variable → ℚ) : ℚ :=
  (p.terms.map fun t => t.1 * a t.2).sum

def values (p : IntegerProgram) : Set ℚ :=
  { x | ∃ a, p.Feasible a ∧ x = p.value a }

end IntegerProgram

namespace Graph

variable {g : Graph} {o : Objective} {units : Nat}

def vars (g : Graph) : List Variable :=
  (List.range g.edges.size).map .edge ++ (List.range g.nodes.size).map .node

/-- A walk leaves a node as often as it enters it. -/
def conservation (index : Nat) (n : Node) : List Constraint :=
  [⟨.sum (n.incoming.map .edge), .eq, .sum [.node index]⟩,
    ⟨.sum [.node index], .eq, .sum (n.outgoing.map .edge)⟩]

/-- The weighted variables of edges or nodes; weights of zero are left out. -/
def terms {α : Type} (weight : α → Nat) (var : Nat → Variable) (xs : Array α) :
    List (Nat × Variable) :=
  ((numbered xs).filter fun p => weight p.2 ≠ 0).map fun p => (weight p.2, var p.1)

/-- The integer program of a walk that visits `units` nodes. -/
def program (g : Graph) (o : Objective) (units : Nat) : IntegerProgram where
  objective := o
  terms := terms (·.weight o) .edge g.edges ++ terms (·.weight o) .node g.nodes
  conservation := (numbered g.nodes).flatMap fun p => conservation p.1 p.2
  demand := [⟨.sum (g.sources.map .edge), .eq, .number 1⟩,
    ⟨.sum (g.sinks.map .edge), .eq, .number 1⟩]
  count := [⟨.sum ((List.range g.nodes.size).map .node), .eq, .number units⟩]
  bounds := g.vars.flatMap fun v =>
    [⟨.sum [v], .ge, .number 0⟩, ⟨.sum [v], .le, .number units⟩]
  integers := g.vars

/-! ### Its text -/

theorem linesText_flatMap {α : Type} (f : α → List Constraint) (xs : List α) :
    IntegerProgram.linesText (xs.flatMap f) =
      String.join (xs.map fun x => IntegerProgram.linesText (f x)) := by
  induction xs with
  | nil => rfl
  | cons x xs ih =>
    rw [List.flatMap_cons, List.map_cons, String.join_cons, ← ih, IntegerProgram.linesText,
      List.map_append, String.join_append]
    rfl

theorem linesText_pair (c d : Constraint) :
    IntegerProgram.linesText [c, d] = c.text ++ d.text := by
  simp [IntegerProgram.linesText, String.join_cons]

/-- The program prints the objective of the graph. -/
theorem objectiveText_program (g : Graph) (o : Objective) (units : Nat) :
    (g.program o units).objectiveText = g.objectiveText o := by
  have hterms : ∀ {α : Type} (weight : α → Nat) (var : Nat → Variable) (xs : Array α),
      ((terms weight var xs).map fun t => s!"{t.1} {t.2.text}") =
        ((numbered xs).filter fun p => weight p.2 ≠ 0).map fun p =>
          s!"{weight p.2} {(var p.1).text}" := by
    intro α weight var xs
    rw [terms, List.map_map]
    rfl
  rw [IntegerProgram.objectiveText, program, List.map_append, hterms, hterms]
  rfl

theorem linesText_conservation (index : Nat) (n : Node) :
    IntegerProgram.linesText (conservation index n) = conservationText index n := by
  rw [conservation, linesText_pair, conservationText, Constraint.text, Constraint.text]
  simp only [Side.text, List.map_map]
  rfl

theorem sumText_singleton (term : String) : sumText [term] = term := rfl

theorem linesText_bounds (v : Variable) (units : Nat) :
    IntegerProgram.linesText [⟨.sum [v], .ge, .number 0⟩, ⟨.sum [v], .le, .number units⟩] =
      s!"{v.text} >= 0;\n{v.text} <= {units};\n" := by
  have hzero : " >= 0;\n" = " >= " ++ (Nat.repr 0 ++ ";\n") := by decide
  rw [linesText_pair]
  simp only [Constraint.text, Side.text, Comparison.text, List.map_cons, List.map_nil,
    sumText_singleton, toString, hzero, String.append_assoc]

theorem linesText_demand (is js : List Nat) :
    IntegerProgram.linesText [⟨.sum (is.map .edge), .eq, .number 1⟩,
      ⟨.sum (js.map .edge), .eq, .number 1⟩] =
      s!"{sumText (is.map edgeVar)} = 1;\n" ++ s!"{sumText (js.map edgeVar)} = 1;\n" := by
  have hone : " = 1;\n" = " = " ++ (Nat.repr 1 ++ ";\n") := by decide
  have hvars : ∀ ks : List Nat, (ks.map Variable.edge).map Variable.text = ks.map edgeVar :=
    fun ks => List.map_map
  rw [linesText_pair]
  simp only [Constraint.text, Side.text, Comparison.text, hvars, toString, hone,
    String.append_assoc]

theorem linesText_count (ns : List Nat) (units : Nat) :
    IntegerProgram.linesText [⟨.sum (ns.map .node), .eq, .number units⟩] =
      s!"{sumText (ns.map nodeVar)} = {units};\n" := by
  have hvars : (ns.map Variable.node).map Variable.text = ns.map nodeVar := List.map_map
  simp only [IntegerProgram.linesText, List.map_cons, List.map_nil, String.join_cons,
    String.join_nil, String.append_empty, Constraint.text, Side.text, Comparison.text, hvars,
    toString]

theorem map_text_vars (g : Graph) (line : String → String) :
    (g.vars.map fun v => line v.text) =
      ((List.range g.edges.size).map edgeVar ++
        (List.range g.nodes.size).map nodeVar).map line := by
  simp only [vars, List.map_append, List.map_map]
  rfl

/-- The program of a graph is printed as the integer program of the graph. -/
theorem text_program (g : Graph) (o : Objective) (units : Nat) :
    (g.program o units).text = g.integerProgram o units := by
  have hconservation : IntegerProgram.linesText (g.program o units).conservation =
      String.join ((numbered g.nodes).map fun p => conservationText p.1 p.2) := by
    rw [program, linesText_flatMap]
    simp only [linesText_conservation]
  have hdemand := linesText_demand g.sources g.sinks
  have hcount := linesText_count (List.range g.nodes.size) units
  have hbounds : IntegerProgram.linesText (g.program o units).bounds = String.join (g.vars.map
      fun v => s!"{v.text} >= 0;\n{v.text} <= {units};\n") := by
    rw [program, linesText_flatMap]
    simp only [linesText_bounds]
  rw [map_text_vars g fun v => s!"{v} >= 0;\n{v} <= {units};\n"] at hbounds
  have hintegers : ((g.program o units).integers.map fun v => s!"int {v.text};\n") = _ :=
    map_text_vars g fun v => s!"int {v};\n"
  unfold IntegerProgram.text integerProgram
  simp only [objectiveText_program, hconservation, hbounds, hintegers]
  simp only [program, hdemand, hcount, String.append_assoc]

end Graph

/-! ### Counts -/

section Counts

variable {xs L : List Nat}

/-- A sum over a list, by how often each entry occurs. -/
theorem sum_map_eq_sum_count (f : Nat → Nat) (hL : L.Nodup) (hsub : ∀ x ∈ xs, x ∈ L) :
    (xs.map f).sum = (L.map fun i => f i * xs.count i).sum := by
  calc (xs.map f).sum = ∑ i ∈ xs.toFinset, xs.count i • f i := Finset.sum_list_map_count xs f
    _ = ∑ i ∈ L.toFinset, xs.count i • f i := by
        apply Finset.sum_subset
        · intro i hi
          exact List.mem_toFinset.mpr (hsub i (List.mem_toFinset.mp hi))
        · intro i _ hi
          rw [List.count_eq_zero.mpr fun h => hi (List.mem_toFinset.mpr h), zero_nsmul]
    _ = (L.map fun i => xs.count i • f i).sum := List.sum_toFinset _ hL
    _ = (L.map fun i => f i * xs.count i).sum := by
        simp only [nsmul_eq_mul, Nat.cast_id, Nat.mul_comm]

/-- How often the entries of a list occur in another one. -/
theorem sum_count_eq_countP (hL : L.Nodup) :
    (L.map fun i => xs.count i).sum = xs.countP (· ∈ L) := by
  have hsub : ∀ x ∈ xs.filter (· ∈ L), x ∈ L :=
    fun x hx => of_decide_eq_true (List.mem_filter.mp hx).2
  have hsum := sum_map_eq_sum_count (fun _ => 1) hL hsub
  rw [List.map_const', List.sum_replicate_nat, Nat.mul_one] at hsum
  rw [List.countP_eq_length_filter, hsum]
  congr 1
  apply List.map_congr_left
  intro i hi
  rw [Nat.one_mul]
  exact (List.count_filter (by simpa using hi)).symm

/-- Terms with the weight zero do not count. -/
theorem sum_filter_ne_zero {α : Type} (c f : α → Nat) (xs : List α) :
    ((xs.filter fun x => c x ≠ 0).map fun x => c x * f x).sum =
      (xs.map fun x => c x * f x).sum := by
  induction xs with
  | nil => rfl
  | cons x xs ih =>
    rw [List.filter_cons, List.map_cons, List.sum_cons, ← ih]
    by_cases hx : c x = 0
    · simp [hx]
    · simp [hx]

end Counts

namespace Endpoint

variable (ns : List Nat)

@[simp] theorem count_node (n : Nat) : (ns.map Endpoint.node).count (.node n) = ns.count n :=
  List.count_map_of_injective ns Endpoint.node (fun _ _ => Endpoint.node.inj) n

@[simp] theorem count_source : (ns.map Endpoint.node).count .source = 0 := by
  simp [List.count_eq_zero]

@[simp] theorem count_sink : (ns.map Endpoint.node).count .sink = 0 := by
  simp [List.count_eq_zero]

end Endpoint

namespace Route

variable {g : Graph} {o : Objective} {is ns : List Nat} {u : Endpoint} {units : Nat}

/-- The edges of a route start where it starts and at the nodes that it visits. -/
theorem map_start (h : Route g u is ns) :
    is.map g.start? = (u :: ns.map Endpoint.node).map some := by
  induction h with
  | exit hstart _ => simp [hstart]
  | visit hstart _ _ ih => simp [hstart, ih]

/-- The edges of a route finish at the nodes that it visits and at the sink. -/
theorem map_finish (h : Route g u is ns) :
    is.map g.finish? = (ns.map Endpoint.node ++ [Endpoint.sink]).map some := by
  induction h with
  | exit _ hfinish => simp [hfinish]
  | visit _ hfinish _ ih => simp [hfinish, ih]

theorem lt_size_edges (h : Route g u is ns) {i : Nat} (hi : i ∈ is) : i < g.edges.size := by
  have hmem : g.start? i ∈ is.map g.start? := List.mem_map_of_mem hi
  rw [h.map_start] at hmem
  obtain ⟨v, -, hv⟩ := List.mem_map.mp hmem
  obtain ⟨e, he, -⟩ := Graph.start?_eq_some.mp hv.symm
  exact (Array.getElem?_eq_some_iff.mp he).1

theorem lt_size_nodes (hg : g.Registered) (h : Route g u is ns) {n : Nat} (hn : n ∈ ns) :
    n < g.nodes.size := by
  have hmem : some (.node n) ∈ is.map g.finish? := by
    rw [h.map_finish]
    exact List.mem_map_of_mem (List.mem_append_left _ (List.mem_map_of_mem hn))
  obtain ⟨i, -, hi⟩ := List.mem_map.mp hmem
  obtain ⟨e, he, hfinish⟩ := Graph.finish?_eq_some.mp hi
  exact hg.exists_finish he n hfinish

/-- The edges at an end are used as often as the end occurs among those of the edges used. -/
theorem sum_edgesAt {side : Edge → Endpoint} {vs : List Endpoint}
    (h : is.map (fun i => g.edges[i]?.map side) = vs.map some) (v : Endpoint) :
    ((g.edgesAt side v).map fun i => is.count i).sum = vs.count v := by
  rw [sum_count_eq_countP (Graph.nodup_edgesAt side v),
    ← List.count_map_of_injective vs some (Option.some_injective _) v, ← h,
    List.count_eq_countP, List.countP_map]
  apply List.countP_congr
  intro i _
  simp [Graph.mem_edgesAt]

/-- A route arrives at an end as often as it visits it. -/
theorem sum_arriving (hg : g.Registered) (h : Route g u is ns) (v : Endpoint) :
    ((g.arriving v).map fun i => is.count i).sum =
      (ns.map Endpoint.node ++ [Endpoint.sink]).count v := by
  rw [hg.arriving v]
  exact sum_edgesAt h.map_finish v

/-- A route leaves an end as often as it starts there or visits it. -/
theorem sum_leaving (hg : g.Registered) (h : Route g u is ns) (v : Endpoint) :
    ((g.leaving v).map fun i => is.count i).sum = (u :: ns.map Endpoint.node).count v := by
  rw [hg.leaving v]
  exact sum_edgesAt h.map_start v

/-- No edge is used more often than nodes are visited. -/
theorem count_edge_le (h : Route g u is ns) (hpos : 0 < ns.length) (i : Nat) :
    is.count i ≤ ns.length := by
  by_cases hi : i ∈ is
  · have hle : is.count i ≤ (is.map g.finish?).count (g.finish? i) := List.count_le_count_map
    have hmem : g.finish? i ∈ is.map g.finish? := List.mem_map_of_mem hi
    rw [h.map_finish] at hle hmem
    obtain ⟨v, hv, heq⟩ := List.mem_map.mp hmem
    rw [← heq, List.count_map_of_injective _ some (Option.some_injective _)] at hle
    refine hle.trans ?_
    cases v with
    | source => simp
    | sink => simpa using Nat.succ_le_of_lt hpos
    | node n => simpa using List.count_le_length
  · rw [List.count_eq_zero.mpr hi]
    exact Nat.zero_le _

end Route

/-! ### Solutions -/

/-- How often a flow uses an edge or visits a node. -/
def Flow.uses (f : Flow) : Variable → Nat
  | .edge i => f.edges[i]?.getD 0
  | .node n => f.nodes[n]?.getD 0

/-- A flow as a solution. -/
def Flow.assignment (f : Flow) (v : Variable) : ℚ :=
  f.uses v

/-- How often lists of edges and nodes use an edge or visit a node. -/
def countUses (is ns : List Nat) : Variable → Nat
  | .edge i => is.count i
  | .node n => ns.count n

theorem getD_map_count {used : List Nat} {size : Nat} (hlt : ∀ i ∈ used, i < size) (i : Nat) :
    (((List.range size).map fun j => used.count j)[i]?).getD 0 = used.count i := by
  by_cases hi : i < size
  · simp [hi]
  · have hzero : used.count i = 0 := List.count_eq_zero.mpr fun h => hi (hlt i h)
    simp [hi, hzero]

theorem Side.value_natCast (uses : Variable → Nat) (vs : List Variable) :
    (Side.sum vs).value (fun v => uses v) = ((vs.map uses).sum : ℕ) := by
  rw [Side.value, Nat.cast_list_sum, List.map_map]
  rfl

section Equations

variable {uses : Variable → Nat} {vs ws : List Variable} {n : Nat}

theorem Constraint.holds_sums (h : (vs.map uses).sum = (ws.map uses).sum) :
    (⟨.sum vs, .eq, .sum ws⟩ : Constraint).Holds fun v => uses v := by
  show (Side.sum vs).value _ = (Side.sum ws).value _
  rw [Side.value_natCast, Side.value_natCast, h]

theorem Constraint.holds_number (h : (vs.map uses).sum = n) :
    (⟨.sum vs, .eq, .number n⟩ : Constraint).Holds fun v => uses v := by
  show (Side.sum vs).value _ = n
  rw [Side.value_natCast, h]

end Equations

namespace Graph

variable {g : Graph} {o : Objective} {units : Nat}

theorem mem_numbered {α : Type} {xs : Array α} {i : Nat} {x : α} :
    (i, x) ∈ numbered xs ↔ xs[i]? = some x := by
  rw [← Array.getElem?_toList, ← List.mk_mem_zipIdx_iff_getElem?, numbered]
  simp

theorem map_numbered {α β : Type} {xs : Array α} {F : Nat × α → β} {G : Nat → β}
    (h : ∀ i x, xs[i]? = some x → F (i, x) = G i) :
    (numbered xs).map F = (List.range xs.size).map G := by
  apply List.ext_getElem?
  intro i
  rw [numbered, List.map_map, List.getElem?_map, List.getElem?_map, List.getElem?_zipIdx,
    Array.getElem?_toList]
  by_cases hi : i < xs.size
  · simp [hi, h i xs[i] (Array.getElem?_eq_getElem hi)]
  · simp [hi]

/-- The terms of an objective add up the weights of all uses. -/
theorem sum_terms {α : Type} (weight : α → Nat) (var : Nat → Variable) (xs : Array α)
    (uses : Variable → Nat) :
    ((terms weight var xs).map fun t => t.1 * uses t.2).sum =
      ((List.range xs.size).map fun i => (xs[i]?.map weight).getD 0 * uses (var i)).sum := by
  rw [terms, List.map_map]
  refine (sum_filter_ne_zero (fun p : Nat × α => weight p.2) (fun p => uses (var p.1)) _).trans ?_
  rw [map_numbered]
  intro i x hx
  rw [hx]
  rfl

end Graph

namespace Route

variable {g : Graph} {o : Objective} {is ns : List Nat} {u : Endpoint} {units : Nat}

/-- The flow of a route counts its edges and nodes. -/
theorem uses_flowOf (hg : g.Registered) (h : Route g u is ns) :
    (g.flowOf is ns).uses = countUses is ns := by
  funext v
  cases v with
  | edge i => exact getD_map_count (fun _ => h.lt_size_edges) i
  | node n => exact getD_map_count (fun _ => h.lt_size_nodes hg) n

theorem map_countUses_edge (edges : List Nat) :
    (edges.map Variable.edge).map (countUses is ns) = edges.map fun i => is.count i :=
  List.map_map

/-- What enters a node leaves it again, as often as it is visited. -/
theorem conservation_holds (hg : g.Registered) (h : Route g .source is ns) {n : Nat} {m : Node}
    (hm : g.nodes[n]? = some m) :
    ∀ c ∈ Graph.conservation n m, c.Holds fun v => countUses is ns v := by
  have hin : g.arriving (.node n) = m.incoming := by
    rw [Graph.arriving, Graph.listAt, hm]
    rfl
  have hout : g.leaving (.node n) = m.outgoing := by
    rw [Graph.leaving, Graph.listAt, hm]
    rfl
  intro c hc
  rcases List.mem_cons.mp hc with rfl | hc
  · apply Constraint.holds_sums
    rw [map_countUses_edge, ← hin, h.sum_arriving hg]
    simp [countUses]
  · obtain rfl := List.mem_singleton.mp hc
    apply Constraint.holds_sums
    rw [map_countUses_edge, ← hout, h.sum_leaving hg]
    simp [countUses]

/-- The counts of a route satisfy all constraints. -/
theorem feasible (hg : g.Registered) (h : Route g .source is ns) (hpos : 0 < units)
    (hlength : ns.length = units) :
    (g.program o units).Feasible fun v => countUses is ns v := by
  constructor
  -- what enters a node leaves it, as a route goes on from where it arrives
  case conservation =>
    intro c hc
    obtain ⟨⟨n, m⟩, hm, hc⟩ := List.mem_flatMap.mp hc
    exact h.conservation_holds hg (Graph.mem_numbered.mp hm) c hc
  case demand =>
    intro c hc
    rcases List.mem_cons.mp hc with rfl | hc
    · apply Constraint.holds_number
      rw [map_countUses_edge]
      refine (h.sum_leaving hg .source).trans ?_
      simp
    · obtain rfl := List.mem_singleton.mp hc
      apply Constraint.holds_number
      rw [map_countUses_edge]
      refine (h.sum_arriving hg .sink).trans ?_
      simp
  case count =>
    intro c hc
    obtain rfl := List.mem_singleton.mp hc
    apply Constraint.holds_number
    have hall : ∀ n ∈ ns, decide (n ∈ List.range g.nodes.size) = true := by
      intro n hn
      exact decide_eq_true (List.mem_range.mpr (h.lt_size_nodes hg hn))
    rw [List.map_map]
    refine (sum_count_eq_countP List.nodup_range).trans ?_
    rw [List.countP_eq_length.mpr hall, hlength]
  -- a route with so many visits uses no edge and no node more often
  case bounds =>
    intro c hc
    obtain ⟨v, -, hc⟩ := List.mem_flatMap.mp hc
    have hle : countUses is ns v ≤ units := by
      cases v with
      | edge i => exact hlength ▸ h.count_edge_le (hlength ▸ hpos) i
      | node n => exact hlength ▸ List.count_le_length
    rcases List.mem_cons.mp hc with rfl | hc
    · simp [Constraint.Holds, Comparison.Holds, Side.value]
    · obtain rfl := List.mem_singleton.mp hc
      simpa [Constraint.Holds, Comparison.Holds, Side.value] using hle
  case integral =>
    intro v _
    exact ⟨countUses is ns v, rfl⟩

/-- The objective is the weight of the route. -/
theorem value_eq (o : Objective) (units : Nat) (hg : g.Registered) (h : Route g u is ns) :
    (g.program o units).value (fun v => countUses is ns v) = g.weightOf o is ns := by
  have hvalue : (g.program o units).value (fun v => countUses is ns v) =
      (((g.program o units).terms.map fun t => t.1 * countUses is ns t.2).sum : ℕ) := by
    rw [IntegerProgram.value, Nat.cast_list_sum, List.map_map]
    congr 1
    apply List.map_congr_left
    intro t _
    exact (Nat.cast_mul _ _).symm
  rw [hvalue, Graph.program, List.map_append, List.sum_append, Graph.sum_terms, Graph.sum_terms,
    Graph.weightOf, sum_map_eq_sum_count _ List.nodup_range fun i hi =>
      List.mem_range.mpr (h.lt_size_edges hi),
    sum_map_eq_sum_count _ List.nodup_range fun n hn => List.mem_range.mpr (h.lt_size_nodes hg hn)]
  rfl

end Route

/-! ### The optimum -/

/-- Integers between two bounds have a best one. -/
theorem Objective.exists_isBest (o : Objective) {values : Set ℚ} (hne : values.Nonempty)
    (hint : ∀ x ∈ values, ∃ z : ℤ, x = z) (lo hi : ℤ) (hlo : ∀ x ∈ values, lo ≤ x)
    (hhi : ∀ x ∈ values, x ≤ hi) : ∃ x, o.IsBest values x := by
  have hsome : ∃ z : ℤ, (z : ℚ) ∈ values := by
    obtain ⟨x, hx⟩ := hne
    obtain ⟨z, rfl⟩ := hint x hx
    exact ⟨z, hx⟩
  cases o with
  | minimize =>
    obtain ⟨z, hz, hleast⟩ := Int.exists_least_of_bdd (P := fun z : ℤ => (z : ℚ) ∈ values)
      ⟨lo, fun z hz => Int.cast_le.mp (hlo z hz)⟩ hsome
    refine ⟨z, hz, fun x hx => ?_⟩
    obtain ⟨y, rfl⟩ := hint x hx
    exact Int.cast_le.mpr (hleast y hx)
  | maximize =>
    obtain ⟨z, hz, hgreatest⟩ := Int.exists_greatest_of_bdd (P := fun z : ℤ => (z : ℚ) ∈ values)
      ⟨hi, fun z hz => Int.cast_le.mp (hhi z hz)⟩ hsome
    refine ⟨z, hz, fun x hx => ?_⟩
    obtain ⟨y, rfl⟩ := hint x hx
    exact Int.cast_le.mpr (hgreatest y hx)

/-- A sum of whole numbers is whole. -/
theorem exists_int_sum {α : Type} {f : α → ℚ} {xs : List α} (h : ∀ x ∈ xs, ∃ z : ℤ, f x = z) :
    ∃ z : ℤ, (xs.map f).sum = z := by
  induction xs with
  | nil => exact ⟨0, Int.cast_zero.symm⟩
  | cons x xs ih =>
    obtain ⟨y, hy⟩ := h x List.mem_cons_self
    obtain ⟨z, hz⟩ := ih fun x hx => h x (List.mem_cons_of_mem _ hx)
    refine ⟨y + z, ?_⟩
    rw [List.map_cons, List.sum_cons, hy, hz, Int.cast_add]

namespace Graph

variable {g : Graph} {o : Objective} {units : Nat} {a : Variable → ℚ}

/-- The objective is over the variables of the graph. -/
theorem mem_vars_of_mem_terms {t : Nat × Variable} (ht : t ∈ (g.program o units).terms) :
    t.2 ∈ g.vars := by
  have hindex : ∀ {α : Type} {weight : α → Nat} {var : Nat → Variable} {xs : Array α},
      t ∈ terms weight var xs → t.2 ∈ (List.range xs.size).map var := by
    intro α weight var xs h
    obtain ⟨⟨i, x⟩, hmem, rfl⟩ := List.mem_map.mp h
    have hi := mem_numbered.mp (List.mem_filter.mp hmem).1
    exact List.mem_map_of_mem (List.mem_range.mpr (Array.getElem?_eq_some_iff.mp hi).1)
  rcases List.mem_append.mp ht with ht | ht
  · exact List.mem_append_left _ (hindex ht)
  · exact List.mem_append_right _ (hindex ht)

/-- Variables are between zero and the number of visits. -/
theorem bounds_of_feasible (ha : (g.program o units).Feasible a) {v : Variable} (hv : v ∈ g.vars) :
    0 ≤ a v ∧ a v ≤ units := by
  have hlower := ha.bounds _ (List.mem_flatMap.mpr ⟨v, hv, List.mem_cons_self⟩)
  have hupper := ha.bounds _
    (List.mem_flatMap.mpr ⟨v, hv, List.mem_cons_of_mem _ List.mem_cons_self⟩)
  simp only [Constraint.Holds, Comparison.Holds, Side.value, List.map_cons, List.map_nil,
    List.sum_singleton, Nat.cast_zero] at hlower hupper
  exact ⟨hlower, hupper⟩

/-- An integer program that has a solution has an optimum. -/
theorem exists_optimum (ha : (g.program o units).Feasible a) :
    ∃ best, o.IsBest (g.program o units).values best := by
  have hterm : ∀ {a}, (g.program o units).Feasible a → ∀ t ∈ (g.program o units).terms,
      0 ≤ t.1 * a t.2 ∧ t.1 * a t.2 ≤ ((t.1 * units : ℕ) : ℚ) := by
    intro a ha t ht
    obtain ⟨hlower, hupper⟩ := bounds_of_feasible ha (mem_vars_of_mem_terms ht)
    refine ⟨mul_nonneg (Nat.cast_nonneg _) hlower, ?_⟩
    rw [Nat.cast_mul]
    exact mul_le_mul_of_nonneg_left hupper (Nat.cast_nonneg _)
  -- all variables are integers of at most `units`, so the objective has finitely many values
  let most : ℕ := ((g.program o units).terms.map fun t => t.1 * units).sum
  refine o.exists_isBest ⟨_, a, ha, rfl⟩ ?_ 0 most ?_ ?_
  · rintro x ⟨a, ha, rfl⟩
    refine exists_int_sum fun t ht => ?_
    obtain ⟨z, hz⟩ := ha.integral t.2 (mem_vars_of_mem_terms ht)
    exact ⟨t.1 * z, by rw [hz, Int.cast_mul, Int.cast_natCast]⟩
  · rintro x ⟨a, ha, rfl⟩
    rw [Int.cast_zero]
    apply List.sum_nonneg
    intro y hy
    obtain ⟨t, ht, rfl⟩ := List.mem_map.mp hy
    exact (hterm ha t ht).1
  · rintro x ⟨a, ha, rfl⟩
    rw [Int.cast_natCast, Nat.cast_list_sum, List.map_map]
    exact List.sum_le_sum fun t ht => (hterm ha t ht).2

end Graph

/-- The flow of the best walk solves the integer program of the graph, whose text is the one that is
printed. Its objective is the value of the walk, which is hence never beyond the optimum. -/
theorem bestWalk_feasible {g : Graph} {o : Objective} {units : Nat} {s : Solution}
    (hbuilt : g.Built) (hpos : 0 < units) (h : (bestWalk g o units).result = .ok s) :
    (g.program o units).text = g.integerProgram o units ∧
      ∃ flow, s.flow = some flow ∧ (g.program o units).Feasible flow.assignment ∧
        (g.program o units).value flow.assignment = s.value ∧
        ∃ best, o.IsBest (g.program o units).values best ∧
          (o = .maximize → s.value ≤ best) ∧ (o = .minimize → best ≤ s.value) := by
  have hg := hbuilt.registered
  -- the flow counts how often a route uses edges and nodes
  obtain ⟨is, ns, hroute, hlength, hvalue, hflow⟩ := (bestWalk_attained hg hpos).result h
  have hassignment : (g.flowOf is ns).assignment = fun v => (countUses is ns v : ℚ) := by
    funext v
    rw [Flow.assignment, hroute.uses_flowOf hg]
  have hfeasible := hroute.feasible (o := o) hg hpos hlength
  have hobjective := hroute.value_eq o units hg
  rw [← hassignment] at hfeasible hobjective
  rw [← hvalue] at hobjective
  obtain ⟨best, hbest⟩ := Graph.exists_optimum hfeasible
  have hmem : (s.value : ℚ) ∈ (g.program o units).values := ⟨_, hfeasible, hobjective.symm⟩
  refine ⟨g.text_program o units, g.flowOf is ns, hflow, hfeasible, hobjective, best, hbest, ?_, ?_⟩
  · rintro rfl
    exact hbest.2 hmem
  · rintro rfl
    exact hbest.2 hmem

/-- The flow of four visits that alternate between two offsets. -/
theorem bestWalk_feasible_looping : ∃ g s flow, looping = .ok g ∧ g.Built ∧ 0 < 4 ∧
    (bestWalk g .maximize 4).result = .ok s ∧ s.flow = some flow ∧
    (g.program .maximize 4).Feasible flow.assignment ∧
    (g.program .maximize 4).value flow.assignment = 32 := by
  obtain ⟨g, s, hg, hs, hvalue⟩ := looping_walk
  have hbuilt := built_looping hg
  obtain ⟨-, flow, hflow, hfeasible, hobjective, -⟩ := bestWalk_feasible hbuilt (by decide) hs
  refine ⟨g, s, flow, hg, hbuilt, by decide, hs, hflow, hfeasible, ?_⟩
  rw [hobjective, hvalue]
  rfl

end CycleBounds.Offset
