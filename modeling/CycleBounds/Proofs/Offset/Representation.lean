import CycleBounds.Proofs.Offset.Exact

/-!
# The representation of offset graphs

A graph keeps what it knows in several places: nodes and edges by their indices, an index of the
offsets, and a list of edges at every end. Whatever operations a graph is built with, these agree
(`representation_agrees`). Every offset has one node, which the index finds; two ends have one edge,
which both of them list; and no node costs more at best than at worst.

* `Faithful`: what the operations keep, besides the lists of edges (`Registered`).
* `connect_again`: a graph whose terminals are connected is not changed by connecting them again.
-/

namespace CycleBounds.Offset.Graph

variable {g g' : Graph} {index offset bcet wcet : Nat} {u v : Endpoint}

/-! ### What the operations keep -/

/-- Nodes are found by their offsets, which are taken modulo the interval; their costs are in order;
and no two edges have the same ends. -/
structure Faithful (g : Graph) : Prop where
  indexed : g.Indexed
  offset_lt : ∀ {n o}, g.offset? n = some o → o < g.interval
  ordered : ∀ {n b w}, g.costs? n = some (b, w) → b ≤ w
  single : ∀ {i j : Nat} {e e' : Edge}, g.edges[i]? = some e → g.edges[j]? = some e' →
    e.start = e'.start → e.finish = e'.finish → i = j

/-- An empty graph is faithful. -/
theorem faithful_empty {interval : Nat} (h : empty interval = .ok g) : g.Faithful := by
  have hindexed := indexed_empty h
  unfold empty at h
  split at h
  · cases h
    refine ⟨hindexed, ?_, ?_, ?_⟩
    · rintro n o ⟨⟩
    · rintro n b w ⟨⟩
    · rintro i j e e' ⟨⟩
  · cases h

/-- A new node keeps a graph faithful. -/
theorem Faithful.addNode (hg : g.Faithful) (offset : Nat) : (g.addNode offset).1.Faithful := by
  rcases g.addNode_cases offset with ⟨n, -, heq⟩ | ⟨hfind, heq⟩
  · rw [heq]
    exact hg
  · rw [heq]
    refine ⟨hg.indexed.withOffset (hg.indexed.find?_eq_none hfind), ?_, ?_, hg.single⟩
    · intro n o ho
      rw [offset?_withOffset] at ho
      split at ho
      · rw [← Option.some.inj ho]
        exact Nat.mod_lt _ g.interval_pos
      · exact hg.offset_lt ho
    · intro n b w hcosts
      rw [costs?, node_withOffset] at hcosts
      split at hcosts
      · cases hcosts
        exact Nat.le_refl 0
      · exact hg.ordered hcosts

/-- Weights that are set keep a graph faithful. -/
theorem Faithful.setWeights (hg : g.Faithful) (h : g.setWeights index bcet wcet = .ok g') :
    g'.Faithful := by
  obtain ⟨⟨⟩, hle, h⟩ := bind_eq_ok.mp h
  have hle : bcet ≤ wcet := of_decide_eq_true (assume_eq_ok.mp hle)
  obtain ⟨m, hm, rfl⟩ := updateNode_eq_ok h
  obtain ⟨hindex, rfl⟩ := Array.getElem?_eq_some_iff.mp hm
  have hoffset := offset?_withNode (m := { g.nodes[index] with bcet, wcet }) hindex rfl
  refine ⟨hg.indexed.of_same rfl hoffset, ?_, ?_, hg.single⟩
  · intro n o ho
    exact hg.offset_lt ((hoffset n).symm.trans ho)
  · intro n b w hcosts
    by_cases hn : n = index
    · rw [hn, costs?, node_withNode hindex] at hcosts
      cases hcosts
      exact hle
    · rw [costs?, node_withNode_of_ne hn] at hcosts
      exact hg.ordered hcosts

/-- A new edge keeps a graph faithful. -/
theorem Faithful.addEdge (hg : g.Faithful) {new : Option Nat}
    (h : g.addEdge u v bcet wcet = .ok (g', new)) : g'.Faithful := by
  rcases addEdge_cases h with ⟨-, rfl⟩ | ⟨hnew, hattaches⟩
  · exact hg
  · have hgrows := hattaches.grows
    refine ⟨hattaches.indexed hg.indexed, ?_, ?_, ?_⟩
    · intro n o ho
      rw [hgrows.offset?] at ho
      rw [hgrows.interval]
      exact hg.offset_lt ho
    · intro n b w hcosts
      rw [hgrows.costs?] at hcosts
      exact hg.ordered hcosts
    · intro i j e e' hi hj hstart hfinish
      obtain hi | ⟨rfl, rfl⟩ := hattaches.edge_cases.mp hi <;>
        obtain hj | ⟨rfl, rfl⟩ := hattaches.edge_cases.mp hj
      · exact hg.single hi hj hstart hfinish
      -- an old edge would connect the ends of the new one
      · exact absurd ⟨i, e, hi, hstart, hfinish⟩ hnew
      · exact absurd ⟨j, e', hj, hstart.symm, hfinish.symm⟩ hnew
      · rfl

/-! ### Terminals -/

/-- Terminals are connected edge by edge. -/
theorem connect_eq_ok {start : Nat} (h : g.connect start = .ok g') :
    start < g.nodes.size ∧ ∃ g₁ new, g.addEdge .source (.node start) 0 0 = .ok (g₁, new) ∧
      (List.range g₁.nodes.size).foldlM (fun g n => do
        let r ← g.addEdge (.node n) .sink 0 0
        return r.1) g₁ = .ok g' := by
  obtain ⟨⟨⟩, hstart, h⟩ := bind_eq_ok.mp h
  obtain ⟨⟨g₁, new⟩, hadd, h⟩ := bind_eq_ok.mp h
  exact ⟨of_decide_eq_true (assume_eq_ok.mp hstart), g₁, new, hadd, h⟩

theorem Faithful.connect (hg : g.Faithful) (h : g.connect index = .ok g') : g'.Faithful := by
  obtain ⟨-, g₁, new, hadd, h⟩ := connect_eq_ok h
  refine foldlM_rel (R := fun g g' => g.Faithful → g'.Faithful) (fun _ => id)
    (fun hst htu => htu ∘ hst) ?_ h (hg.addEdge hadd)
  intro n _ s t hstep hs
  obtain ⟨⟨t', new'⟩, hadd', hstep⟩ := bind_eq_ok.mp hstep
  cases hstep
  exact hs.addEdge hadd'

/-- All graphs that the operations build are faithful. -/
theorem Built.faithful (h : g.Built) : g.Faithful := by
  induction h with
  | empty h => exact faithful_empty h
  | addNode offset _ ih => exact ih.addNode offset
  | setWeights _ h ih => exact ih.setWeights h
  | addEdge _ h ih => exact ih.addEdge h
  | connect _ h ih => exact ih.connect h

/-- The terminals of a graph are connected. -/
structure Connected (g : Graph) (start : Nat) : Prop where
  start_lt : start < g.nodes.size
  source : g.Arc .source (.node start)
  sink : ∀ n < g.nodes.size, g.Arc (.node n) .sink

/-- To connect a node joins it with the source, and all nodes with the sink. -/
theorem connected_of_connect {start : Nat} (h : g.connect start = .ok g') :
    g'.Connected start := by
  obtain ⟨hstart, g₁, new, hadd, h⟩ := connect_eq_ok h
  obtain ⟨hgrows, harc⟩ := addEdge_grows hadd
  -- every step connects its node, and later steps keep what is connected
  have hstep : ∀ n ∈ List.range g₁.nodes.size, ∀ s : Graph, True →
      Ensures (fun _ : Fault => True) (do
        let r ← s.addEdge (.node n) .sink 0 0
        return r.1) fun t => True ∧ s.Grows t ∧ t.Arc (.node n) .sink := by
    intro n _ s _
    apply Ensures.of_result
    intro t ht
    obtain ⟨⟨t', new'⟩, hadd', ht⟩ := bind_eq_ok.mp ht
    cases ht
    exact ⟨trivial, addEdge_grows hadd'⟩
  have hfold := Ensures.foldlM (I := fun _ => True) (Q := fun n t => t.Arc (.node n) .sink)
    Grows.refl Grows.trans (fun hgrows => hgrows.arc) hstep (s := g₁) trivial
  obtain ⟨-, hgrows', hsinks⟩ := hfold.result h
  refine ⟨?_, hgrows'.arc harc, fun n hn => ?_⟩
  · rwa [hgrows'.size, hgrows.size]
  · rw [hgrows'.size] at hn
    exact hsinks n (List.mem_range.mpr hn)

/-- Connecting terminals once more changes nothing. -/
theorem Connected.connect_eq {start : Nat} (h : g.Connected start) :
    g.connect start = .ok g := by
  have hfold : ∀ ns : List Nat, (∀ n ∈ ns, n < g.nodes.size) → ns.foldlM (fun g n => do
      let r ← g.addEdge (.node n) .sink 0 0
      return r.1) g = .ok g := by
    intro ns hns
    induction ns with
    | nil => rfl
    | cons n ns ih =>
      rw [List.forall_mem_cons] at hns
      rw [List.foldlM_cons, addEdge_of_arc (h.sink n hns.1)]
      exact ih hns.2
  rw [connect, decide_eq_true h.start_lt, addEdge_of_arc h.source]
  exact hfold _ fun n hn => List.mem_range.mp hn

theorem connect_again {start : Nat} (h : g.connect start = .ok g') : g'.connect start = .ok g' :=
  (connected_of_connect h).connect_eq

/-! ### The whole -/

/-- A list has the edges with an end at a given place, by ascending index and each of them once. -/
structure ListsEdges (g : Graph) (side : Edge → Endpoint) (u : Endpoint) (l : List Nat) : Prop where
  ascending : l.Pairwise (· < ·)
  mem_iff : ∀ i, i ∈ l ↔ ∃ e, g.edges[i]? = some e ∧ side e = u

theorem listsEdges_edgesAt (g : Graph) (side : Edge → Endpoint) (u : Endpoint) :
    g.ListsEdges side u (g.edgesAt side u) where
  ascending := List.pairwise_lt_range.filter _
  mem_iff i := by rw [mem_edgesAt, Option.map_eq_some_iff]

/-- The lists at a node that exists are its own. -/
theorem exists_lists (hg : g.Registered) {n : Nat} (hn : n < g.nodes.size) :
    (∃ l, g.incoming n = .ok l ∧ g.ListsEdges Edge.finish (.node n) l) ∧
      ∃ l, g.outgoing n = .ok l ∧ g.ListsEdges Edge.start (.node n) l := by
  have hnode : g.node n = .ok g.nodes[n] := node_eq_ok.mpr (Array.getElem?_eq_getElem hn)
  have hlist : ∀ side : Node → List Nat, side g.nodes[n] = g.listAt side n := by
    intro side
    rw [listAt, Array.getElem?_eq_getElem hn]
    rfl
  constructor
  · have hin : g.nodes[n].incoming = g.edgesAt Edge.finish (.node n) :=
      (hlist Node.incoming).trans (hg.arriving (.node n))
    refine ⟨g.nodes[n].incoming, by rw [incoming, hnode]; rfl, ?_⟩
    rw [hin]
    exact g.listsEdges_edgesAt _ _
  · have hout : g.nodes[n].outgoing = g.edgesAt Edge.start (.node n) :=
      (hlist Node.outgoing).trans (hg.leaving (.node n))
    refine ⟨g.nodes[n].outgoing, by rw [outgoing, hnode]; rfl, ?_⟩
    rw [hout]
    exact g.listsEdges_edgesAt _ _

/-- Whatever operations a graph is built with, all its parts agree. No two nodes have the same
offset, all offsets are below the interval, and an offset is found at the node that has it modulo
the interval. No two edges have the same ends. Every node lists the edges into and out of it, the
source those out of it and the sink those into it, by ascending index and each of them once. Nodes
cost at worst what they cost at best or more. Connecting the terminals twice is connecting them
once. -/
theorem representation_agrees (h : g.Built) :
    (∀ m n o, g.offset? m = some o → g.offset? n = some o → m = n) ∧
    (∀ n o, g.offset? n = some o → o < g.interval) ∧
    (∀ o n, g.find? o = some n ↔ g.offset? n = some (o % g.interval)) ∧
    (∀ (i j : Nat) (e e' : Edge), g.edges[i]? = some e → g.edges[j]? = some e' →
      e.start = e'.start → e.finish = e'.finish → i = j) ∧
    (∀ n < g.nodes.size,
      (∃ l, g.incoming n = .ok l ∧ g.ListsEdges Edge.finish (.node n) l) ∧
      ∃ l, g.outgoing n = .ok l ∧ g.ListsEdges Edge.start (.node n) l) ∧
    g.ListsEdges Edge.start .source g.sources ∧
    g.ListsEdges Edge.finish .sink g.sinks ∧
    (∀ n bcet wcet, g.costs? n = some (bcet, wcet) → bcet ≤ wcet) ∧
    ∀ start g', g.connect start = .ok g' → g'.connect start = .ok g' := by
  have hg := h.faithful
  have hlists := h.registered
  refine ⟨?_, fun n o => hg.offset_lt, fun o n => hg.indexed _ n, fun i j e e' => hg.single,
    fun n => exists_lists hlists, ?_, ?_, fun n b w => hg.ordered, fun start g' => connect_again⟩
  · intro m n o hm hn
    exact Option.some.inj (((hg.indexed o m).mpr hm).symm.trans ((hg.indexed o n).mpr hn))
  · rw [show g.sources = _ from hlists.leaving .source]
    exact g.listsEdges_edgesAt _ _
  · rw [show g.sinks = _ from hlists.arriving .sink]
    exact g.listsEdges_edgesAt _ _

/-- In the graph of two offsets, the second one is found three rounds later, and the last two edges
lead to the sink. -/
theorem representation_agrees_looping : ∃ g, looping = .ok g ∧ g.Built ∧
    g.offset? 1 = some 5 ∧ g.find? 41 = some 1 ∧ g.ListsEdges Edge.finish .sink [4, 5] := by
  have hcomputed : (looping.toOption.map fun g => (g.interval, g.offset? 1, g.sinks)) =
      some (12, some 5, [4, 5]) := by
    decide +kernel
  obtain ⟨g, hg, hparts⟩ := Option.map_eq_some_iff.mp hcomputed
  rw [toOption_eq_some] at hg
  obtain ⟨hinterval, hparts⟩ := Prod.mk.inj hparts
  obtain ⟨hoffset, hsinks⟩ := Prod.mk.inj hparts
  have hbuilt := built_looping hg
  obtain ⟨-, -, hfind, -, -, -, hlists, -⟩ := representation_agrees hbuilt
  refine ⟨g, hg, hbuilt, hoffset, ?_, hsinks ▸ hlists⟩
  rw [hfind, hinterval]
  exact hoffset

end CycleBounds.Offset.Graph
