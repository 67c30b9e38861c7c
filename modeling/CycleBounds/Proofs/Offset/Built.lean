import CycleBounds.Proofs.Offset.Graph

/-!
# Graphs that are built by the operations

A graph knows its edges twice: each edge has its ends, and each end lists its edges. Whatever
operations a graph is built with, the two agree (`Registered`): an end lists exactly the edges at
it, by ascending index and each of them once. An end that does not exist lists none, so edges lead
between nodes that exist, none leaves the sink and none enters the source.

* `leaveFrom_lists`, `arriveAt_lists`: an edge is registered at one of its ends.
* `Built.registered`: the ends and the lists agree in every graph that is built.
-/

namespace CycleBounds.Offset.Graph

variable {g g' : Graph} {n index edge bcet wcet : Nat}

/-- A graph that comes from the operations. -/
inductive Built : Graph → Prop
  | empty {interval : Nat} {g : Graph} : empty interval = .ok g → Built g
  | addNode {g : Graph} (offset : Nat) : Built g → Built (g.addNode offset).1
  | setWeights {g g' : Graph} {index bcet wcet : Nat} : Built g →
      g.setWeights index bcet wcet = .ok g' → Built g'
  | addEdge {g g' : Graph} {u v : Endpoint} {bcet wcet : Nat} {new : Option Nat} : Built g →
      g.addEdge u v bcet wcet = .ok (g', new) → Built g'
  | connect {g g' : Graph} {start : Nat} : Built g → g.connect start = .ok g' → Built g'

/-! ### Edges at an end -/

/-- What a node lists; a node that does not exist lists nothing. -/
def listAt (g : Graph) (side : Node → List Nat) (n : Nat) : List Nat :=
  (g.nodes[n]?.map side).getD []

def leaving (g : Graph) : Endpoint → List Nat
  | .source => g.sources
  | .node n => g.listAt Node.outgoing n
  | .sink => []

def arriving (g : Graph) : Endpoint → List Nat
  | .source => []
  | .node n => g.listAt Node.incoming n
  | .sink => g.sinks

def start? (g : Graph) (i : Nat) : Option Endpoint :=
  g.edges[i]?.map Edge.start

def finish? (g : Graph) (i : Nat) : Option Endpoint :=
  g.edges[i]?.map Edge.finish

def edgesAt (g : Graph) (side : Edge → Endpoint) (u : Endpoint) : List Nat :=
  (List.range g.edges.size).filter fun i => g.edges[i]?.map side = some u

theorem mem_edgesAt {side : Edge → Endpoint} {u : Endpoint} {i : Nat} :
    i ∈ g.edgesAt side u ↔ g.edges[i]?.map side = some u := by
  rw [edgesAt, List.mem_filter, List.mem_range, decide_eq_true_iff]
  refine and_iff_right_of_imp fun h => ?_
  obtain ⟨e, he, -⟩ := Option.map_eq_some_iff.mp h
  exact (Array.getElem?_eq_some_iff.mp he).1

theorem nodup_edgesAt (side : Edge → Endpoint) (u : Endpoint) : (g.edgesAt side u).Nodup :=
  List.nodup_range.filter _

/-- A new edge is the last one at its ends. -/
theorem edgesAt_push (g : Graph) (e : Edge) (side : Edge → Endpoint) (u : Endpoint) :
    ({ g with edges := g.edges.push e } : Graph).edgesAt side u =
      if u = side e then g.edgesAt side u ++ [g.edges.size] else g.edgesAt side u := by
  have hold : ∀ i ∈ List.range g.edges.size, (g.edges.push e)[i]? = g.edges[i]? := by
    intro i hi
    rw [Array.getElem?_push, if_neg (Nat.ne_of_lt (List.mem_range.mp hi))]
  have hlast : (g.edges.push e)[g.edges.size]? = some e := Array.getElem?_push_size
  show (List.range (g.edges.push e).size).filter
    (fun i => (g.edges.push e)[i]?.map side = some u) = _
  rw [Array.size_push, List.range_succ, List.filter_append,
    List.filter_congr fun i hi => by rw [hold i hi]]
  by_cases hu : u = side e
  · simp [hu, edgesAt]
  · simp [hu, Ne.symm hu, edgesAt]

/-- Every end lists the edges at it. -/
structure Registered (g : Graph) : Prop where
  leaving : ∀ u, g.leaving u = g.edgesAt Edge.start u
  arriving : ∀ u, g.arriving u = g.edgesAt Edge.finish u

namespace Registered

variable {i : Nat} {e : Edge}

theorem mem_leaving (hg : g.Registered) {u : Endpoint} :
    i ∈ g.leaving u ↔ g.start? i = some u := by
  rw [hg.leaving u]
  exact mem_edgesAt

theorem mem_arriving (hg : g.Registered) {u : Endpoint} :
    i ∈ g.arriving u ↔ g.finish? i = some u := by
  rw [hg.arriving u]
  exact mem_edgesAt

/-- Edges finish at nodes that exist. -/
theorem exists_finish (hg : g.Registered) (hi : g.edges[i]? = some e) : g.Exists e.finish := by
  intro n hn
  have hmem : i ∈ g.arriving (.node n) := by
    rw [hg.mem_arriving, finish?, hi, ← hn]
    rfl
  by_contra hlt
  simp [Graph.arriving, listAt, Array.getElem?_eq_none (Nat.le_of_not_lt hlt)] at hmem

/-- Only the edges and the lists matter. -/
theorem of_same (hg : g.Registered) (hedges : g'.edges = g.edges)
    (hleaving : ∀ u, g'.leaving u = g.leaving u) (harriving : ∀ u, g'.arriving u = g.arriving u) :
    g'.Registered where
  leaving u := by
    rw [hleaving u, hg.leaving u, edgesAt, edgesAt, hedges]
  arriving u := by
    rw [harriving u, hg.arriving u, edgesAt, edgesAt, hedges]

end Registered

/-! ### Changes of a node -/

theorem listAt_withNode {m m' : Node} (h : g.nodes[index]? = some m) (side : Node → List Nat)
    (n : Nat) : (g.withNode index m').listAt side n =
      if n = index then side m' else g.listAt side n := by
  have hlt := (Array.getElem?_eq_some_iff.mp h).1
  by_cases hn : n = index
  · rw [if_pos hn, hn, listAt, node_withNode hlt]
    rfl
  · rw [if_neg hn, listAt, node_withNode_of_ne hn, listAt]

/-- A node keeps its list. -/
theorem listAt_withNode_same {m m' : Node} (h : g.nodes[index]? = some m)
    (side : Node → List Nat) (hside : side m' = side m) (n : Nat) :
    (g.withNode index m').listAt side n = g.listAt side n := by
  rw [listAt_withNode h]
  split
  · rename_i hn
    rw [hn, listAt, h, hside]
    rfl
  · rfl

/-- A node lists one more edge. -/
theorem listAt_withNode_append {m m' : Node} (h : g.nodes[index]? = some m)
    (side : Node → List Nat) (hside : side m' = side m ++ [edge]) (n : Nat) :
    (g.withNode index m').listAt side n =
      if n = index then g.listAt side n ++ [edge] else g.listAt side n := by
  rw [listAt_withNode h]
  split
  · rename_i hn
    rw [hn, listAt, h, hside]
    rfl
  · rfl

/-! ### Operations -/

/-- A new node keeps a graph registered. -/
theorem Registered.addNode (hg : g.Registered) (offset : Nat) :
    (g.addNode offset).1.Registered := by
  rcases g.addNode_cases offset with ⟨n, -, heq⟩ | ⟨-, heq⟩
  · rw [heq]
    exact hg
  · rw [heq]
    -- the new node lists nothing, just as it did before it existed
    have hlist : ∀ side : Node → List Nat, side ⟨offset % g.interval, 0, 0, [], []⟩ = [] →
        ∀ n, (g.withOffset (offset % g.interval)).listAt side n = g.listAt side n := by
      intro side hside n
      rw [listAt, node_withOffset]
      split
      · rename_i hn
        rw [listAt, hn, Array.getElem?_eq_none (Nat.le_refl _), Option.map_some, hside]
        rfl
      · rfl
    refine hg.of_same rfl (fun u => ?_) (fun u => ?_)
    · cases u with
      | source | sink => rfl
      | node n => exact hlist Node.outgoing rfl n
    · cases u with
      | source | sink => rfl
      | node n => exact hlist Node.incoming rfl n

/-- Weights that are set keep a graph registered. -/
theorem Registered.setWeights (hg : g.Registered)
    (h : g.setWeights index bcet wcet = .ok g') : g'.Registered := by
  obtain ⟨-, -, h⟩ := bind_eq_ok.mp h
  obtain ⟨m, hm, rfl⟩ := updateNode_eq_ok h
  refine hg.of_same rfl (fun u => ?_) (fun u => ?_)
  · cases u with
    | source | sink => rfl
    | node n => exact listAt_withNode_same hm Node.outgoing (by rfl) n
  · cases u with
    | source | sink => rfl
    | node n => exact listAt_withNode_same hm Node.incoming (by rfl) n

/-- An edge is registered at its first end and nowhere else. -/
theorem leaveFrom_lists {u : Endpoint} (h : g.leaveFrom edge u = .ok g') :
    g'.edges = g.edges ∧ (∀ w, g'.arriving w = g.arriving w) ∧
      ∀ w, g'.leaving w = if w = u then g.leaving w ++ [edge] else g.leaving w := by
  cases u with
  | sink => cases h
  | source =>
    cases h
    refine ⟨rfl, fun w => by cases w <;> rfl, fun w => ?_⟩
    cases w with
    | source | sink | node n => simp [leaving, listAt]
  | node k =>
    obtain ⟨m, hm, rfl⟩ := updateNode_eq_ok h
    refine ⟨rfl, fun w => ?_, fun w => ?_⟩
    · cases w with
      | source | sink => rfl
      | node n => exact listAt_withNode_same hm Node.incoming (by rfl) n
    · cases w with
      | source | sink => simp [leaving, withNode]
      | node n =>
        simp only [Endpoint.node.injEq]
        exact listAt_withNode_append hm Node.outgoing rfl n

/-- An edge is registered at its second end and nowhere else. -/
theorem arriveAt_lists {u : Endpoint} (h : g.arriveAt edge u = .ok g') :
    g'.edges = g.edges ∧ (∀ w, g'.leaving w = g.leaving w) ∧
      ∀ w, g'.arriving w = if w = u then g.arriving w ++ [edge] else g.arriving w := by
  cases u with
  | source => cases h
  | sink =>
    cases h
    refine ⟨rfl, fun w => by cases w <;> rfl, fun w => ?_⟩
    cases w with
    | source | sink | node n => simp [arriving, listAt]
  | node k =>
    obtain ⟨m, hm, rfl⟩ := updateNode_eq_ok h
    refine ⟨rfl, fun w => ?_, fun w => ?_⟩
    · cases w with
      | source | sink => rfl
      | node n => exact listAt_withNode_same hm Node.outgoing (by rfl) n
    · cases w with
      | source | sink => simp [arriving, withNode]
      | node n =>
        simp only [Endpoint.node.injEq]
        exact listAt_withNode_append hm Node.incoming rfl n

/-- A new edge keeps a graph registered. -/
theorem Registered.addEdge (hg : g.Registered) {u v : Endpoint} {new : Option Nat}
    (h : g.addEdge u v bcet wcet = .ok (g', new)) : g'.Registered := by
  unfold Graph.addEdge at h
  split at h
  · cases h
    exact hg
  · obtain ⟨g₁, hleave, h⟩ := bind_eq_ok.mp h
    obtain ⟨g₂, harrive, h⟩ := bind_eq_ok.mp h
    cases h
    obtain ⟨hedges₁, harriving₁, hleaving₁⟩ := leaveFrom_lists hleave
    obtain ⟨hedges₂, hleaving₂, harriving₂⟩ := arriveAt_lists harrive
    -- the edge is pushed and registered at both ends, in the place that the push gives it
    have hedges := hedges₂.trans hedges₁
    constructor
    · intro w
      rw [hleaving₂, hleaving₁, edgesAt, hedges]
      exact (congrArg (fun l => if w = u then l ++ [g.edges.size] else l) (hg.leaving w)).trans
        (edgesAt_push g ⟨u, v, bcet, wcet⟩ Edge.start w).symm
    · intro w
      rw [harriving₂, harriving₁, edgesAt, hedges]
      exact (congrArg (fun l => if w = v then l ++ [g.edges.size] else l) (hg.arriving w)).trans
        (edgesAt_push g ⟨u, v, bcet, wcet⟩ Edge.finish w).symm

/-- Connected terminals keep a graph registered. -/
theorem Registered.connect (hg : g.Registered) (h : g.connect index = .ok g') :
    g'.Registered := by
  obtain ⟨-, -, h⟩ := bind_eq_ok.mp h
  obtain ⟨⟨g₁, new⟩, hadd, h⟩ := bind_eq_ok.mp h
  refine foldlM_rel (R := fun g g' => g.Registered → g'.Registered) (fun _ => id)
    (fun hst htu => htu ∘ hst) ?_ h (hg.addEdge hadd)
  intro n _ s t hstep hs
  obtain ⟨⟨t', new'⟩, hadd', hstep⟩ := bind_eq_ok.mp hstep
  cases hstep
  exact hs.addEdge hadd'

/-- Whatever operations a graph is built with, every end lists the edges at it. -/
theorem Built.registered (h : g.Built) : g.Registered := by
  induction h with
  | empty h =>
    unfold Graph.empty at h
    split at h
    · cases h
      exact ⟨fun u => by cases u <;> rfl, fun u => by cases u <;> rfl⟩
    · cases h
  | addNode offset _ ih => exact ih.addNode offset
  | setWeights _ h ih => exact ih.setWeights h
  | addEdge _ h ih => exact ih.addEdge h
  | connect _ h ih => exact ih.connect h

end CycleBounds.Offset.Graph
