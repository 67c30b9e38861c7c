import CycleBounds.Offset.Graph
import CycleBounds.Proofs.Results

/-!
# Building offset graphs

An offset graph is looked at through the offsets and the costs of its nodes and the arcs between
them. Every operation that builds a graph says what it does to these views, and keeps edges between
nodes that exist (`Proper`).

* `addNode_spec`, `setWeights_spec`, `addEdge_spec`: one operation each.
* `connect_spec`: walks start at one node and may end at any.
-/

namespace CycleBounds.Offset.Graph

variable {g g' : Graph} {n index offset bcet wcet : Nat}

/-! ### Views -/

def offset? (g : Graph) (n : Nat) : Option Nat :=
  g.nodes[n]?.map (·.offset)

def costs? (g : Graph) (n : Nat) : Option (Nat × Nat) :=
  g.nodes[n]?.map fun m => (m.bcet, m.wcet)

def Arc (g : Graph) (u v : Endpoint) : Prop :=
  ∃ (i : Nat) (e : Edge), g.edges[i]? = some e ∧ e.start = u ∧ e.finish = v

/-- An end of an edge is a node that exists, or no node. -/
def Exists (g : Graph) (u : Endpoint) : Prop :=
  ∀ n, u = .node n → n < g.nodes.size

/-- Offsets are looked up as the nodes have them. -/
def Indexed (g : Graph) : Prop :=
  ∀ offset n, g.byOffset.get? offset = some n ↔ g.offset? n = some offset

/-- Edges lead between nodes that exist and cost nothing, and those at the source and the sink are
registered there. Nodes are found by their offsets. -/
structure Proper (g : Graph) : Prop where
  start : ∀ {i : Nat} {e : Edge}, g.edges[i]? = some e → g.Exists e.start
  finish : ∀ {i : Nat} {e : Edge}, g.edges[i]? = some e → g.Exists e.finish
  source : ∀ {i : Nat} {e : Edge}, g.edges[i]? = some e → e.start = .source → i ∈ g.sources
  sink : ∀ {i : Nat} {e : Edge}, g.edges[i]? = some e → e.finish = .sink → i ∈ g.sinks
  free : ∀ {i : Nat} {e : Edge}, g.edges[i]? = some e → e.bcet = 0 ∧ e.wcet = 0
  indexed : g.Indexed

theorem Proper.weight_eq_zero (hg : g.Proper) {i : Nat} {e : Edge} (hi : g.edges[i]? = some e)
    (o : Objective) : e.weight o = 0 := by
  obtain ⟨hbest, hworst⟩ := hg.free hi
  cases o
  · exact hbest
  · exact hworst

/-- The same nodes with the same costs, and maybe more edges. -/
structure Grows (g g' : Graph) : Prop where
  interval : g'.interval = g.interval
  size : g'.nodes.size = g.nodes.size
  offset? : ∀ n, g'.offset? n = g.offset? n
  costs? : ∀ n, g'.costs? n = g.costs? n
  arc : ∀ {u v}, g.Arc u v → g'.Arc u v

theorem Grows.refl (g : Graph) : g.Grows g :=
  ⟨rfl, rfl, fun _ => rfl, fun _ => rfl, id⟩

theorem Grows.trans {g'' : Graph} (h : g.Grows g') (h' : g'.Grows g'') : g.Grows g'' where
  interval := h'.interval.trans h.interval
  size := h'.size.trans h.size
  offset? n := (h'.offset? n).trans (h.offset? n)
  costs? n := (h'.costs? n).trans (h.costs? n)
  arc := h'.arc ∘ h.arc

theorem offset?_eq_some_iff : g.offset? n = some offset ↔
    ∃ node, g.nodes[n]? = some node ∧ node.offset = offset := by
  rw [Graph.offset?, Option.map_eq_some_iff]

theorem lt_size_of_offset? (h : g.offset? n = some offset) : n < g.nodes.size := by
  obtain ⟨node, hnode, -⟩ := offset?_eq_some_iff.mp h
  exact (Array.getElem?_eq_some_iff.mp hnode).1

theorem exists_offset? (h : n < g.nodes.size) : ∃ offset, g.offset? n = some offset :=
  ⟨_, offset?_eq_some_iff.mpr ⟨_, Array.getElem?_eq_getElem h, rfl⟩⟩

theorem exists_empty {interval : Nat} (hpos : 0 < interval) : ∃ g, empty interval = .ok g :=
  ⟨_, dif_pos hpos⟩

theorem indexed_empty {interval : Nat} (h : empty interval = .ok g) : g.Indexed := by
  unfold empty at h
  split at h
  · cases h
    exact fun offset n => ⟨nofun, nofun⟩
  · cases h

/-- An empty graph is proper, has the given interval and no nodes. -/
theorem empty_eq_ok {interval : Nat} (h : empty interval = .ok g) :
    g.interval = interval ∧ g.Proper ∧ g.nodes.size = 0 := by
  have hindexed := indexed_empty h
  unfold empty at h
  split at h
  · cases h
    exact ⟨rfl, ⟨nofun, nofun, nofun, nofun, nofun, hindexed⟩, rfl⟩
  · cases h

/-! ### Nodes -/

theorem node_eq_ok {m : Node} : g.node n = .ok m ↔ g.nodes[n]? = some m := by
  rw [node]
  cases g.nodes[n]? with
  | none => simp
  | some x => simp

def withNode (g : Graph) (index : Nat) (m : Node) : Graph :=
  { g with nodes := g.nodes.setIfInBounds index m }

theorem updateNode_eq {f : Node → Node} (h : index < g.nodes.size) :
    g.updateNode index f = .ok (g.withNode index (f g.nodes[index])) := by
  have hnode := node_eq_ok.mpr (Array.getElem?_eq_getElem h)
  rw [updateNode, hnode]
  rfl

theorem updateNode_eq_ok {f : Node → Node} (h : g.updateNode index f = .ok g') :
    ∃ m, g.nodes[index]? = some m ∧ g' = g.withNode index (f m) := by
  obtain ⟨m, hm, h⟩ := bind_eq_ok.mp h
  rw [pure_eq_ok] at h
  exact ⟨m, node_eq_ok.mp hm, h.symm⟩

section WithNode

variable {m : Node}

theorem size_withNode : (g.withNode index m).nodes.size = g.nodes.size :=
  Array.size_setIfInBounds

theorem node_withNode (h : index < g.nodes.size) :
    (g.withNode index m).nodes[index]? = some m := by
  simp [withNode, h]

theorem node_withNode_of_ne (h : n ≠ index) : (g.withNode index m).nodes[n]? = g.nodes[n]? :=
  Array.getElem?_setIfInBounds_ne h.symm

theorem offset?_withNode (h : index < g.nodes.size) (hoffset : m.offset = g.nodes[index].offset)
    (n : Nat) : (g.withNode index m).offset? n = g.offset? n := by
  by_cases hn : n = index
  · rw [hn, Graph.offset?, node_withNode h, Graph.offset?, Array.getElem?_eq_getElem h]
    exact congrArg some hoffset
  · rw [Graph.offset?, node_withNode_of_ne hn, Graph.offset?]

/-- Only the index and the offsets matter. -/
theorem Indexed.of_same (hg : g.Indexed) (hindex : g'.byOffset = g.byOffset)
    (hoffset : ∀ n, g'.offset? n = g.offset? n) : g'.Indexed := by
  intro offset n
  rw [hindex, hoffset]
  exact hg offset n

theorem Proper.withNode (hg : g.Proper) (h : index < g.nodes.size)
    (hoffset : m.offset = g.nodes[index].offset) : (g.withNode index m).Proper := by
  have hexists : ∀ {u}, g.Exists u → (g.withNode index m).Exists u := by
    intro u hu n hn
    rw [size_withNode]
    exact hu n hn
  exact ⟨fun h => hexists (hg.start h), fun h => hexists (hg.finish h), hg.source, hg.sink, hg.free,
    hg.indexed.of_same rfl (offset?_withNode h hoffset)⟩

end WithNode

theorem Indexed.find?_eq_none (hg : g.Indexed) (h : g.find? offset = none) (n : Nat) :
    g.offset? n ≠ some (offset % g.interval) := by
  intro hn
  cases h.symm.trans ((hg _ n).mpr hn)

/-- A node is added for an offset that has none yet. -/
def withOffset (g : Graph) (offset : Nat) : Graph :=
  { g with
    nodes := g.nodes.push ⟨offset, 0, 0, [], []⟩
    byOffset := g.byOffset.insert offset g.nodes.size }

theorem node_withOffset_of_lt (h : n < g.nodes.size) :
    (g.withOffset offset).nodes[n]? = g.nodes[n]? := by
  show (g.nodes.push _)[n]? = _
  rw [Array.getElem?_push, if_neg (Nat.ne_of_lt h)]

theorem node_withOffset (g : Graph) (offset n : Nat) :
    (g.withOffset offset).nodes[n]? =
      if n = g.nodes.size then some ⟨offset, 0, 0, [], []⟩ else g.nodes[n]? :=
  Array.getElem?_push

theorem offset?_withOffset (g : Graph) (offset n : Nat) :
    (g.withOffset offset).offset? n = if n = g.nodes.size then some offset else g.offset? n := by
  rw [Graph.offset?, node_withOffset]
  split
  · rfl
  · rfl

/-- A new offset is found at the new node, all others where they were. -/
theorem Indexed.withOffset (hg : g.Indexed) (hnew : ∀ n, g.offset? n ≠ some offset) :
    (g.withOffset offset).Indexed := by
  intro offset' n
  rw [offset?_withOffset]
  show (g.byOffset.insert offset g.nodes.size).get? offset' = some n ↔ _
  by_cases ho : offset' = offset
  · rw [ho, Table.get?_insert_self]
    split
    · simp_all
    · rename_i hn
      simp [hnew n, Ne.symm hn]
  · rw [Table.get?_insert_of_ne _ ho, hg]
    split
    · rename_i hn
      -- there was no such node before
      simp [hn, Graph.offset?, Ne.symm ho]
    · rfl

theorem addNode_cases (g : Graph) (offset : Nat) :
    (∃ n, g.find? offset = some n ∧ g.addNode offset = (g, n, false)) ∨
      g.find? offset = none ∧
        g.addNode offset = (g.withOffset (offset % g.interval), g.nodes.size, true) := by
  unfold addNode
  cases hfind : g.find? offset with
  | some n => exact .inl ⟨n, rfl, rfl⟩
  | none => exact .inr ⟨rfl, rfl⟩

/-- A node is found or added: the offset has a node, and other nodes are as before. -/
theorem addNode_spec (hg : g.Proper) {new : Bool} (h : g.addNode offset = (g', n, new)) :
    g'.Proper ∧ g'.interval = g.interval ∧ g'.offset? n = some (offset % g.interval) ∧
      (∀ m < g.nodes.size, g'.nodes[m]? = g.nodes[m]?) ∧ (∀ {u v}, g.Arc u v → g'.Arc u v) ∧
      (if new then n = g.nodes.size ∧ g'.nodes.size = g.nodes.size + 1 ∧
        ∀ m, g.offset? m ≠ some (offset % g.interval) else g' = g) := by
  rcases g.addNode_cases offset with ⟨k, hfind, heq⟩ | ⟨hfind, heq⟩
  · cases heq.symm.trans h
    exact ⟨hg, rfl, (hg.indexed _ _).mp hfind, fun _ _ => rfl, id, rfl⟩
  · cases heq.symm.trans h
    have hnew := hg.indexed.find?_eq_none hfind
    have hsize : (g.withOffset (offset % g.interval)).nodes.size = g.nodes.size + 1 :=
      Array.size_push _
    -- endpoints that existed still exist
    have hexists : ∀ {u}, g.Exists u → (g.withOffset (offset % g.interval)).Exists u := by
      intro u hu n hn
      have := hu n hn
      omega
    refine ⟨⟨fun h => hexists (hg.start h), fun h => hexists (hg.finish h), hg.source, hg.sink,
      hg.free, hg.indexed.withOffset hnew⟩, rfl, ?_, fun m hm => node_withOffset_of_lt hm, id, rfl,
      hsize, hnew⟩
    rw [offset?_withOffset, if_pos rfl]

/-- A node gets its costs, and nothing else changes. -/
theorem setWeights_spec (hg : g.Proper) (hindex : index < g.nodes.size) (hle : bcet ≤ wcet) :
    ∃ g', g.setWeights index bcet wcet = .ok g' ∧ g'.Proper ∧ g'.interval = g.interval ∧
      g'.nodes.size = g.nodes.size ∧ (∀ n, g'.offset? n = g.offset? n) ∧
      g'.costs? index = some (bcet, wcet) ∧ (∀ n ≠ index, g'.costs? n = g.costs? n) ∧
      ∀ {u v}, g.Arc u v → g'.Arc u v := by
  rw [setWeights, updateNode_eq hindex, decide_eq_true hle]
  refine ⟨_, rfl, hg.withNode hindex rfl, rfl, size_withNode, offset?_withNode hindex rfl, ?_,
    fun n hn => ?_, id⟩
  · rw [Graph.costs?, node_withNode hindex]
    rfl
  · rw [Graph.costs?, node_withNode_of_ne hn, Graph.costs?]

/-! ### Edges -/

/-- The same graph with an edge registered at one of its ends. -/
structure Registers (g g' : Graph) : Prop where
  interval : g'.interval = g.interval
  edges : g'.edges = g.edges
  byOffset : g'.byOffset = g.byOffset
  size : g'.nodes.size = g.nodes.size
  offset? : ∀ n, g'.offset? n = g.offset? n
  costs? : ∀ n, g'.costs? n = g.costs? n
  sources : ∀ i ∈ g.sources, i ∈ g'.sources
  sinks : ∀ i ∈ g.sinks, i ∈ g'.sinks

/-- Edges can be registered one after the other. -/
theorem Registers.trans {g'' : Graph} (h : g.Registers g') (h' : g'.Registers g'') :
    g.Registers g'' where
  interval := h'.interval.trans h.interval
  edges := h'.edges.trans h.edges
  byOffset := h'.byOffset.trans h.byOffset
  size := h'.size.trans h.size
  offset? n := (h'.offset? n).trans (h.offset? n)
  costs? n := (h'.costs? n).trans (h.costs? n)
  sources i hi := h'.sources i (h.sources i hi)
  sinks i hi := h'.sinks i (h.sinks i hi)

/-- A node may change its lists. -/
theorem registers_updateNode {f : Node → Node} (h : g.updateNode index f = .ok g')
    (hf : ∀ m, (f m).offset = m.offset ∧ (f m).bcet = m.bcet ∧ (f m).wcet = m.wcet) :
    g.Registers g' := by
  obtain ⟨m, hm, rfl⟩ := updateNode_eq_ok h
  obtain ⟨hindex, rfl⟩ := Array.getElem?_eq_some_iff.mp hm
  obtain ⟨hoffset, hbest, hworst⟩ := hf g.nodes[index]
  refine ⟨rfl, rfl, rfl, size_withNode, offset?_withNode hindex hoffset, fun n => ?_, fun _ => id,
    fun _ => id⟩
  by_cases hn : n = index
  · rw [hn, Graph.costs?, node_withNode hindex, Graph.costs?, hm, Option.map_some, hbest, hworst]
    rfl
  · rw [Graph.costs?, node_withNode_of_ne hn, Graph.costs?]

/-- To register an edge where it leaves changes no offset and no cost. -/
theorem leaveFrom_eq_ok {edge : Nat} {u : Endpoint} (h : g.leaveFrom edge u = .ok g') :
    g.Registers g' ∧ (u = .source → edge ∈ g'.sources) := by
  cases u with
  | sink => cases h
  | source =>
    cases h
    refine ⟨⟨rfl, rfl, rfl, rfl, fun _ => rfl, fun _ => rfl, ?_, fun _ => id⟩, fun _ => ?_⟩
    · exact fun i hi => List.mem_append_left _ hi
    · exact List.mem_append_right _ (List.mem_singleton_self _)
  | node n => exact ⟨registers_updateNode h fun _ => ⟨rfl, rfl, rfl⟩, nofun⟩

/-- To register an edge where it arrives changes no offset and no cost. -/
theorem arriveAt_eq_ok {edge : Nat} {u : Endpoint} (h : g.arriveAt edge u = .ok g') :
    g.Registers g' ∧ (u = .sink → edge ∈ g'.sinks) := by
  cases u with
  | source => cases h
  | sink =>
    cases h
    refine ⟨⟨rfl, rfl, rfl, rfl, fun _ => rfl, fun _ => rfl, fun _ => id, ?_⟩, fun _ => ?_⟩
    · exact fun i hi => List.mem_append_left _ hi
    · exact List.mem_append_right _ (List.mem_singleton_self _)
  | node n => exact ⟨registers_updateNode h fun _ => ⟨rfl, rfl, rfl⟩, nofun⟩

theorem exists_leaveFrom (edge : Nat) {u : Endpoint} (hu : g.Exists u) (hsink : u ≠ .sink) :
    ∃ g', g.leaveFrom edge u = .ok g' := by
  cases u with
  | sink => exact absurd rfl hsink
  | source => exact ⟨_, rfl⟩
  | node n => exact ⟨_, updateNode_eq (hu n rfl)⟩

theorem exists_arriveAt (edge : Nat) {u : Endpoint} (hu : g.Exists u) (hsource : u ≠ .source) :
    ∃ g', g.arriveAt edge u = .ok g' := by
  cases u with
  | source => exact absurd rfl hsource
  | sink => exact ⟨_, rfl⟩
  | node n => exact ⟨_, updateNode_eq (hu n rfl)⟩

/-- The same graph with one more edge, which is registered at both ends. -/
structure Attaches (g : Graph) (e : Edge) (g' : Graph) : Prop where
  registers : ({ g with edges := g.edges.push e } : Graph).Registers g'
  source : e.start = .source → g.edges.size ∈ g'.sources
  sink : e.finish = .sink → g.edges.size ∈ g'.sinks

section Attaches

variable {e : Edge}

/-- An edge is an old one or the new one. -/
theorem Attaches.edge_cases (h : g.Attaches e g') {i : Nat} {e' : Edge} :
    g'.edges[i]? = some e' ↔ g.edges[i]? = some e' ∨ i = g.edges.size ∧ e' = e := by
  rw [h.registers.edges, Array.getElem?_push]
  by_cases hi : i = g.edges.size
  · simp [hi, eq_comm]
  · simp [hi]

theorem Attaches.grows (h : g.Attaches e g') : g.Grows g' where
  interval := h.registers.interval
  size := h.registers.size
  offset? := h.registers.offset?
  costs? := h.registers.costs?
  arc := by
    rintro u v ⟨i, e', hi, hends⟩
    exact ⟨i, e', h.edge_cases.mpr (.inl hi), hends⟩

theorem Attaches.arc (h : g.Attaches e g') : g'.Arc e.start e.finish :=
  ⟨g.edges.size, e, h.edge_cases.mpr (.inr ⟨rfl, rfl⟩), rfl, rfl⟩

theorem Attaches.indexed (h : g.Attaches e g') (hg : g.Indexed) : g'.Indexed :=
  hg.of_same h.registers.byOffset h.registers.offset?

/-- An edge without costs keeps a graph proper if both of its ends exist. -/
theorem Attaches.proper (h : g.Attaches e g') (hg : g.Proper) (hstart : g.Exists e.start)
    (hfinish : g.Exists e.finish) (hfree : e.bcet = 0 ∧ e.wcet = 0) : g'.Proper := by
  have hexists : ∀ {w}, g.Exists w → g'.Exists w :=
    fun hw n hn => h.registers.size.symm ▸ hw n hn
  -- every edge is an old one or the one that is attached
  constructor
  case start =>
    intro i e' hi
    obtain hi | ⟨-, rfl⟩ := h.edge_cases.mp hi
    · exact hexists (hg.start hi)
    · exact hexists hstart
  case finish =>
    intro i e' hi
    obtain hi | ⟨-, rfl⟩ := h.edge_cases.mp hi
    · exact hexists (hg.finish hi)
    · exact hexists hfinish
  case source =>
    intro i e' hi hsource
    obtain hi | ⟨rfl, rfl⟩ := h.edge_cases.mp hi
    · exact h.registers.sources i (hg.source hi hsource)
    · exact h.source hsource
  case sink =>
    intro i e' hi hsink
    obtain hi | ⟨rfl, rfl⟩ := h.edge_cases.mp hi
    · exact h.registers.sinks i (hg.sink hi hsink)
    · exact h.sink hsink
  case free =>
    intro i e' hi
    obtain hi | ⟨-, rfl⟩ := h.edge_cases.mp hi
    · exact hg.free hi
    · exact hfree
  case indexed => exact h.indexed hg.indexed

end Attaches

section AddEdge

variable {u v : Endpoint}

theorem any_ends_iff :
    (g.edges.any fun e => e.start = u ∧ e.finish = v) = true ↔ g.Arc u v := by
  simp only [Array.any_eq_true, decide_eq_true_eq]
  constructor
  · rintro ⟨i, hi, hends⟩
    exact ⟨i, _, Array.getElem?_eq_getElem hi, hends⟩
  · rintro ⟨i, e, hi, hends⟩
    obtain ⟨hlt, rfl⟩ := Array.getElem?_eq_some_iff.mp hi
    exact ⟨i, hlt, hends⟩

/-- Ends that are connected stay as they are. -/
theorem addEdge_of_arc (h : g.Arc u v) (bcet wcet : Nat) :
    g.addEdge u v bcet wcet = .ok (g, none) :=
  if_pos (any_ends_iff.mpr h)

/-- Two ends are connected already, or they get an edge. -/
theorem addEdge_cases {new : Option Nat} (h : g.addEdge u v bcet wcet = .ok (g', new)) :
    g.Arc u v ∧ g' = g ∨ ¬ g.Arc u v ∧ g.Attaches ⟨u, v, bcet, wcet⟩ g' := by
  by_cases harc : g.Arc u v
  · cases (addEdge_of_arc harc bcet wcet).symm.trans h
    exact .inl ⟨harc, rfl⟩
  · rw [addEdge, if_neg (mt any_ends_iff.mp harc)] at h
    obtain ⟨g₁, hleave, h⟩ := bind_eq_ok.mp h
    obtain ⟨g₂, harrive, h⟩ := bind_eq_ok.mp h
    cases h
    obtain ⟨hreg₁, hsource⟩ := leaveFrom_eq_ok hleave
    obtain ⟨hreg₂, hsink⟩ := arriveAt_eq_ok harrive
    exact .inr ⟨harc, hreg₁.trans hreg₂, fun hu => hreg₂.sources _ (hsource hu), hsink⟩

theorem addEdge_grows {new : Option Nat} (h : g.addEdge u v bcet wcet = .ok (g', new)) :
    g.Grows g' ∧ g'.Arc u v := by
  rcases addEdge_cases h with ⟨harc, rfl⟩ | ⟨-, hattaches⟩
  · exact ⟨.refl _, harc⟩
  · exact ⟨hattaches.grows, hattaches.arc⟩

/-- Two ends get connected unless they are, and nothing else changes. -/
theorem addEdge_spec (hg : g.Proper) (hu : g.Exists u) (hv : g.Exists v) (hsink : u ≠ .sink)
    (hsource : v ≠ .source) :
    ∃ g' i, g.addEdge u v 0 0 = .ok (g', i) ∧ g.Grows g' ∧ g'.Proper ∧ g'.Arc u v := by
  have hresult : ∃ r, g.addEdge u v 0 0 = .ok r := by
    by_cases harc : g.Arc u v
    · exact ⟨_, addEdge_of_arc harc 0 0⟩
    · obtain ⟨g₁, hleave⟩ := exists_leaveFrom g.edges.size
        (g := { g with edges := g.edges.push ⟨u, v, 0, 0⟩ }) hu hsink
      have hv₁ : g₁.Exists v := fun n hn => (leaveFrom_eq_ok hleave).1.size.symm ▸ hv n hn
      obtain ⟨g₂, harrive⟩ := exists_arriveAt g.edges.size hv₁ hsource
      rw [addEdge, if_neg (mt any_ends_iff.mp harc)]
      exact ⟨_, bind_eq_ok.mpr ⟨g₁, hleave, bind_eq_ok.mpr ⟨g₂, harrive, rfl⟩⟩⟩
  obtain ⟨⟨g', i⟩, h⟩ := hresult
  obtain ⟨hgrows, harc⟩ := addEdge_grows h
  refine ⟨g', i, h, hgrows, ?_, harc⟩
  rcases addEdge_cases h with ⟨-, rfl⟩ | ⟨-, hattaches⟩
  · exact hg
  · exact hattaches.proper hg hu hv ⟨rfl, rfl⟩

end AddEdge

/-- Walks start at one node and may end at any. -/
theorem connect_spec (hg : g.Proper) (hindex : index < g.nodes.size) :
    ∃ g', g.connect index = .ok g' ∧ g.Grows g' ∧ g'.Proper ∧ g'.Arc .source (.node index) ∧
      ∀ n < g.nodes.size, g'.Arc (.node n) .sink := by
  obtain ⟨g₁, i, hadd, hgrows, hg₁, harc⟩ := addEdge_spec (u := .source) (v := .node index) hg
    (by rintro n ⟨⟩) (by rintro n ⟨⟩; exact hindex) (by rintro ⟨⟩) (by rintro ⟨⟩)
  -- the nodes are connected to the sink one by one
  have hall : ∀ k ≤ g₁.nodes.size, ∃ g', (List.range k).foldlM (fun g n => do
      let r ← g.addEdge (.node n) .sink 0 0
      return r.1) g₁ = .ok g' ∧ g₁.Grows g' ∧ g'.Proper ∧ ∀ n < k, g'.Arc (.node n) .sink := by
    intro k hk
    induction k with
    | zero => exact ⟨g₁, rfl, .refl g₁, hg₁, nofun⟩
    | succ k ih =>
      obtain ⟨g₂, hfold, hgrows₂, hg₂, harcs⟩ := ih (Nat.le_of_succ_le hk)
      have hexists : g₂.Exists (.node k) := by
        rintro n ⟨⟩
        rw [hgrows₂.size]
        exact hk
      obtain ⟨g₃, j, hadd₃, hgrows₃, hg₃, harc₃⟩ :=
        addEdge_spec (v := .sink) hg₂ hexists (by rintro n ⟨⟩) (by rintro ⟨⟩) (by rintro ⟨⟩)
      refine ⟨g₃, ?_, hgrows₂.trans hgrows₃, hg₃, fun n hn => ?_⟩
      · rw [List.range_succ, List.foldlM_append]
        refine bind_eq_ok.mpr ⟨g₂, hfold, ?_⟩
        rw [List.foldlM_cons, hadd₃]
        rfl
      · rcases Nat.lt_succ_iff_lt_or_eq.mp hn with hn | rfl
        · exact hgrows₃.arc (harcs n hn)
        · exact harc₃
  obtain ⟨g', hfold, hgrows', hg', harcs⟩ := hall g₁.nodes.size (Nat.le_refl _)
  refine ⟨g', ?_, hgrows.trans hgrows', hg', hgrows'.arc harc, hgrows.size ▸ harcs⟩
  rw [connect, decide_eq_true hindex]
  exact bind_eq_ok.mpr ⟨(), rfl, bind_eq_ok.mpr ⟨(g₁, i), hadd, hfold⟩⟩

end CycleBounds.Offset.Graph
