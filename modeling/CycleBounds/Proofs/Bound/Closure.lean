import CycleBounds.Proofs.Bound.Exploration
import CycleBounds.Proofs.Offset.Representation
import Mathlib.Logic.Relation

/-!
# Explored graphs have no more than they need

An explored graph leads to all offsets at which iterations may end (`Settled`), and it leads nowhere
else: every arc stands for an iteration that may end where the arc leads, and every node is come to
from the first one. Besides, walks start at the first node only and end at any, with one edge each.

* `arc_addEdge_iff`, `arc_connect_iff`: which arcs an operation adds.
* `Explores`: the work is done node by node until there is none left.
* `leadTo_exact`, `Explores.justified`: one node, and all of them.
* `Explored.closed`: what there is to know about an explored graph.
-/

namespace CycleBounds

namespace Offset.Graph

variable {g g' : Graph} {u v a b : Endpoint} {bcet wcet : Nat}

def Transition (g : Graph) (n m : Nat) : Prop :=
  g.Arc (.node n) (.node m)

theorem arc_of_edges (h : g'.edges = g.edges) : g'.Arc a b ↔ g.Arc a b := by
  rw [Arc, Arc, h]

theorem edges_addNode (g : Graph) (offset : Nat) : (g.addNode offset).1.edges = g.edges := by
  rcases g.addNode_cases offset with ⟨n, -, heq⟩ | ⟨-, heq⟩
  · rw [heq]
  · rw [heq]
    rfl

/-- Costs are all that changes. -/
theorem setWeights_same {index : Nat} (h : g.setWeights index bcet wcet = .ok g') :
    g'.interval = g.interval ∧ g'.edges = g.edges ∧ g'.nodes.size = g.nodes.size ∧
      ∀ n, g'.offset? n = g.offset? n := by
  obtain ⟨⟨⟩, -, h⟩ := bind_eq_ok.mp h
  obtain ⟨m, hm, rfl⟩ := updateNode_eq_ok h
  obtain ⟨hindex, rfl⟩ := Array.getElem?_eq_some_iff.mp hm
  exact ⟨rfl, rfl, size_withNode, offset?_withNode hindex rfl⟩

/-- An edge is all that is added. -/
theorem arc_addEdge_iff {new : Option Nat} (h : g.addEdge u v bcet wcet = .ok (g', new)) :
    g'.Arc a b ↔ g.Arc a b ∨ a = u ∧ b = v := by
  have hadded := (addEdge_grows h).2
  constructor
  · rintro ⟨i, e, hi, rfl, rfl⟩
    rcases addEdge_cases h with ⟨-, rfl⟩ | ⟨-, hattaches⟩
    · exact .inl ⟨i, e, hi, rfl, rfl⟩
    · obtain hi | ⟨-, rfl⟩ := hattaches.edge_cases.mp hi
      · exact .inl ⟨i, e, hi, rfl, rfl⟩
      · exact .inr ⟨rfl, rfl⟩
  · rintro (harc | ⟨rfl, rfl⟩)
    · exact (addEdge_grows h).1.arc harc
    · exact hadded

/-- To connect nodes with the sink adds these arcs and no others. -/
theorem arc_sinks_iff {ns : List Nat} (h : ns.foldlM (fun g n => do
      let r ← g.addEdge (.node n) .sink 0 0
      return r.1) g = .ok g') :
    g'.Arc a b ↔ g.Arc a b ∨ ∃ n ∈ ns, a = .node n ∧ b = .sink := by
  induction ns generalizing g with
  | nil =>
    obtain rfl := pure_eq_ok.mp h
    simp
  | cons n ns ih =>
    obtain ⟨g₁, hstep, h⟩ := foldlM_cons_eq_ok.mp h
    obtain ⟨⟨g₂, new⟩, hadd, hstep⟩ := bind_eq_ok.mp hstep
    obtain rfl := pure_eq_ok.mp hstep
    rw [ih h, arc_addEdge_iff hadd, or_assoc, List.exists_mem_cons_iff]

/-- Connecting the terminals adds nothing else. -/
theorem arc_connect_iff {start : Nat} (h : g.connect start = .ok g') :
    g'.Arc a b ↔ g.Arc a b ∨ (a = .source ∧ b = .node start) ∨
      ∃ n < g.nodes.size, a = .node n ∧ b = .sink := by
  obtain ⟨-, g₁, new, hadd, hsinks⟩ := connect_eq_ok h
  rw [arc_sinks_iff hsinks, arc_addEdge_iff hadd, or_assoc, (addEdge_grows hadd).1.size]
  simp only [List.mem_range]

theorem grows_connect {start : Nat} (h : g.connect start = .ok g') : g.Grows g' := by
  obtain ⟨-, g₁, new, hadd, h⟩ := connect_eq_ok h
  refine (addEdge_grows hadd).1.trans (foldlM_rel Grows.refl Grows.trans ?_ h)
  intro n _ s t hstep
  obtain ⟨⟨t', new'⟩, hadd', hstep⟩ := bind_eq_ok.mp hstep
  cases hstep
  exact (addEdge_grows hadd').1

theorem arc_iff_exists : g.Arc u v ↔ ∃ i, g.start? i = some u ∧ g.finish? i = some v := by
  constructor
  · rintro ⟨i, e, hi, rfl, rfl⟩
    exact ⟨i, by rw [start?, hi]; rfl, by rw [finish?, hi]; rfl⟩
  · rintro ⟨i, hstart, hfinish⟩
    obtain ⟨e, hi, rfl⟩ := Option.map_eq_some_iff.mp hstart
    rw [finish?, hi] at hfinish
    exact ⟨i, e, hi, rfl, Option.some.inj hfinish⟩

/-- No two edges have the same ends. -/
theorem Built.existsUnique_edge (h : g.Built) (harc : g.Arc u v) :
    ∃! i, g.start? i = some u ∧ g.finish? i = some v := by
  obtain ⟨i, e, hi, rfl, rfl⟩ := harc
  refine ⟨i, ⟨by rw [start?, hi]; rfl, by rw [finish?, hi]; rfl⟩, ?_⟩
  rintro j ⟨hstart, hfinish⟩
  obtain ⟨e', hj, hstart⟩ := Option.map_eq_some_iff.mp hstart
  rw [finish?, hj] at hfinish
  exact h.faithful.single hj hi hstart (Option.some.inj hfinish)

/-- An end with arcs to a single other one has a single edge. -/
theorem Built.existsUnique_start (h : g.Built) (harc : g.Arc u v)
    (honly : ∀ w, g.Arc u w → w = v) : ∃! i, g.start? i = some u := by
  obtain ⟨i, ⟨hstart, -⟩, hunique⟩ := h.existsUnique_edge harc
  refine ⟨i, hstart, fun j hj => hunique j ⟨hj, ?_⟩⟩
  obtain ⟨e, he, rfl⟩ := Option.map_eq_some_iff.mp hj
  rw [finish?, he, ← honly e.finish ⟨j, e, he, rfl, rfl⟩]
  rfl

end Offset.Graph

namespace Bound.Engine

open Code (Loop)
open Offset (Graph)

variable {body : Body} {loop : Loop} {context : Context} {g g' : Graph} {n m node : Nat}
  {seen work work' : List Nat}

/-! ### The work -/

/-- All work is done, one node after the other. -/
inductive Explores (body : Body) (loop : Loop) (context : Context) :
    Graph → List Nat → Graph → Prop
  | done {g : Graph} : Explores body loop context g [] g
  | node {g g₁ g₂ g' : Graph} {node best worst : Nat} {n : Offset.Node}
      {work work₂ ends : List Nat} : g.node node = .ok n →
      (steadyCost body .best loop context n.offset).result = .ok best →
      (steadyCost body .worst loop context n.offset).result = .ok worst →
      g.setWeights node (min best worst) (max best worst) = .ok g₁ →
      endOffsets g₁.interval n.offset (min best worst) (max best worst) = .ok ends →
      leadTo node ends g₁ work = .ok (g₂, work₂) → Explores body loop context g₂ work₂ g' →
      Explores body loop context g (node :: work) g'

/-- There are enough steps for all of the work. -/
theorem explores_of_explore {fuel : Nat} (h : Layout g seen work)
    (hfuel : seen.length + fuel = g.interval)
    (hrun : (explore body loop context fuel g work).result = .ok g') :
    Explores body loop context g work g' := by
  induction fuel generalizing g seen work with
  | zero =>
    -- all offsets have been seen, so no work is left
    have hlength := h.length_le
    obtain rfl : work = [] := List.eq_nil_of_length_eq_zero (by omega)
    obtain rfl := Except.ok.inj hrun
    exact .done
  | succ fuel ih =>
    cases work with
    | nil =>
      obtain rfl := Except.ok.inj hrun
      exact .done
    | cons node work =>
      have hnode : node < g.nodes.size := (h.mem node).mp (by simp)
      simp only [explore, Traced.result_bind, Traced.result_liftM_except] at hrun
      obtain ⟨n, hn, hrun⟩ := bind_eq_ok.mp hrun
      obtain ⟨best, hbest, hrun⟩ := bind_eq_ok.mp hrun
      obtain ⟨worst, hworst, hrun⟩ := bind_eq_ok.mp hrun
      obtain ⟨g₁, hset, hrun⟩ := bind_eq_ok.mp hrun
      obtain ⟨ends, hends, hrun⟩ := bind_eq_ok.mp hrun
      obtain ⟨⟨g₂, work₂⟩, hlead, hrun⟩ := bind_eq_ok.mp hrun
      rw [mapError_eq_ok] at hn hset hends hlead
      -- the step is the one that the lemmas on weights and arcs describe
      obtain ⟨g₁', hset', hg₁, hinterval, hsize, hoffsets, -⟩ :=
        Graph.setWeights_spec h.proper hnode (by omega : min best worst ≤ max best worst)
      obtain rfl := Except.ok.inj (hset.symm.trans hset')
      obtain ⟨g₂', work₂', hlead', hlayout, hlater, -⟩ :=
        leadTo_spec ends (h.move.congr hg₁ hinterval hsize hoffsets) (hsize.symm ▸ hnode)
      obtain ⟨rfl, rfl⟩ := Prod.mk.inj (Except.ok.inj (hlead.symm.trans hlead'))
      refine .node hn hbest hworst hset hends hlead (ih hlayout ?_ hrun)
      rw [hlater.interval, hinterval, ← hfuel, List.length_cons]
      omega

/-! ### Where iterations end -/

/-- Only offsets are found at which an iteration may end, also if all offsets are. -/
theorem of_mem_endOffsets {interval offset lo hi o : Nat} {ends : List Nat} (hpos : 0 < interval)
    (hle : lo ≤ hi) (h : endOffsets interval offset lo hi = .ok ends) (ho : o ∈ ends) :
    ∃ d, lo ≤ d ∧ d ≤ hi ∧ o = (offset + d) % interval := by
  unfold endOffsets at h
  split at h
  · -- all offsets are found if the costs differ by a whole interval
    rename_i hwide
    obtain rfl := Except.ok.inj h
    have hlt := List.mem_range.mp ho
    have hlag := Nat.mod_lt (offset + lo) hpos
    -- so many cycles later than at the earliest
    let later := o + interval - (offset + lo) % interval
    have hlater := Nat.mod_lt later hpos
    refine ⟨lo + later % interval, Nat.le_add_right _ _, by omega, ?_⟩
    symm
    calc (offset + (lo + later % interval)) % interval
      _ = (offset + lo + later) % interval := by rw [← Nat.add_assoc, Nat.add_mod_mod]
      _ = ((offset + lo) % interval + later) % interval := (Nat.mod_add_mod _ _ _).symm
      _ = (o + interval) % interval := by rw [Nat.add_sub_cancel' (by omega)]
      _ = o := by rw [Nat.add_mod_right, Nat.mod_eq_of_lt hlt]
  · obtain ⟨i, hi⟩ := List.getElem?_of_mem ho
    rcases mapM_getElem? h i with ⟨hnone, -⟩ | ⟨d, o', hd, ho', hsum⟩
    · cases hnone.symm.trans hi
    · obtain rfl := Option.some.inj (ho'.symm.trans hi)
      have hd := List.mem_range'_1.mp (List.mem_of_getElem? hd)
      obtain ⟨-, ho⟩ := Word.add_bind_eq_ok.mp hsum
      exact ⟨d, hd.1, by omega, (pure_eq_ok.mp ho).symm⟩

/-- A found or added node is that of its offset, and no other node is added. -/
theorem addNode_exact (hg : g.Built) (o : Nat) :
    Later g (g.addNode o).1 ∧
      (g.addNode o).1.offset? (g.addNode o).2.1 = some (o % g.interval) ∧
      ∀ n < (g.addNode o).1.nodes.size, n < g.nodes.size ∨ n = (g.addNode o).2.1 := by
  rcases g.addNode_cases o with ⟨k, hfind, heq⟩ | ⟨hfind, heq⟩
  · rw [heq]
    exact ⟨.refl g, (hg.faithful.indexed _ _).mp hfind, fun n hn => .inl hn⟩
  · rw [heq]
    refine ⟨⟨rfl, fun {n o'} ho' => ?_, id⟩, ?_, fun n hn => ?_⟩
    · have hlt := Graph.lt_size_of_offset? ho'
      rw [Graph.offset?_withOffset, if_neg (Nat.ne_of_lt hlt)]
      exact ho'
    · rw [Graph.offset?_withOffset, if_pos rfl]
    · have hsize : (g.withOffset (o % g.interval)).nodes.size = g.nodes.size + 1 :=
        Array.size_push _
      rw [hsize] at hn
      exact Nat.lt_succ_iff_lt_or_eq.mp hn

/-- Arcs are led to the given offsets only, and all new nodes get one. -/
theorem leadTo_exact {ends : List Nat} (hg : g.Built)
    (h : leadTo node ends g work = .ok (g', work')) :
    g'.Built ∧ Later g g' ∧
      (∀ {u v}, g'.Arc u v → g.Arc u v ∨
        u = .node node ∧ ∃ m, v = .node m ∧ ∃ o ∈ ends, g'.offset? m = some (o % g'.interval)) ∧
      ∀ n < g'.nodes.size, n < g.nodes.size ∨ g'.Transition node n := by
  induction ends generalizing g work with
  | nil =>
    obtain ⟨rfl, -⟩ := Prod.mk.inj (Except.ok.inj h)
    exact ⟨hg, .refl g, .inl, fun n hn => .inl hn⟩
  | cons o ends ih =>
    rw [leadTo] at h
    obtain ⟨⟨g₂, i⟩, hedge, h⟩ := bind_eq_ok.mp h
    obtain ⟨hlater₁, hoffset, hnodes₁⟩ := addNode_exact hg o
    obtain ⟨hgrows, hadded⟩ := Graph.addEdge_grows hedge
    have hlater₂ := hlater₁.trans (later_of_grows hgrows)
    obtain ⟨hg', hlater', harcs, hnodes⟩ := ih ((hg.addNode o).addEdge hedge) h
    -- an arc or a node is from later steps, from this one, or was there before
    refine ⟨hg', hlater₂.trans hlater', fun {u v} harc => ?_, fun n hn => ?_⟩
    · rcases harcs harc with harc | ⟨rfl, m, rfl, o', ho', hm⟩
      · rcases (Graph.arc_addEdge_iff hedge).mp harc with harc | ⟨rfl, rfl⟩
        · exact .inl ((Graph.arc_of_edges (g.edges_addNode o)).mp harc)
        · refine .inr ⟨rfl, _, rfl, o, List.mem_cons_self, ?_⟩
          rw [hlater'.interval, hlater₂.interval]
          exact hlater'.offset? ((hgrows.offset? _).trans hoffset)
      · exact .inr ⟨rfl, m, rfl, o', List.mem_cons_of_mem o ho', hm⟩
    · rcases hnodes n hn with hn | harc
      · rw [hgrows.size] at hn
        rcases hnodes₁ n hn with hn | rfl
        · exact .inl hn
        · exact .inr (hlater'.arc hadded)
      · exact .inr harc

/-! ### Justified arcs -/

/-- An iteration from a node may end at the offset of another one. -/
def Ends (body : Body) (loop : Loop) (context : Context) (g : Graph) (n m : Nat) : Prop :=
  ∃ offset best worst d, g.offset? n = some offset ∧
    (steadyCost body .best loop context offset).result = .ok best ∧
    (steadyCost body .worst loop context offset).result = .ok worst ∧
    min best worst ≤ d ∧ d ≤ max best worst ∧ g.offset? m = some ((offset + d) % g.interval)

theorem Ends.later (h : Ends body loop context g n m) (hlater : Later g g') :
    Ends body loop context g' n m := by
  obtain ⟨offset, best, worst, d, hoffset, hbest, hworst, hlo, hhi, hend⟩ := h
  refine ⟨offset, best, worst, d, hlater.offset? hoffset, hbest, hworst, hlo, hhi, ?_⟩
  rw [hlater.interval]
  exact hlater.offset? hend

theorem Ends.lt_size (h : Ends body loop context g n m) :
    n < g.nodes.size ∧ m < g.nodes.size := by
  obtain ⟨offset, best, worst, d, hoffset, -, -, -, -, hend⟩ := h
  exact ⟨Graph.lt_size_of_offset? hoffset, Graph.lt_size_of_offset? hend⟩

/-- Arcs lead to where iterations may end, and all nodes are come to from the first one. -/
structure Justified (body : Body) (loop : Loop) (context : Context) (g : Graph) : Prop where
  arc : ∀ {u v}, g.Arc u v → ∃ n m, u = .node n ∧ v = .node m ∧ Ends body loop context g n m
  reached : ∀ n < g.nodes.size, Relation.ReflTransGen g.Transition 0 n

theorem reached_later (hlater : Later g g') (h : Relation.ReflTransGen g.Transition 0 n) :
    Relation.ReflTransGen g'.Transition 0 n := by
  have hle : g.Transition ≤ g'.Transition := fun _ _ harc => hlater.arc harc
  exact Relation.ReflTransGen.mono hle 0 n h

/-- Whatever the work adds is justified. -/
theorem Explores.justified (h : Explores body loop context g work g') (hg : g.Built)
    (hjust : Justified body loop context g) :
    g'.Built ∧ Later g g' ∧ Justified body loop context g' := by
  induction h with
  | done => exact ⟨hg, .refl _, hjust⟩
  | @node g g₁ g₂ g' node best worst n work work₂ ends hn hbest hworst hset hends hlead _ ih =>
    have hnode := Graph.node_eq_ok.mp hn
    have hlt := (Array.getElem?_eq_some_iff.mp hnode).1
    have hoffset : g.offset? node = some n.offset :=
      Graph.offset?_eq_some_iff.mpr ⟨n, hnode, rfl⟩
    have hle : min best worst ≤ max best worst := by omega
    obtain ⟨hinterval, hedges, hsize, hoffsets⟩ := Graph.setWeights_same hset
    have hlater₁ : Later g g₁ :=
      ⟨hinterval, fun ho => (hoffsets _).trans ho, (Graph.arc_of_edges hedges).mpr⟩
    obtain ⟨hg₂, hlater, harcs, hnodes⟩ := leadTo_exact (hg.setWeights hset) hlead
    have hlater₂ := hlater₁.trans hlater
    have hjust₂ : Justified body loop context g₂ := by
      constructor
      case arc =>
        intro u v harc
        rcases harcs harc with harc | ⟨rfl, m, rfl, o, ho, hm⟩
        · obtain ⟨k, m, rfl, rfl, hends⟩ := hjust.arc ((Graph.arc_of_edges hedges).mp harc)
          exact ⟨k, m, rfl, rfl, hends.later hlater₂⟩
        · obtain ⟨d, hlo, hhi, rfl⟩ := of_mem_endOffsets g₁.interval_pos (by omega) hends ho
          rw [← hlater.interval, Nat.mod_mod] at hm
          -- a new arc ends where an iteration of a cost in between would
          exact ⟨node, m, rfl, rfl, n.offset, best, worst, d, hlater₂.offset? hoffset, hbest,
            hworst, hlo, hhi, hm⟩
      case reached =>
        intro k hk
        -- a node was there before, or it is reached over the node of this step
        rcases hnodes k hk with hk | harc
        · rw [hsize] at hk
          exact reached_later hlater₂ (hjust.reached k hk)
        · exact (reached_later hlater₂ (hjust.reached node hlt)).tail harc
    obtain ⟨hg', hlater', hjust'⟩ := ih hg₂ hjust₂
    exact ⟨hg', hlater₂.trans hlater', hjust'⟩

/-! ### Explored graphs -/

/-- The exploration from a time is finished. Its graph has no more nodes than the interval has
cycles, the first of which has the offset of that time. The costs of a node are those of a steady
iteration from its offset, and transitions lead from it to all offsets at which the iteration may
end and to no others. All nodes are come to from the first one, where the only edge from the source
leads to; and every node has one edge to the sink. -/
structure Closed (body : Body) (loop : Loop) (context : Context) (interval time : Nat)
    (g : Graph) : Prop where
  finished : ∃ g₀ g₁ g₂, Graph.empty interval = .ok g₀ ∧ g₀.addNode time = (g₁, 0, true) ∧
    Explores body loop context g₁ [0] g₂ ∧ g₂.connect 0 = .ok g
  size_le : g.nodes.size ≤ interval
  start : g.offset? 0 = some (time % interval)
  distinct : ∀ m n o, g.offset? m = some o → g.offset? n = some o → m = n
  costs : ∀ n o, g.offset? n = some o → ∃ best worst,
    (steadyCost body .best loop context o).result = .ok best ∧
    (steadyCost body .worst loop context o).result = .ok worst ∧
    g.costs? n = some (min best worst, max best worst)
  transitions : ∀ n o lo hi, g.offset? n = some o → g.costs? n = some (lo, hi) → ∀ o',
    (∃ m, g.offset? m = some o' ∧ g.Transition n m) ↔
      ∃ d, lo ≤ d ∧ d ≤ hi ∧ o' = (o + d) % interval
  reached : ∀ n < g.nodes.size, Relation.ReflTransGen g.Transition 0 n
  source : g.Arc .source (.node 0) ∧ ∃! i, g.start? i = some .source
  sink : ∀ n < g.nodes.size, ∃! i, g.start? i = some (.node n) ∧ g.finish? i = some .sink
  between : ∀ i u v, g.start? i = some u → g.finish? i = some v →
    u = .source ∧ v = .node 0 ∨
      ∃ n < g.nodes.size, u = .node n ∧ (v = .sink ∨ ∃ m < g.nodes.size, v = .node m)
  single : ∀ n m, g.Transition n m →
    ∃! i, g.start? i = some (.node n) ∧ g.finish? i = some (.node m)
  free : ∀ (i : Nat) (e : Offset.Edge), g.edges[i]? = some e → e.bcet = 0 ∧ e.wcet = 0

/-- The exploration starts with the first node. -/
theorem Explored.cases {schedule : Bus.Schedule} {time : Nat}
    (h : Explored body schedule loop context time g) :
    ∃ g₀ g₁ g₂, Graph.empty schedule.interval = .ok g₀ ∧ g₀.addNode time = (g₁, 0, true) ∧
      (explore body loop context schedule.interval g₁ [0]).result = .ok g₂ ∧
      g₂.connect 0 = .ok g := by
  obtain ⟨g₀, g₂, start, new, hempty, hexplore, hadd, hconnect⟩ := h
  obtain ⟨-, hproper, hsize⟩ := Graph.empty_eq_ok hempty
  have hnode : g₀.addNode time = ((g₀.addNode time).1, start, new) := Prod.ext rfl hadd
  obtain ⟨-, -, hoffset, -, -, hnew⟩ := Graph.addNode_spec hproper hnode
  cases new with
  | false =>
    rw [show (g₀.addNode time).1 = g₀ from hnew] at hoffset
    exact absurd (Graph.lt_size_of_offset? hoffset) (by omega)
  | true =>
    obtain ⟨rfl, -, -⟩ := hnew
    rw [hsize] at hexplore hnode hconnect
    exact ⟨g₀, _, g₂, hempty, hnode, hexplore, hconnect⟩

/-- A graph of a single node is justified. -/
theorem justified_first {g₀ : Graph} {interval time : Nat} (hempty : Graph.empty interval = .ok g₀)
    (hadd : g₀.addNode time = (g, 0, true)) : Justified body loop context g := by
  obtain ⟨-, hproper, hsize₀⟩ := Graph.empty_eq_ok hempty
  obtain ⟨-, -, -, -, -, -, hsize, -⟩ := Graph.addNode_spec hproper hadd
  constructor
  case arc =>
    rintro u v ⟨i, e, hi, -⟩
    have hedges := g₀.edges_addNode time
    rw [hadd] at hedges
    rw [show g.edges = _ from hedges] at hi
    -- nodes bring no edges with them
    unfold Graph.empty at hempty
    split at hempty
    · cases hempty
      cases hi
    · cases hempty
  case reached =>
    intro n hn
    obtain rfl : n = 0 := by omega
    exact .refl

/-- Offsets are different, and all of them are below the interval. -/
theorem layout_of_built (h : g.Built) (hproper : g.Proper) :
    Layout g (List.range g.nodes.size) [] where
  proper := hproper
  lt := h.faithful.offset_lt
  distinct {m n o} hm hn := Option.some.inj
    (((h.faithful.indexed o m).mpr hm).symm.trans ((h.faithful.indexed o n).mpr hn))
  nodup := by simpa using List.nodup_range
  mem n := by simp

/-- With its terminals connected, a justified graph has arcs of three kinds. -/
theorem Justified.arc_connect {u v : Offset.Endpoint} (h : Justified body loop context g)
    (hconnect : g.connect 0 = .ok g') (harc : g'.Arc u v) : u = .source ∧ v = .node 0 ∨
      ∃ n < g'.nodes.size, u = .node n ∧
        (v = .sink ∨ ∃ m, v = .node m ∧ Ends body loop context g' n m) := by
  have hgrows := Graph.grows_connect hconnect
  rcases (Graph.arc_connect_iff hconnect).mp harc with harc | hsource | ⟨n, hn, rfl, rfl⟩
  · obtain ⟨n, m, rfl, rfl, hends⟩ := h.arc harc
    have hends := hends.later (later_of_grows hgrows)
    exact .inr ⟨n, hends.lt_size.1, rfl, .inr ⟨m, rfl, hends⟩⟩
  · exact .inl hsource
  · exact .inr ⟨n, hgrows.size.symm ▸ hn, rfl, .inl rfl⟩

/-- A settled node whose transitions are justified leads to the offsets that its costs allow. -/
theorem Settled.transitions {o lo hi o' : Nat} (h : Settled body loop context g n)
    (hjust : ∀ m, g.Transition n m → Ends body loop context g n m) (ho : g.offset? n = some o)
    (hcosts : g.costs? n = some (lo, hi)) :
    (∃ m, g.offset? m = some o' ∧ g.Transition n m) ↔
      ∃ d, lo ≤ d ∧ d ≤ hi ∧ o' = (o + d) % g.interval := by
  obtain ⟨offset, best, worst, hoffset, hbest, hworst, hset, hleads⟩ := h
  obtain rfl := Option.some.inj (ho.symm.trans hoffset)
  obtain ⟨rfl, rfl⟩ := Prod.mk.inj (Option.some.inj (hcosts.symm.trans hset))
  constructor
  · rintro ⟨m, hm, harc⟩
    obtain ⟨offset, best', worst', d, hoffset', hbest', hworst', hlo, hhi, hend⟩ := hjust m harc
    obtain rfl := Option.some.inj (ho.symm.trans hoffset')
    obtain rfl := Except.ok.inj (hbest.symm.trans hbest')
    obtain rfl := Except.ok.inj (hworst.symm.trans hworst')
    exact ⟨d, hlo, hhi, Option.some.inj (hm.symm.trans hend)⟩
  · rintro ⟨d, hlo, hhi, rfl⟩
    exact hleads d hlo hhi

/-- An explored graph is closed: it leads to all offsets that it needs, and to no others. -/
theorem Explored.closed {schedule : Bus.Schedule} {time : Nat}
    (h : Explored body schedule loop context time g) :
    Closed body loop context schedule.interval time g := by
  obtain ⟨g₀, g₁, g₂, hempty, hadd, hexplore, hconnect⟩ := h.cases
  obtain ⟨hinterval₀, hproper₀, hsize₀⟩ := Graph.empty_eq_ok hempty
  -- all that iterations may lead to is there
  have hcomplete : Ensures (fun _ => True) (explore body loop context schedule.interval g₁
      [0]).result _ :=
    explore_complete trivial (fun _ _ => Ensures.of_result fun _ _ => trivial) hempty hadd
  obtain ⟨g', hconnect', hcomplete⟩ := hcomplete.result hexplore
  obtain rfl := Except.ok.inj (hconnect.symm.trans hconnect')
  -- and there is nothing else
  have hbuilt₁ : g₁.Built := by
    have hbuilt := Graph.Built.addNode time (.empty hempty)
    rwa [hadd] at hbuilt
  have hlayout := (layout_empty hproper₀ hsize₀).addNode hadd
  have hinterval₁ := (Graph.addNode_spec hproper₀ hadd).2.1
  have hexplores := explores_of_explore hlayout (by simp [hinterval₁, hinterval₀]) hexplore
  obtain ⟨hbuilt₂, -, hjust⟩ := hexplores.justified hbuilt₁ (justified_first hempty hadd)
  have hbuilt := hbuilt₂.connect hconnect
  have hlater := later_of_grows (Graph.grows_connect hconnect)
  have hsize := (Graph.grows_connect hconnect).size
  have hlayout' := layout_of_built hbuilt hcomplete.proper
  constructor
  case finished => exact ⟨g₀, g₁, g₂, hempty, hadd, hexplores, hconnect⟩
  case size_le => simpa [hcomplete.interval_eq] using hlayout'.length_le
  case start => exact hcomplete.offset
  case distinct => exact fun m n o => hlayout'.distinct
  case costs =>
    intro n o ho
    obtain ⟨o', best, worst, ho', hbest, hworst, hcosts, -⟩ :=
      hcomplete.settled n (Graph.lt_size_of_offset? ho)
    obtain rfl := Option.some.inj (ho.symm.trans ho')
    exact ⟨best, worst, hbest, hworst, hcosts⟩
  case transitions =>
    intro n o lo hi ho hcosts o'
    rw [← hcomplete.interval_eq]
    refine (hcomplete.settled n (Graph.lt_size_of_offset? ho)).transitions ?_ ho hcosts
    intro m harc
    rcases hjust.arc_connect hconnect harc with ⟨⟨⟩, -⟩ | ⟨_, -, ⟨⟩, ⟨⟨⟩⟩ | ⟨_, ⟨⟩, hends⟩⟩
    exact hends
  case reached =>
    intro n hn
    rw [hsize] at hn
    exact reached_later hlater (hjust.reached n hn)
  case source =>
    refine ⟨hcomplete.source, hbuilt.existsUnique_start hcomplete.source fun v harc => ?_⟩
    rcases hjust.arc_connect hconnect harc with ⟨-, rfl⟩ | ⟨_, -, ⟨⟩, -⟩
    rfl
  case sink => exact fun n hn => hbuilt.existsUnique_edge (hcomplete.sink n hn)
  case between =>
    intro i u v hstart hfinish
    have harc := Graph.arc_iff_exists.mpr ⟨i, hstart, hfinish⟩
    refine (hjust.arc_connect hconnect harc).imp_right ?_
    rintro ⟨n, hn, rfl, hsink | ⟨m, rfl, hends⟩⟩
    · exact ⟨n, hn, rfl, .inl hsink⟩
    · exact ⟨n, hn, rfl, .inr ⟨m, hends.lt_size.2, rfl⟩⟩
  case single => exact fun n m harc => hbuilt.existsUnique_edge harc
  case free => exact fun i e => hcomplete.proper.free

end Bound.Engine

end CycleBounds
