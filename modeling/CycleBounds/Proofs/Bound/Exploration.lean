import CycleBounds.Proofs.Bound.Rounds
import CycleBounds.Proofs.Offset.Walk
import Mathlib.Data.List.Perm.Subperm

/-!
# Exploring the offsets of a loop

Steady iterations are explored from one offset after another. Every node is explored or still in the
work, and an explored node has its costs and an edge to every offset at which an iteration from
there may end (`Settled`). As offsets are distinct, there are no more nodes than the interval has
cycles, so the work is done when the exploration stops.

* `leadTo_spec`, `explore_spec`: one node, and all of them.
* `Explored.complete`: all nodes of an explored graph are settled, and walks may end at any of them.
-/

namespace CycleBounds.Bound.Engine

open Code (Loop)
open Offset (Graph)

variable {body : Body} {loop : Loop} {context : Context} {g g' : Graph} {n node : Nat}
  {seen work : List Nat}

/-! ### Layouts -/

/-- The nodes of a graph are those in two lists, without repetition, and have different offsets. -/
structure Layout (g : Graph) (seen work : List Nat) : Prop where
  proper : g.Proper
  lt : ∀ {n o}, g.offset? n = some o → o < g.interval
  distinct : ∀ {m n o}, g.offset? m = some o → g.offset? n = some o → m = n
  nodup : (seen ++ work).Nodup
  mem : ∀ n, n ∈ seen ++ work ↔ n < g.nodes.size

/-- There are no more nodes than the interval has cycles. -/
theorem Layout.length_le (h : Layout g seen work) : seen.length + work.length ≤ g.interval := by
  have hoffset : ∀ n ∈ seen ++ work, ∃ o, g.offset? n = some o :=
    fun n hn => Graph.exists_offset? ((h.mem n).mp hn)
  choose! f hf using hoffset
  have hnodup : ((seen ++ work).map f).Nodup :=
    h.nodup.map_on fun m hm n hn heq => h.distinct (hf m hm) (heq ▸ hf n hn)
  have hsubset : (seen ++ work).map f ⊆ List.range g.interval := by
    intro o ho
    obtain ⟨n, hn, rfl⟩ := List.mem_map.mp ho
    exact List.mem_range.mpr (h.lt (hf n hn))
  have hlength := (List.subperm_of_subset hnodup hsubset).length_le
  simpa using hlength

theorem Layout.move (h : Layout g seen (node :: work)) : Layout g (node :: seen) work where
  proper := h.proper
  lt := h.lt
  distinct := h.distinct
  nodup := (List.perm_middle.nodup_iff).mp h.nodup
  mem n := (List.perm_middle.mem_iff).symm.trans (h.mem n)

/-- Only the offsets of the nodes matter. -/
theorem Layout.congr (h : Layout g seen work) (hg' : g'.Proper)
    (hinterval : g'.interval = g.interval) (hsize : g'.nodes.size = g.nodes.size)
    (hoffset : ∀ n, g'.offset? n = g.offset? n) :
    Layout g' seen work where
  proper := hg'
  lt {n o} ho := by
    rw [hoffset] at ho
    rw [hinterval]
    exact h.lt ho
  distinct hm hn := by
    rw [hoffset] at hm hn
    exact h.distinct hm hn
  nodup := h.nodup
  mem n := by rw [hsize, h.mem]

/-- A found or added node, which is put in front of the work if it is new. -/
theorem Layout.addNode (h : Layout g seen work) {offset : Nat} {new : Bool}
    (hadd : g.addNode offset = (g', n, new)) :
    Layout g' seen (if new then n :: work else work) := by
  obtain ⟨hproper, hinterval, hoffset, hold, -, hnew⟩ := Graph.addNode_spec h.proper hadd
  cases new with
  | false =>
    obtain rfl : g' = g := hnew
    exact h
  | true =>
    obtain ⟨rfl, hsize, hfresh⟩ := hnew
    -- a node is an old one, or it is the new one with an offset that no other node has
    have hcases : ∀ {m o}, g'.offset? m = some o →
        g.offset? m = some o ∨ m = g.nodes.size ∧ o = offset % g.interval := by
      intro m o ho
      by_cases hm : m < g.nodes.size
      · rw [Graph.offset?, hold m hm] at ho
        exact .inl ho
      · have hlt := Graph.lt_size_of_offset? ho
        obtain rfl : m = g.nodes.size := by omega
        exact .inr ⟨rfl, Option.some.inj (ho.symm.trans hoffset)⟩
    refine ⟨hproper, fun {m o} ho => ?_, fun {m k o} hm hk => ?_, ?_, fun m => ?_⟩
    · rw [hinterval]
      rcases hcases ho with ho | ⟨-, rfl⟩
      · exact h.lt ho
      · exact Nat.mod_lt _ g.interval_pos
    · rcases hcases hm with hm | ⟨rfl, rfl⟩
      · rcases hcases hk with hk | ⟨rfl, rfl⟩
        · exact h.distinct hm hk
        · exact absurd hm (hfresh m)
      · rcases hcases hk with hk | ⟨rfl, -⟩
        · exact absurd hk (hfresh k)
        · rfl
    · refine List.perm_middle.nodup_iff.mpr (List.nodup_cons.mpr ⟨fun hmem => ?_, h.nodup⟩)
      exact Nat.lt_irrefl _ ((h.mem _).mp hmem)
    · rw [if_pos rfl, List.perm_middle.mem_iff, List.mem_cons, h.mem, hsize]
      omega

/-! ### Settled nodes -/

/-- The same nodes and maybe more, and maybe more edges. -/
structure Later (g g' : Graph) : Prop where
  interval : g'.interval = g.interval
  offset? : ∀ {n o}, g.offset? n = some o → g'.offset? n = some o
  arc : ∀ {u v}, g.Arc u v → g'.Arc u v

theorem Later.refl (g : Graph) : Later g g :=
  ⟨rfl, id, id⟩

theorem Later.trans {g'' : Graph} (h : Later g g') (h' : Later g' g'') : Later g g'' where
  interval := h'.interval.trans h.interval
  offset? := h'.offset? ∘ h.offset?
  arc := h'.arc ∘ h.arc

theorem later_of_grows (h : g.Grows g') : Later g g' :=
  ⟨h.interval, fun ho => (h.offset? _).trans ho, h.arc⟩

def LeadsTo (g : Graph) (n o : Nat) : Prop :=
  ∃ m, g.offset? m = some (o % g.interval) ∧ g.Arc (.node n) (.node m)

theorem LeadsTo.later {o : Nat} (h : LeadsTo g n o) (hlater : Later g g') : LeadsTo g' n o := by
  obtain ⟨m, hm, harc⟩ := h
  refine ⟨m, ?_, hlater.arc harc⟩
  rw [hlater.interval]
  exact hlater.offset? hm

/-- A node that has the costs of an iteration from its offset, and leads to every offset at which
the iteration may end. -/
def Settled (body : Body) (loop : Loop) (context : Context) (g : Graph) (n : Nat) : Prop :=
  ∃ offset best worst, g.offset? n = some offset ∧
    (steadyCost body .best loop context offset).result = .ok best ∧
    (steadyCost body .worst loop context offset).result = .ok worst ∧
    g.costs? n = some (min best worst, max best worst) ∧
    ∀ d, min best worst ≤ d → d ≤ max best worst → LeadsTo g n (offset + d)

theorem Settled.later (h : Settled body loop context g n) (hlater : Later g g')
    (hcosts : g'.costs? n = g.costs? n) : Settled body loop context g' n := by
  obtain ⟨offset, best, worst, hoffset, hbest, hworst, hset, hends⟩ := h
  exact ⟨offset, best, worst, hlater.offset? hoffset, hbest, hworst, hcosts.trans hset,
    fun d hlo hhi => (hends d hlo hhi).later hlater⟩

/-! ### The exploration -/

/-- All offsets at which an iteration may end are found. -/
theorem endOffsets_spec (interval offset lo hi : Nat) (hpos : 0 < interval) :
    Ensures (· = .overflow) (endOffsets interval offset lo hi) fun ends =>
      ∀ d, lo ≤ d → d ≤ hi → ∃ o ∈ ends, o % interval = (offset + d) % interval := by
  unfold endOffsets
  split
  · intro d _ _
    exact ⟨_, List.mem_range.mpr (Nat.mod_lt (offset + d) hpos), Nat.mod_mod _ _⟩
  · refine (Ensures.mapM (P := fun d o => o = (offset + d) % interval) fun d _ => ?_).imp ?_
    · refine (Word.ensures_add offset d).bind fun sum _ hsum => ?_
      rw [hsum]
      rfl
    · intro ends _ hall d hlo hhi
      obtain ⟨o, ho, rfl⟩ := hall d (List.mem_range'_1.mpr ⟨hlo, by omega⟩)
      exact ⟨_, ho, Nat.mod_mod _ _⟩

/-- Leading to some offsets keeps what is laid out, and then the node leads to all of them. -/
theorem leadTo_spec (ends : List Nat) (h : Layout g seen work) (hnode : node < g.nodes.size) :
    ∃ g' work', leadTo node ends g work = .ok (g', work') ∧ Layout g' seen work' ∧ Later g g' ∧
      (∀ n < g.nodes.size, g'.costs? n = g.costs? n) ∧ ∀ o ∈ ends, LeadsTo g' node o := by
  induction ends generalizing g work with
  | nil => exact ⟨g, work, rfl, h, .refl g, fun _ _ => rfl, nofun⟩
  | cons o ends ih =>
    rcases hadd : g.addNode o with ⟨g₁, next, new⟩
    have hlayout := h.addNode hadd
    obtain ⟨hg₁, hinterval, hoffset, hold, harc, -⟩ := Graph.addNode_spec h.proper hadd
    -- a new node changes nothing about the nodes that are there
    have hlater : Later g g₁ := by
      refine ⟨hinterval, fun {n o} ho => ?_, harc⟩
      rw [Graph.offset?, hold n (Graph.lt_size_of_offset? ho)]
      exact ho
    obtain ⟨offset, hat⟩ := Graph.exists_offset? hnode
    have hnode₁ := Graph.lt_size_of_offset? (hlater.offset? hat)
    have hnext := Graph.lt_size_of_offset? hoffset
    obtain ⟨g₂, i, hedge, hgrows, hg₂, harc₂⟩ := Graph.addEdge_spec (u := .node node)
      (v := .node next) hg₁ (fun n hn => Offset.Endpoint.node.inj hn ▸ hnode₁)
      (fun n hn => Offset.Endpoint.node.inj hn ▸ hnext) (by rintro ⟨⟩) (by rintro ⟨⟩)
    obtain ⟨g', work', hlead, hlayout', hlater', hcosts, hends⟩ :=
      ih (hlayout.congr hg₂ hgrows.interval hgrows.size hgrows.offset?) (hgrows.size.symm ▸ hnode₁)
    refine ⟨g', work', ?_, hlayout', (hlater.trans (later_of_grows hgrows)).trans hlater', ?_, ?_⟩
    · rw [leadTo, hadd]
      exact bind_eq_ok.mpr ⟨(g₂, i), hedge, hlead⟩
    · intro n hn
      obtain ⟨o', ho'⟩ := Graph.exists_offset? hn
      have hn₁ := Graph.lt_size_of_offset? (hlater.offset? ho')
      rw [hcosts n (hgrows.size.symm ▸ hn₁), hgrows.costs?, Graph.costs?, hold n hn, Graph.costs?]
    · refine List.forall_mem_cons.mpr ⟨LeadsTo.later ⟨next, ?_, harc₂⟩ hlater', hends⟩
      rw [hgrows.offset?, hgrows.interval, hinterval]
      exact hoffset

/-- All nodes are settled in the end, as every step settles one of at most as many nodes as there
are steps. -/
theorem explore_spec {allowed : Failure TimingError → Prop} (hover : allowed (.fault .overflow))
    (hcost : ∀ scenario offset, Ensures allowed
      (steadyCost body scenario loop context offset).result fun _ => True) (fuel : Nat)
    (h : Layout g seen work) (hfuel : seen.length + fuel = g.interval)
    (hseen : ∀ n ∈ seen, Settled body loop context g n) :
    Ensures allowed (explore body loop context fuel g work).result fun g' =>
      ∃ seen', Layout g' seen' [] ∧ Later g g' ∧ ∀ n ∈ seen', Settled body loop context g' n := by
  induction fuel generalizing g seen work with
  | zero =>
    -- the offsets of the nodes are distinct, so no node is left once there is one for each offset
    have hlength := h.length_le
    obtain rfl : work = [] := List.eq_nil_of_length_eq_zero (by omega)
    exact ⟨seen, h, .refl g, hseen⟩
  | succ fuel ih =>
    cases work with
    | nil => exact ⟨seen, h, .refl g, hseen⟩
    | cons node work =>
      have hnode : node < g.nodes.size := (h.mem node).mp (by simp)
      -- the node at the front of the work is weighed, and leads to where an iteration from it may
      -- end
      obtain ⟨offset, hoffset⟩ := Graph.exists_offset? hnode
      obtain ⟨entry, hentry, rfl⟩ := Graph.offset?_eq_some_iff.mp hoffset
      simp only [explore, Traced.result_bind, Traced.result_liftM_except]
      rw [Graph.node_eq_ok.mpr hentry]
      refine (hcost .best entry.offset).bind fun best hbest _ => ?_
      refine (hcost .worst entry.offset).bind fun worst hworst _ => ?_
      obtain ⟨g₁, hset, hg₁, hinterval, hsize, hoffsets, hcosts, hothers, harcs⟩ :=
        Graph.setWeights_spec h.proper hnode (by omega : min best worst ≤ max best worst)
      have hlater : Later g g₁ := ⟨hinterval, fun ho => (hoffsets _).trans ho, harcs⟩
      have hlayout : Layout g₁ (node :: seen) work :=
        h.move.congr hg₁ hinterval hsize hoffsets
      rw [hset]
      have hends := endOffsets_spec g₁.interval entry.offset (min best worst) (max best worst)
        g₁.interval_pos
      refine (hends.mapError (by rintro _ rfl; exact hover)).bind fun ends _ hends => ?_
      obtain ⟨g₂, work₂, hlead, hlayout₂, hlater₂, hcosts₂, harcs₂⟩ :=
        leadTo_spec ends hlayout (hsize.symm ▸ hnode : node < g₁.nodes.size)
      rw [hlead]
      have hfuel₂ : (node :: seen).length + fuel = g₂.interval := by
        rw [hlater₂.interval, hinterval, ← hfuel, List.length_cons]
        omega
      refine (ih hlayout₂ hfuel₂ (List.forall_mem_cons.mpr ⟨?_, fun n hn => ?_⟩)).imp ?_
      · -- the node itself is settled now
        refine ⟨entry.offset, best, worst, hlater₂.offset? (hlater.offset? hoffset), hbest, hworst,
          (hcosts₂ node (hsize.symm ▸ hnode)).trans hcosts, fun d hlo hhi => ?_⟩
        obtain ⟨o, ho, heq⟩ := hends d hlo hhi
        rw [← hlater₂.interval] at heq
        rw [LeadsTo, ← heq]
        exact harcs₂ o ho
      · -- what is settled stays so
        have hne : n ≠ node := by
          rintro rfl
          exact (List.nodup_cons.mp hlayout.nodup).1 (List.mem_append_left _ hn)
        have hlt : n < g₁.nodes.size := (hlayout.mem n).mp (by simp [hn])
        exact ((hseen n hn).later hlater (hothers n hne)).later hlater₂ (hcosts₂ n hlt)
      · rintro g' - ⟨seen', hlayout', hlater', hall⟩
        exact ⟨seen', hlayout', (hlater.trans hlater₂).trans hlater', hall⟩

/-! ### Explored graphs -/

/-- The offsets of all steady iterations after a time, and walks through them that start there. -/
structure Complete (body : Body) (loop : Loop) (context : Context) (interval time : Nat)
    (g : Graph) (start : Nat) : Prop where
  proper : g.Proper
  interval_eq : g.interval = interval
  offset : g.offset? start = some (time % interval)
  source : g.Arc .source (.node start)
  sink : ∀ n < g.nodes.size, g.Arc (.node n) .sink
  settled : ∀ n < g.nodes.size, Settled body loop context g n

theorem layout_empty (h : g.Proper) (hsize : g.nodes.size = 0) : Layout g [] [] where
  proper := h
  lt ho := absurd (Graph.lt_size_of_offset? ho) (by omega)
  distinct ho := absurd (Graph.lt_size_of_offset? ho) (by omega)
  nodup := .nil
  mem n := by simp [hsize]

/-- The exploration after a time gives a complete graph. -/
theorem explore_complete {allowed : Failure TimingError → Prop} (hover : allowed (.fault .overflow))
    (hcost : ∀ scenario offset, Ensures allowed
      (steadyCost body scenario loop context offset).result fun _ => True)
    {interval time start : Nat} {new : Bool} {g₀ g₁ : Graph}
    (hempty : Graph.empty interval = .ok g₀) (hadd : g₀.addNode time = (g₁, start, new)) :
    Ensures allowed (explore body loop context interval g₁ [start]).result fun g =>
      ∃ g', g.connect start = .ok g' ∧ Complete body loop context interval time g' start := by
  obtain ⟨hinterval₀, hg₀, hsize₀⟩ := Graph.empty_eq_ok hempty
  have hlayout := (layout_empty hg₀ hsize₀).addNode hadd
  obtain ⟨-, hinterval₁, hoffset, -, -, hnew⟩ := Graph.addNode_spec hg₀ hadd
  cases new with
  | false =>
    -- a first node is always new
    obtain rfl : g₁ = g₀ := hnew
    exact absurd (Graph.lt_size_of_offset? hoffset) (by omega)
  | true =>
    have hinterval := hinterval₁.trans hinterval₀
    refine (explore_spec hover hcost interval hlayout (by simp [hinterval]) nofun).imp ?_
    rintro g - ⟨seen, hlayout', hlater, hall⟩
    have hat := hlater.offset? hoffset
    obtain ⟨g', hconnect, hgrows, hg', hsource, hsink⟩ :=
      Graph.connect_spec hlayout'.proper (Graph.lt_size_of_offset? hat)
    refine ⟨g', hconnect, hg', ?_, ?_, hsource, ?_, ?_⟩
    · rw [hgrows.interval, hlater.interval, hinterval]
    · rw [hgrows.offset?, hat, hinterval₀]
    · rw [hgrows.size]
      exact hsink
    · intro n hn
      rw [hgrows.size] at hn
      have hmem := (hlayout'.mem n).mpr hn
      rw [List.append_nil] at hmem
      exact (hall n hmem).later (later_of_grows hgrows) (hgrows.costs? n)

/-- An exploration that comes to an end has all offsets, each with its costs and successors. -/
theorem Explored.complete {schedule : Bus.Schedule} {time : Nat}
    (h : Explored body schedule loop context time g) :
    ∃ start, Complete body loop context schedule.interval time g start := by
  obtain ⟨g₀, g₁, start, new, hempty, hexplore, hadd, hconnect⟩ := h
  have hnode : g₀.addNode time = ((g₀.addNode time).1, start, new) := Prod.ext rfl hadd
  have hall : Ensures (fun _ => True) (explore body loop context schedule.interval
      (g₀.addNode time).1 [start]).result _ :=
    explore_complete trivial (fun _ _ => Ensures.of_result fun _ _ => trivial) hempty hnode
  obtain ⟨g', hconnect', hcomplete⟩ := hall.result hexplore
  obtain rfl := Except.ok.inj (hconnect.symm.trans hconnect')
  exact ⟨start, hcomplete⟩

end CycleBounds.Bound.Engine
