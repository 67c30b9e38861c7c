import CycleBounds.Proofs.Code.Arrangement
import CycleBounds.Proofs.Code.Nesting
import CycleBounds.Proofs.Results

/-!
# What building a procedure checks

`Draft.Checked` collects what the checks of `Draft.build` guarantee about a draft, and
`Draft.build_eq_ok` reads an accepted draft: it is checked, and the procedure is put together from
it (`Draft.Built`). A *region* is a loop of the draft or, as `none`, its whole body;
`Draft.regionOrder` is the order in which the blocks of a region are followed.
-/

namespace CycleBounds

namespace Code.Draft

variable {d : Draft}

/-- Predecessors are the starts of the edges to a block. -/
theorem mem_preds {u v : Nat} : u ∈ d.preds v ↔ (u, v) ∈ d.edges := by
  rw [preds, List.mem_eraseDups, List.mem_filterMap]
  constructor
  · rintro ⟨⟨a, b⟩, he, h⟩
    split at h
    · rename_i hv
      obtain rfl : a = u := Option.some.inj h
      exact hv ▸ he
    · cases h
  · exact fun he => ⟨(u, v), he, if_pos rfl⟩

/-- Successors are the ends of the edges from a block. -/
theorem mem_succs {u v : Nat} : v ∈ d.succs u ↔ (u, v) ∈ d.edges := by
  rw [succs, List.mem_eraseDups, List.mem_filterMap]
  constructor
  · rintro ⟨⟨a, b⟩, he, h⟩
    split at h
    · rename_i hu
      obtain rfl : b = v := Option.some.inj h
      exact hu ▸ he
    · cases h
  · exact fun he => ⟨(u, v), he, if_pos rfl⟩

theorem mem_blocks {l : LoopDraft} {b : Nat} :
    b ∈ l.blocks ↔ b ∈ l.members ∨ b = l.header ∨ b = l.sink := by
  rw [LoopDraft.blocks, KeySet.mem_keys_ofList]
  simp

theorem header_mem_blocks (l : LoopDraft) : l.header ∈ l.blocks :=
  mem_blocks.mpr (.inr (.inl rfl))

theorem sink_mem_blocks (l : LoopDraft) : l.sink ∈ l.blocks :=
  mem_blocks.mpr (.inr (.inr rfl))

theorem nest_getElem? (d : Draft) (i : Nat) : d.nest[i]? = d.loops[i]?.map LoopDraft.blocks :=
  List.getElem?_map

theorem nest_eq_some {i : Nat} {xs : List Nat} :
    d.nest[i]? = some xs ↔ ∃ l, d.loops[i]? = some l ∧ l.blocks = xs := by
  rw [nest_getElem?, Option.map_eq_some_iff]

theorem nest_of_loop {i : Nat} {l : LoopDraft} (hl : d.loops[i]? = some l) :
    d.nest[i]? = some l.blocks :=
  nest_eq_some.mpr ⟨l, hl, rfl⟩

/-- No loop is empty: it has a header. -/
theorem nest_ne_nil (d : Draft) : ∀ xs ∈ d.nest, xs ≠ [] := by
  intro xs hxs
  obtain ⟨l, -, rfl⟩ := List.mem_map.mp hxs
  exact List.ne_nil_of_mem (header_mem_blocks l)

/-- There is an innermost loop around the blocks of loops. -/
theorem innermost_ne_none {i b : Nat} {l : LoopDraft} (hl : d.loops[i]? = some l)
    (hb : b ∈ l.blocks) : d.nest.innermost b ≠ none :=
  fun hnone => Nest.innermost_eq_none hnone (nest_of_loop hl) hb

/-- Whether a block stands for itself or for an inner loop in the order of a region. -/
def ranks (d : Draft) : (region : Option Nat) → Nat → Bool
  | none, b => d.ranksOutside d.nest d.nest.levels b
  | some i, b => (d.nest[i]?.getD []).contains b ∧ d.ranksIn d.nest d.nest.levels i b

/-- The blocks of a region, inner loops collapsed into their headers, given the order of all
blocks. -/
def regionOrder (d : Draft) (all : List Nat) (region : Option Nat) : List Nat :=
  all.filter (d.ranks region)

/-- What an accepted draft fulfils, given the order of all its blocks. -/
structure Checked (d : Draft) (all : List Nat) : Prop where
  arranged : d.Arranged all
  nonempty : 0 < d.blocks.length
  edges_lt : ∀ e ∈ d.edges, e.1 < d.blocks.length ∧ e.2 < d.blocks.length
  reachable : ∀ b, 0 < b → b < d.blocks.length → d.preds b ≠ []
  blocks_lt : ∀ (i : Nat) l, d.loops[i]? = some l → ∀ b ∈ l.blocks, b < d.blocks.length
  headers : ∀ (i j : Nat) l m, d.loops[i]? = some l → d.loops[j]? = some m →
    l.header = m.header → i = j
  proper : d.nest.Proper
  entered : ∀ (i : Nat) l, d.loops[i]? = some l → ∀ b ∈ l.blocks, b ≠ l.header →
    ∀ u ∈ d.preds b, u ∈ l.blocks
  innermost_sink : ∀ (i : Nat) l, d.loops[i]? = some l → d.nest.innermost l.sink = some i
  header_first : ∀ (i : Nat) l, d.loops[i]? = some l →
    (d.regionOrder all (some i)).head? = some l.header

/-! ### The checks one by one -/

theorem lt_of_checkBlock {b : Nat} (h : d.checkBlock b = .ok ()) : b < d.blocks.length := by
  rw [checkBlock] at h
  split at h
  · assumption
  · cases h

theorem edges_lt_of_checkEdges (h : d.checkEdges = .ok ()) :
    ∀ e ∈ d.edges, e.1 < d.blocks.length ∧ e.2 < d.blocks.length := by
  intro e he
  obtain ⟨⟨⟩, h₁, h₂⟩ := bind_eq_ok.mp (forM_eq_ok h e he)
  exact ⟨lt_of_checkBlock h₁, lt_of_checkBlock h₂⟩

/-- All blocks but the first one have predecessors once checked. -/
theorem preds_ne_nil_of_checkReachable (h : d.checkReachable = .ok ()) {b : Nat} (hb : 0 < b)
    (hlt : b < d.blocks.length) : d.preds b ≠ [] := by
  rw [checkReachable] at h
  split at h
  · cases h
  · rename_i hf
    have hmem : b ∈ (List.range d.blocks.length).drop 1 := by
      rw [List.mem_drop_iff_getElem]
      exact ⟨b - 1, by simp; omega, by simp; omega⟩
    simpa using List.find?_eq_none.mp hf b hmem

/-- Checked loops have blocks of the draft and headers of their own. -/
theorem of_checkLoops (h : d.checkLoops = .ok ()) {i : Nat} {l : LoopDraft}
    (hl : d.loops[i]? = some l) :
    (∀ b ∈ l.blocks, b < d.blocks.length) ∧
      ∀ (j : Nat) m, j < i → d.loops[j]? = some m → m.header ≠ l.header := by
  have h := forM_eq_ok h (l, i) (List.mem_zipIdx_iff_getElem?.mpr hl)
  obtain ⟨⟨⟩, hb, h⟩ := bind_eq_ok.mp h
  refine ⟨fun b hmem => lt_of_checkBlock (forM_eq_ok hb b hmem), fun j m hj hm heq => ?_⟩
  have hany : ((d.loops.take i).any fun k => decide (k.header = l.header)) = true := by
    refine List.any_eq_true.mpr ⟨m, ?_, by simpa using heq⟩
    exact List.mem_of_getElem? (i := j) (by rw [List.getElem?_take_of_lt hj, hm])
  have hc : l.blocks.contains l.header = true ∧ l.blocks.contains l.sink = true :=
    ⟨by simpa using header_mem_blocks l, by simpa using sink_mem_blocks l⟩
  simp only [hc, hany, not_true_eq_false, and_self, ↓reduceIte] at h
  cases h

theorem headers_of_checkLoops (h : d.checkLoops = .ok ()) {i j : Nat} {l m : LoopDraft}
    (hl : d.loops[i]? = some l) (hm : d.loops[j]? = some m) (heq : l.header = m.header) :
    i = j := by
  rcases Nat.lt_trichotomy i j with hij | hij | hij
  · exact absurd heq ((of_checkLoops h hm).2 i l hij hl)
  · exact hij
  · exact absurd heq.symm ((of_checkLoops h hl).2 j m hij hm)

def loopOf (d : Draft) (all : List Nat) (l : LoopDraft) (i : Nat) : Loop where
  header := l.header
  sink := l.sink
  bound := l.bound
  naturalExit := l.naturalExit
  parent := d.nest.parent l.blocks
  level := d.nest.loopsAround l.blocks
  blocks := l.blocks
  order := d.regionOrder all (some i)

def blockOf (d : Draft) (b : Nat) (instructions : List Instruction) : Block where
  instructions
  preds := d.preds b
  succs := d.succs b
  headerOf := d.headerOf b
  innermost := d.nest.innermost b

theorem filter_eq_regionOrder {all : List Nat} {l : LoopDraft} {i : Nat}
    (hl : d.loops[i]? = some l) :
    (all.filter fun b =>
      decide (l.blocks.contains b = true ∧ d.ranksIn d.nest d.nest.levels i b = true)) =
        d.regionOrder all (some i) := by
  rw [regionOrder]
  refine List.filter_congr fun b _ => ?_
  rw [ranks, nest_getElem?, hl]
  rfl

/-- What is known about a loop that has been built. -/
theorem of_buildLoop {all : List Nat} {l : LoopDraft} {i : Nat} {loop : Loop}
    (hproper : d.nest.Proper) (hl : d.loops[i]? = some l)
    (h : d.buildLoop d.nest d.nest.levels all l i = .ok loop) :
    (∀ b ∈ l.blocks, b ≠ l.header → ∀ u ∈ d.preds b, u ∈ l.blocks) ∧
      d.nest.innermost l.sink = some i ∧
      (d.regionOrder all (some i)).head? = some l.header ∧ loop = d.loopOf all l i := by
  simp only [buildLoop, filter_eq_regionOrder hl] at h
  split at h
  · cases h
  · rename_i hf
    split at h
    · cases h
    · rename_i hs
      obtain ⟨⟨⟩, ha, h⟩ := bind_eq_ok.mp h
      rw [liftM_fault_eq_ok, assume_eq_ok, decide_eq_true_iff] at ha
      rw [pure_eq_ok] at h
      have hlevel : d.nest.levels.getD i 0 = d.nest.loopsAround l.blocks := by
        rw [List.getD_eq_getElem?_getD, hproper.levels_getElem? d.nest_ne_nil (nest_of_loop hl),
          Option.getD_some]
      rw [hlevel] at h
      refine ⟨fun b hb hne u hu => ?_, not_not.mp hs, ha, h.symm⟩
      have hin := List.find?_eq_none.mp hf b hb
      rw [decide_eq_true_iff, not_and, not_not] at hin
      exact Nest.mem_of_within (hin hne) hu

theorem proper_of_checkNesting (h : d.checkNesting d.nest = .ok ()) : d.nest.Proper := by
  rw [checkNesting] at h
  split at h
  · cases h
  · exact Nest.proper_of_overlapping? (by assumption)

/-- Each loop of a procedure comes from the draft's loop at its place. -/
theorem getElem?_of_buildLoops {all : List Nat} {loops : List Loop}
    (h : d.loops.zipIdx.mapM (fun (l, i) => d.buildLoop d.nest d.nest.levels all l i) = .ok loops)
    (i : Nat) :
    loops[i]? = none ∧ d.loops[i]? = none ∨ ∃ l loop, d.loops[i]? = some l ∧
      loops[i]? = some loop ∧ d.buildLoop d.nest d.nest.levels all l i = .ok loop := by
  rcases mapM_getElem? h i with ⟨hloop, hnone⟩ | ⟨⟨l, j⟩, loop, hl, hloop, hbuild⟩
  · exact .inl ⟨hloop, by simpa [List.getElem?_zipIdx] using hnone⟩
  · rw [List.getElem?_zipIdx, Option.map_eq_some_iff] at hl
    obtain ⟨l', hl', heq⟩ := hl
    obtain ⟨rfl, rfl⟩ := Prod.mk.inj heq
    rw [Nat.zero_add] at hbuild
    exact .inr ⟨l', loop, hl', hloop, hbuild⟩

/-- A draft that passes all checks is a checked one. -/
theorem checked_of_checks {all : List Nat} {loops : List Loop} (hne : ¬ d.blocks.isEmpty = true)
    (hedges : d.checkEdges = .ok ()) (hreach : d.checkReachable = .ok ())
    (hall : d.topological = .ok all) (hloops : d.checkLoops = .ok ())
    (hnest : d.checkNesting d.nest = .ok ())
    (hmap : d.loops.zipIdx.mapM (fun (l, i) => d.buildLoop d.nest d.nest.levels all l i) =
      .ok loops) : d.Checked all := by
  have hbuilt : ∀ (i : Nat) l, d.loops[i]? = some l →
      ∃ loop, d.buildLoop d.nest d.nest.levels all l i = .ok loop := by
    intro i l hl
    rcases getElem?_of_buildLoops hmap i with ⟨-, hn⟩ | ⟨l', loop, hl', -, hb⟩
    · rw [hl] at hn
      cases hn
    · obtain rfl : l = l' := Option.some.inj (hl.symm.trans hl')
      exact ⟨loop, hb⟩
  have hproper := proper_of_checkNesting hnest
  refine ⟨arranged_of_topological hall, ?_, edges_lt_of_checkEdges hedges,
    fun b hb hlt => preds_ne_nil_of_checkReachable hreach hb hlt,
    fun i l hl => (of_checkLoops hloops hl).1,
    fun i j l m hl hm => headers_of_checkLoops hloops hl hm,
    hproper, ?_, ?_, ?_⟩
  · rw [List.length_pos_iff]
    simpa using hne
  · intro i l hl
    obtain ⟨loop, hb⟩ := hbuilt i l hl
    exact (of_buildLoop hproper hl hb).1
  · intro i l hl
    obtain ⟨loop, hb⟩ := hbuilt i l hl
    exact (of_buildLoop hproper hl hb).2.1
  · intro i l hl
    obtain ⟨loop, hb⟩ := hbuilt i l hl
    exact (of_buildLoop hproper hl hb).2.2.1

/-- A procedure is put together from a checked draft. -/
structure Built (d : Draft) (all : List Nat) (p : Procedure) : Prop extends d.Checked all where
  blocks : ∀ b : Nat, p.blocks[b]? = d.blocks[b]?.map (d.blockOf b)
  loops : ∀ i : Nat, p.loops[i]? = d.loops[i]?.map fun l => d.loopOf all l i
  order : p.order = d.regionOrder all none
  sinks : p.sinks = p.order.filter (d.isSink d.nest)

/-- The procedure of an accepted draft, with the order in which all its blocks are arranged. -/
theorem build_arranged {p : Procedure} (h : d.build = .ok p) : ∃ all, d.topological = .ok all ∧
    d.Built all p ∧ p.id = d.id ∧ p.name = d.name := by
  simp only [build] at h
  split at h
  · cases h
  rename_i hne
  -- the checks in the order in which they are made
  obtain ⟨⟨⟩, hedges, h⟩ := bind_eq_ok.mp h
  obtain ⟨⟨⟩, hreach, h⟩ := bind_eq_ok.mp h
  obtain ⟨all, hall, h⟩ := bind_eq_ok.mp h
  obtain ⟨⟨⟩, hloops, h⟩ := bind_eq_ok.mp h
  obtain ⟨⟨⟩, hnest, h⟩ := bind_eq_ok.mp h
  obtain ⟨loops, hmap, h⟩ := bind_eq_ok.mp h
  rw [liftM_eq_ok] at hedges hreach hall hloops hnest
  split at h
  · cases h
  rw [pure_eq_ok] at h
  refine ⟨all, hall, ⟨checked_of_checks hne hedges hreach hall hloops hnest hmap,
    fun b => ?_, fun i => ?_, ?_, ?_⟩, ?_, ?_⟩
  · rw [← h, List.getElem?_map, List.getElem?_zipIdx, Option.map_map]
    refine congrArg (Option.map · _) (funext fun instructions => ?_)
    simp [blockOf, Nest.deepest_levels]
  · rw [← h]
    rcases getElem?_of_buildLoops hmap i with ⟨h₁, h₂⟩ | ⟨l, loop, hl, hp, hb⟩
    · rw [h₁, h₂]
      rfl
    · rw [hl, hp, (of_buildLoop (proper_of_checkNesting hnest) hl hb).2.2.2]
      rfl
  · rw [← h]
    rfl
  · rw [← h]
  · rw [← h]
  · rw [← h]

/-- The procedure of an accepted draft. -/
theorem build_eq_ok {p : Procedure} (h : d.build = .ok p) : ∃ all, d.Built all p := by
  obtain ⟨all, -, hb, -⟩ := build_arranged h
  exact ⟨all, hb⟩

end Code.Draft

end CycleBounds
