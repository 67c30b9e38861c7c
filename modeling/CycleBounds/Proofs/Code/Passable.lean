import CycleBounds.Proofs.Code.Structure
import Mathlib.Data.List.Count

/-!
# Procedures that can be followed to the end

An analysis that follows a procedure comes through if the blocks of all orders exist, every block
but the first of an order is preceded by some block, loops lie deeper than the loops around them,
and the procedure is left somewhere (`Procedure.Passable`). Built procedures are like that.

* `Program.Accepted.level_lt`: how deep loops lie, given how many of them are around a block.
* `Program.Accepted.passable`: the procedures of an accepted program can be followed to the end.
* `Program.Accepted.header_mem_sinks`: a procedure is left through the header of a loop that no edge
  leaves.
-/

namespace CycleBounds.Code

namespace Nest

variable {nest : Nest} {xs ys : List Nat}

/-- The loops around a loop and the loop itself are around every block of it. -/
theorem loopsAround_lt_countP {x : Nat} (hmem : xs ∈ nest) (hx : x ∈ xs) :
    nest.loopsAround xs < nest.countP (·.contains x) := by
  obtain ⟨first, rest, rfl⟩ := List.append_of_mem hmem
  have hle : ∀ zss : Nest, zss.countP (strictlyWithin xs) ≤ zss.countP (·.contains x) :=
    fun zss => List.countP_mono_left fun zs _ hzs =>
      List.contains_iff_mem.mpr ((strictlyWithin_iff.mp hzs).2 x hx)
  have hfirst := hle first
  have hrest := hle rest
  have hself : xs.contains x = true := List.contains_iff_mem.mpr hx
  simp only [loopsAround, List.countP_append, List.countP_cons, hself, not_strictlyWithin_self,
    Bool.false_eq_true, ↓reduceIte]
  omega

end Nest

/-! ### Procedures -/

def Program.NestsAtMost (program : Program) (depth : Nat) : Prop :=
  ∀ p ∈ program.procedures, ∀ b, p.loops.countP (·.contains b) ≤ depth

/-- Nothing keeps an analysis from following a procedure to the end. -/
structure Procedure.Passable (p : Procedure) : Prop where
  lt_length : ∀ {region b}, p.Inside region b → b < p.blocks.length
  exists_pred : ∀ {region pre v post}, p.orderOf region = pre ++ v :: post → pre ≠ [] →
    ∃ u, p.Edge u v
  level_lt : ∀ {l : Nat} {loop}, p.loops[l]? = some loop → loop.level < p.loops.length
  /-- A loop lies deeper than the loop that lists its header. -/
  level_inner : ∀ {l m : Nat} {loop inner r}, p.loops[l]? = some loop → r ∈ loop.order →
    p.headerOf? r = some m → m ≠ l → p.loops[m]? = some inner → loop.level < inner.level
  sinks_ne_nil : p.sinks ≠ []

namespace Draft

variable {d : Draft} {all : List Nat} {p : Procedure} {region : Option Nat}

namespace Checked

theorem idxOf_zero_le (hc : d.Checked all) {b : Nat} (hb : b < d.blocks.length) :
    all.idxOf 0 ≤ all.idxOf b := by
  have hin : d.Inside none b := hb
  obtain ⟨r, hr, -, hle⟩ := hc.exists_standsFor hin
  exact Nat.le_trans (hc.idxOf_head_le hc.head_order_none hr) hle

/-- Every block but the first of an order has a predecessor. -/
theorem exists_pred (hc : d.Checked all) {pre post : List Nat} {v : Nat}
    (ho : d.regionOrder all region = pre ++ v :: post) (hpre : pre ≠ []) : ∃ u, u ∈ d.preds v := by
  obtain ⟨x, pre, rfl⟩ := List.exists_cons_of_ne_nil hpre
  have hlt : ∀ b ∈ d.regionOrder all region, b < d.blocks.length :=
    fun b hb => (hc.arranged.mem_iff b).mp (List.mem_filter.mp hb).1
  have hbefore : all.idxOf x < all.idxOf v := by
    have hpairwise : (d.regionOrder all region).Pairwise _ := hc.arranged.pairwise.filter _
    rw [ho, List.cons_append] at hpairwise
    exact (List.pairwise_cons.mp hpairwise).1 v (by simp)
  have hpos : v ≠ 0 := by
    rintro rfl
    have := hc.idxOf_zero_le (hlt x (by simp [ho]))
    omega
  exact List.exists_mem_of_ne_nil _
    (hc.reachable v (Nat.pos_of_ne_zero hpos) (hlt v (by simp [ho])))

/-- An inner loop that is listed in the order of a loop lies in it. -/
theorem level_inner (hc : d.Checked all) {i k r : Nat} {l m : LoopDraft}
    (hl : d.loops[i]? = some l) (hr : r ∈ d.regionOrder all (some i))
    (hh : d.headerOf r = some k) (hne : k ≠ i) (hm : d.loops[k]? = some m) :
    d.nest.loopsAround l.blocks < d.nest.loopsAround m.blocks := by
  have hparent := hc.parent_of_mem_order hr hh (by simpa using hne) hm
  have hwithin := (beneath_some hl).mp (beneath_of_parent hparent)
  exact Nest.loopsAround_lt (List.mem_of_getElem? (nest_of_loop hl)) hwithin

end Checked

/-- Every procedure that is accepted is left somewhere. -/
theorem sinks_ne_nil_of_build (h : d.build = .ok p) : p.sinks ≠ [] := by
  simp only [build] at h
  split at h
  · cases h
  obtain ⟨⟨⟩, -, h⟩ := bind_eq_ok.mp h
  obtain ⟨⟨⟩, -, h⟩ := bind_eq_ok.mp h
  obtain ⟨all, -, h⟩ := bind_eq_ok.mp h
  obtain ⟨⟨⟩, -, h⟩ := bind_eq_ok.mp h
  obtain ⟨⟨⟩, -, h⟩ := bind_eq_ok.mp h
  obtain ⟨loops, -, h⟩ := bind_eq_ok.mp h
  split at h
  · cases h
  rename_i hsinks
  rw [pure_eq_ok] at h
  rw [← h]
  simpa using hsinks

/-- Nothing keeps an analysis from following a procedure that is accepted. -/
theorem passable_of_build (h : d.build = .ok p) : p.Passable := by
  obtain ⟨all, hb⟩ := build_eq_ok h
  constructor
  case lt_length =>
    intro region b hin
    rw [hb.inside_iff] at hin
    rw [hb.lt_iff]
    cases region with
    | none => exact hin
    | some i =>
      obtain ⟨l, hl, hmem⟩ := hin
      exact hb.blocks_lt i l hl b hmem
  case exists_pred =>
    intro region pre v post ho hpre
    rw [hb.orderOf] at ho
    obtain ⟨u, hu⟩ := hb.exists_pred ho hpre
    exact ⟨u, hb.edge_iff.mpr hu⟩
  case level_lt =>
    intro i loop hloop
    obtain ⟨l, hl, rfl⟩ := hb.loop_eq_some.mp hloop
    have hlevel := Nest.loopsAround_lt_length (List.mem_of_getElem? (nest_of_loop hl))
    rw [nest, List.length_map, ← length_eq_of_getElem? hb.loops] at hlevel
    exact hlevel
  case level_inner =>
    intro i k loop inner r hloop hr hh hne hinner
    obtain ⟨l, hl, rfl⟩ := hb.loop_eq_some.mp hloop
    obtain ⟨m, hm, rfl⟩ := hb.loop_eq_some.mp hinner
    rw [hb.headerOf?] at hh
    exact hb.level_inner hl hr hh hne hm
  case sinks_ne_nil => exact sinks_ne_nil_of_build h

theorem Built.map_blocks (hb : d.Built all p) : p.loops.map (·.blocks) = d.nest := by
  apply List.ext_getElem?
  intro i
  rw [List.getElem?_map, hb.loops, nest_getElem?, Option.map_map]
  rfl

/-- The level of a loop is less than the number of loops around its header. -/
theorem Built.level_lt (hb : d.Built all p) {l : Nat} {loop : Loop}
    (hl : p.loops[l]? = some loop) : loop.level < p.loops.countP (·.contains loop.header) := by
  obtain ⟨m, hm, rfl⟩ := hb.loop_eq_some.mp hl
  have hmem : m.blocks ∈ d.nest := List.mem_of_getElem? (nest_of_loop hm)
  have hcount : p.loops.countP (·.contains m.header) = d.nest.countP (·.contains m.header) := by
    rw [← hb.map_blocks, List.countP_map]
    rfl
  show d.nest.loopsAround m.blocks < p.loops.countP (·.contains m.header)
  rw [hcount]
  exact Nest.loopsAround_lt_countP hmem (header_mem_blocks m)

/-- The header of an outermost loop that no edge leaves is a sink of the procedure. -/
theorem Built.header_mem_sinks (hb : d.Built all p) {l : Nat} {loop : Loop}
    (hl : p.loops[l]? = some loop) (houter : loop.parent = none)
    (hclosed : ∀ u ∈ loop.blocks, ∀ v, p.Edge u v → v ∈ loop.blocks) : loop.header ∈ p.sinks := by
  obtain ⟨m, hm, rfl⟩ := hb.loop_eq_some.mp hl
  rw [hb.sinks, List.mem_filter, hb.order]
  refine ⟨hb.header_mem_order hm houter, ?_⟩
  have hheader : d.headerOf (d.loopOf all m l).header = some l :=
    hb.headerOf_eq_some.mpr ⟨m, hm, rfl⟩
  rw [isSink, hheader, Option.bind_some, nest_of_loop hm]
  simp only [List.all_eq_true, Nest.within, List.contains_iff_mem]
  intro u hu v hv
  exact hclosed u hu v (hb.edge_iff.mpr (mem_preds.mpr (mem_succs.mp hv)))

end Draft

theorem Program.Accepted.passable {program : Program} (h : program.Accepted) {q : Nat}
    {p : Procedure} (hp : program.procedures[q]? = some p) : p.Passable := by
  obtain ⟨d, hbuild⟩ := h.exists_draft hp
  exact Draft.passable_of_build hbuild

/-- Loops lie as deep as the number of loops around a block allows. -/
theorem Program.Accepted.level_lt {program : Program} (h : program.Accepted) {depth : Nat}
    (hnests : program.NestsAtMost depth) {q : Nat} {p : Procedure}
    (hp : program.procedures[q]? = some p) {l : Nat} {loop : Loop}
    (hl : p.loops[l]? = some loop) : loop.level < depth := by
  obtain ⟨d, hbuild⟩ := h.exists_draft hp
  obtain ⟨all, hb⟩ := Draft.build_eq_ok hbuild
  exact Nat.lt_of_lt_of_le (hb.level_lt hl) (hnests p (List.mem_of_getElem? hp) _)

theorem Program.Accepted.header_mem_sinks {program : Program} (h : program.Accepted) {q : Nat}
    {p : Procedure} (hp : program.procedures[q]? = some p) {l : Nat} {loop : Loop}
    (hl : p.loops[l]? = some loop) (houter : loop.parent = none)
    (hclosed : ∀ u ∈ loop.blocks, ∀ v, p.Edge u v → v ∈ loop.blocks) : loop.header ∈ p.sinks := by
  obtain ⟨d, hbuild⟩ := h.exists_draft hp
  obtain ⟨all, hb⟩ := Draft.build_eq_ok hbuild
  exact hb.header_mem_sinks hl houter hclosed

end CycleBounds.Code
