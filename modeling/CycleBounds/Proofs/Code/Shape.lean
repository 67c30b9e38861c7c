import CycleBounds.Proofs.Code.Passable
import Mathlib.Data.List.Forall2
import Mathlib.Data.List.Perm.Subperm

/-!
# The shape of built procedures

What a procedure that is built from a draft looks like, said by its own fields: which loops lie in
one another, which loop is the parent of a loop and the innermost one around a block, and what the
orders of its regions list.

* `Loop.StrictlyIn` compares loops by their blocks alone, `Procedure.IsSmallest` picks the smallest
  loop of a kind by it.
* `Procedure.Shaped` collects the facts about the procedure, `Draft.Describes` those that tie it to
  its draft.
* `Draft.build_shaped`: every built procedure is shaped like that.
* `Procedure.Shaped.level_of_parent`: a loop lies one level deeper than its parent.
-/

namespace CycleBounds.Code

/-! ### Loops in one another -/

/-- A loop lies strictly in another, which has all its blocks and more. -/
def Loop.StrictlyIn (inner outer : Loop) : Prop :=
  inner.blocks ⊆ outer.blocks ∧ ¬ outer.blocks ⊆ inner.blocks

instance (inner outer : Loop) : Decidable (inner.StrictlyIn outer) :=
  inferInstanceAs (Decidable (_ ∧ _))

theorem Loop.StrictlyIn.irrefl (loop : Loop) : ¬ loop.StrictlyIn loop :=
  fun h => h.2 h.1

theorem Loop.StrictlyIn.trans {inner middle outer : Loop} (h : inner.StrictlyIn middle)
    (h' : middle.StrictlyIn outer) : inner.StrictlyIn outer :=
  ⟨List.Subset.trans h.1 h'.1, fun hback => h'.2 (List.Subset.trans hback h.1)⟩

/-- A loop is the smallest one of a kind: it lies strictly in all others of the kind. There is none
if no loop is of the kind. -/
def Procedure.IsSmallest (p : Procedure) (kind : Loop → Prop) : (choice : Option Nat) → Prop
  | none => ∀ loop ∈ p.loops, ¬ kind loop
  | some l => ∃ loop, p.loops[l]? = some loop ∧ kind loop ∧
      ∀ (m : Nat) other, p.loops[m]? = some other → kind other → m = l ∨ loop.StrictlyIn other

/-- Which loop is the smallest depends only on which loops are of the kind. -/
theorem Procedure.IsSmallest.congr {p : Procedure} {kind kind' : Loop → Prop} {choice : Option Nat}
    (h : p.IsSmallest kind choice) (hkind : ∀ loop ∈ p.loops, kind loop ↔ kind' loop) :
    p.IsSmallest kind' choice := by
  cases choice with
  | none => exact fun loop hmem hk => h loop hmem ((hkind loop hmem).mpr hk)
  | some l =>
    obtain ⟨loop, hl, hk, hleast⟩ := h
    refine ⟨loop, hl, (hkind loop (List.mem_of_getElem? hl)).mp hk, fun m other hm hother => ?_⟩
    exact hleast m other hm ((hkind other (List.mem_of_getElem? hm)).mpr hother)

/-! ### What is said of a procedure -/

/-- In the order of a region, a block of the region itself is represented by itself, and the blocks
of a child loop by its header. -/
def Procedure.Represents (p : Procedure) (region : Option Nat) (r u : Nat) : Prop :=
  (r = u ∧ ∃ block, p.blocks[u]? = some block ∧ block.innermost = region) ∨
    ∃ loop ∈ p.loops, loop.parent = region ∧ r = loop.header ∧ u ∈ loop.blocks

/-- How the loops of a procedure nest and what its orders list. -/
structure Procedure.Shaped (p : Procedure) : Prop where
  succs_nodup : ∀ block ∈ p.blocks, block.succs.Nodup
  preds_nodup : ∀ block ∈ p.blocks, block.preds.Nodup
  nested : ∀ {l m : Nat} {loop other}, p.loops[l]? = some loop → p.loops[m]? = some other →
    l ≠ m → loop.blocks.Disjoint other.blocks ∨ loop.StrictlyIn other ∨ other.StrictlyIn loop
  parent : ∀ loop ∈ p.loops, p.IsSmallest loop.StrictlyIn loop.parent
  level : ∀ loop ∈ p.loops, loop.level = p.loops.countP (loop.StrictlyIn ·)
  innermost : ∀ {b : Nat} {block}, p.blocks[b]? = some block →
    p.IsSmallest (b ∈ ·.blocks) block.innermost
  head_order : p.order.head? = some 0
  head_loop : ∀ loop ∈ p.loops, loop.order.head? = some loop.header
  nodup : ∀ region, (p.orderOf region).Nodup
  mem_order_iff : ∀ {region b}, b ∈ p.orderOf region ↔
    (∃ block, p.blocks[b]? = some block ∧ block.innermost = region) ∨
      ∃ loop ∈ p.loops, loop.parent = region ∧ loop.header = b
  represents_unique : ∀ {region r s u}, p.Represents region r u → p.Represents region s u → r = s
  /-- What represents the start of an edge comes before its end. -/
  earlier : ∀ {region pre v post u}, p.orderOf region = pre ++ v :: post → pre ≠ [] → p.Edge u v →
    ∃ r ∈ pre, p.Represents region r u

structure LoopDraft.Describes (l : LoopDraft) (loop : Loop) : Prop where
  header : loop.header = l.header
  sink : loop.sink = l.sink
  bound : loop.bound = l.bound
  naturalExit : loop.naturalExit = l.naturalExit
  mem_blocks : ∀ b, b ∈ loop.blocks ↔ b ∈ l.members ∨ b = l.header ∨ b = l.sink

/-- Blocks, edges and loops of a procedure are exactly those declared. -/
structure Draft.Describes (d : Draft) (p : Procedure) : Prop where
  instructions : p.blocks.map (·.instructions) = d.blocks
  edges_lt : ∀ e ∈ d.edges, e.1 < p.blocks.length ∧ e.2 < p.blocks.length
  mem_succs : ∀ {b : Nat} {block v}, p.blocks[b]? = some block →
    (v ∈ block.succs ↔ (b, v) ∈ d.edges)
  mem_preds : ∀ {b : Nat} {block u}, p.blocks[b]? = some block →
    (u ∈ block.preds ↔ (u, b) ∈ d.edges)
  loops : List.Forall₂ LoopDraft.Describes d.loops p.loops

/-! ### Lists without repetition -/

theorem LoopDraft.nodup_blocks (l : LoopDraft) : l.blocks.Nodup := by
  have hascending := Entries.ascending_iff_keys.mp
    (KeySet.ofList (l.members ++ [l.header, l.sink])).ascending
  exact hascending.imp fun hlt => Nat.ne_of_lt (Nat.compare_eq_lt.mp hlt)

/-- Without repetition, to have more blocks is to have blocks that the other lacks. -/
theorem Nest.strictlyWithin_iff_subset {xs ys : List Nat} (hx : xs.Nodup) (hy : ys.Nodup) :
    strictlyWithin xs ys = true ↔ xs ⊆ ys ∧ ¬ ys ⊆ xs := by
  rw [strictlyWithin_iff]
  constructor
  · rintro ⟨hlt, hsub⟩
    refine ⟨hsub, fun hback => ?_⟩
    have := (hy.subperm hback).length_le
    omega
  · rintro ⟨hsub, hmore⟩
    refine ⟨?_, fun x hx => hsub hx⟩
    by_contra hle
    have hperm := (hx.subperm hsub).perm_of_length_le (Nat.le_of_not_lt hle)
    exact hmore hperm.symm.subset

namespace Draft

variable {d : Draft} {all : List Nat} {p : Procedure} {region : Option Nat}

namespace Built

theorem strictlyIn_iff {l m : LoopDraft} {i j : Nat} :
    (d.loopOf all l i).StrictlyIn (d.loopOf all m j) ↔
      Nest.strictlyWithin l.blocks m.blocks = true :=
  (Nest.strictlyWithin_iff_subset l.nodup_blocks m.nodup_blocks).symm

theorem mem_loops (hb : d.Built all p) {loop : Loop} :
    loop ∈ p.loops ↔ ∃ i l, d.loops[i]? = some l ∧ d.loopOf all l i = loop := by
  rw [List.mem_iff_getElem?]
  exact exists_congr fun i => hb.loop_eq_some

/-! ### Smallest loops -/

theorem isSmallest_none (hb : d.Built all p) {P : List Nat → Prop}
    (hnone : ∀ (j : Nat) m, d.loops[j]? = some m → ¬ P m.blocks) :
    p.IsSmallest (P ·.blocks) none := by
  intro loop hmem hkind
  obtain ⟨i, l, hl, rfl⟩ := hb.mem_loops.mp hmem
  exact hnone i l hl hkind

/-- The smallest loop of a kind whose loops all have one block in common. -/
theorem isSmallest_some (hb : d.Built all p) {P : List Nat → Prop} {b i : Nat} {xs : List Nat}
    (hcommon : ∀ xs, P xs → b ∈ xs) (hxs : d.nest[i]? = some xs) (hkind : P xs)
    (hmin : ∀ (j : Nat) ys, d.nest[j]? = some ys → P ys → xs.length ≤ ys.length) :
    p.IsSmallest (P ·.blocks) (some i) := by
  have hnest := hxs
  obtain ⟨l, hl, rfl⟩ := nest_eq_some.mp hxs
  refine ⟨_, hb.loop_eq_some.mpr ⟨l, hl, rfl⟩, hkind, fun j other hother hkind' => ?_⟩
  obtain ⟨m, hm, rfl⟩ := hb.loop_eq_some.mp hother
  have hnest' : d.nest[j]? = some m.blocks := nest_of_loop hm
  -- loops that share a block are nested, and the chosen one is the smaller
  by_cases hij : j = i
  · exact .inl hij
  · refine .inr (strictlyIn_iff.mpr ?_)
    exact hb.proper.strictlyWithin (Ne.symm hij) hnest hnest' (hcommon _ hkind)
      (hcommon _ hkind') (hmin j _ hnest' hkind')

/-- The parent of a loop is the smallest loop around it. -/
theorem isSmallest_parent (hb : d.Built all p) {loop : Loop} (hmem : loop ∈ p.loops) :
    p.IsSmallest loop.StrictlyIn loop.parent := by
  obtain ⟨i, l, hl, rfl⟩ := hb.mem_loops.mp hmem
  have hcommon : ∀ xs, Nest.strictlyWithin l.blocks xs = true → l.header ∈ xs :=
    fun xs hxs => (Nest.strictlyWithin_iff.mp hxs).2 _ (header_mem_blocks l)
  have hsmallest : p.IsSmallest (Nest.strictlyWithin l.blocks ·.blocks = true)
      (d.nest.parent l.blocks) := by
    cases hparent : d.nest.parent l.blocks with
    | none =>
      refine hb.isSmallest_none (P := (Nest.strictlyWithin l.blocks · = true))
        fun j m hm hin => ?_
      rw [Nest.smallest_eq_none hparent (nest_of_loop hm)] at hin
      cases hin
    | some k =>
      obtain ⟨xs, hxs, hin, hmin⟩ := Nest.smallest_eq_some hparent
      exact hb.isSmallest_some (P := (Nest.strictlyWithin l.blocks · = true)) hcommon hxs hin hmin
  refine hsmallest.congr fun other hother => ?_
  obtain ⟨j, m, -, rfl⟩ := hb.mem_loops.mp hother
  exact strictlyIn_iff.symm

/-- The innermost loop of a block is the smallest one that has it. -/
theorem isSmallest_innermost (hb : d.Built all p) {b : Nat} {block : Block}
    (hblock : p.blocks[b]? = some block) : p.IsSmallest (b ∈ ·.blocks) block.innermost := by
  obtain ⟨is, -, rfl⟩ := hb.block_eq_some.mp hblock
  show p.IsSmallest (b ∈ ·.blocks) (d.nest.innermost b)
  cases hinn : d.nest.innermost b with
  | none => exact hb.isSmallest_none fun j m hm => Nest.innermost_eq_none hinn (nest_of_loop hm)
  | some i =>
    obtain ⟨xs, hxs, hmem, hmin⟩ := hb.proper.innermost_le d.nest_ne_nil hinn
    exact hb.isSmallest_some (P := (b ∈ ·)) (fun _ h => h) hxs hmem hmin

/-- The level of a loop is the number of loops around it. -/
theorem level_eq (hb : d.Built all p) {loop : Loop} (hmem : loop ∈ p.loops) :
    loop.level = p.loops.countP (loop.StrictlyIn ·) := by
  obtain ⟨i, l, -, rfl⟩ := hb.mem_loops.mp hmem
  show d.nest.countP (Nest.strictlyWithin l.blocks) = _
  rw [← hb.map_blocks, List.countP_map]
  refine List.countP_congr fun other hother => ?_
  obtain ⟨j, m, -, rfl⟩ := hb.mem_loops.mp hother
  rw [decide_eq_true_iff, strictlyIn_iff]
  exact Iff.rfl

theorem nested (hb : d.Built all p) {i j : Nat} {loop other : Loop}
    (hloop : p.loops[i]? = some loop) (hother : p.loops[j]? = some other) (hij : i ≠ j) :
    loop.blocks.Disjoint other.blocks ∨ loop.StrictlyIn other ∨ other.StrictlyIn loop := by
  obtain ⟨l, hl, rfl⟩ := hb.loop_eq_some.mp hloop
  obtain ⟨m, hm, rfl⟩ := hb.loop_eq_some.mp hother
  rw [strictlyIn_iff, strictlyIn_iff]
  exact hb.proper i j l.blocks m.blocks hij (nest_of_loop hl) (nest_of_loop hm)

/-! ### Orders -/

/-- An order has the blocks of its region, and the headers of the loops right within it. -/
theorem mem_order_iff (hb : d.Built all p) {b : Nat} : b ∈ p.orderOf region ↔
    (∃ block, p.blocks[b]? = some block ∧ block.innermost = region) ∨
      ∃ loop ∈ p.loops, loop.parent = region ∧ loop.header = b := by
  rw [hb.orderOf]
  constructor
  · intro hmem
    have hlt : b < d.blocks.length := (hb.arranged.mem_iff b).mp (List.mem_filter.mp hmem).1
    have hblock := hb.block_eq_some.mpr ⟨_, List.getElem?_eq_getElem hlt, rfl⟩
    by_cases hinn : d.nest.innermost b = region
    · exact .inl ⟨_, hblock, hinn⟩
    · -- whatever else is listed is the header of a child
      obtain ⟨k, hk, hne⟩ : ∃ k, d.headerOf b = some k ∧ some k ≠ region := by
        cases region with
        | none =>
          obtain ⟨k, -, -, hk, -⟩ := (hb.mem_order_none.mp hmem).2.resolve_left hinn
          exact ⟨k, hk, nofun⟩
        | some i =>
          cases hl : d.loops[i]? with
          | none => simp [regionOrder, ranks, nest_getElem?, hl] at hmem
          | some l =>
            obtain ⟨k, m, hk, hm, hparent⟩ :=
              ((hb.mem_order_some hl).mp hmem).2.resolve_left hinn
            refine ⟨k, hk, fun hki => ?_⟩
            obtain rfl : k = i := Option.some.inj hki
            obtain ⟨ys, hys, hself, -⟩ := Nest.smallest_eq_some hparent
            rw [nest_getElem?, hm] at hys
            obtain rfl : m.blocks = ys := Option.some.inj hys
            simp [Nest.not_strictlyWithin_self] at hself
      obtain ⟨m, hm, rfl⟩ := hb.headerOf_eq_some.mp hk
      refine .inr ⟨_, hb.mem_loops.mpr ⟨k, m, hm, rfl⟩, ?_, rfl⟩
      exact hb.parent_of_mem_order hmem hk hne hm
  · rintro (⟨block, hblock, hinn⟩ | ⟨loop, hloop, hparent, rfl⟩)
    · obtain ⟨is, his, rfl⟩ := hb.block_eq_some.mp hblock
      refine hb.mem_order_of_innermost ?_ hinn
      cases region with
      | none => exact (List.getElem?_eq_some_iff.mp his).1
      | some i =>
        obtain ⟨l, hl, hmem, -⟩ := Checked.innermost_spec hb.proper hinn
        exact ⟨l, hl, hmem⟩
    · obtain ⟨i, l, hl, rfl⟩ := hb.mem_loops.mp hloop
      exact hb.header_mem_order hl hparent

theorem mem_order_of_represents (hb : d.Built all p) {r u : Nat} (h : p.Represents region r u) :
    r ∈ p.orderOf region := by
  rw [hb.mem_order_iff]
  rcases h with ⟨rfl, hown⟩ | ⟨loop, hloop, hparent, rfl, -⟩
  · exact .inl hown
  · exact .inr ⟨loop, hloop, hparent, rfl⟩

/-- A child of a region is another loop than the region. -/
theorem parent_ne_self (hb : d.Built all p) {k : Nat} {loop : Loop}
    (hk : p.loops[k]? = some loop) : loop.parent ≠ some k := by
  intro hparent
  have hsmallest := hb.isSmallest_parent (List.mem_of_getElem? hk)
  rw [hparent] at hsmallest
  obtain ⟨other, hother, hstrict, -⟩ := hsmallest
  obtain rfl := Option.some.inj (hk.symm.trans hother)
  exact Loop.StrictlyIn.irrefl loop hstrict

/-- The blocks of an order represent those that they stand for in the draft. -/
theorem represents_iff (hb : d.Built all p) {r u : Nat} (hr : r ∈ p.orderOf region) :
    p.Represents region r u ↔ d.StandsFor region r u := by
  constructor
  · rintro (⟨rfl, block, hblock, hinn⟩ | ⟨loop, hloop, hparent, rfl, hu⟩)
    · obtain ⟨is, -, rfl⟩ := hb.block_eq_some.mp hblock
      exact .inl ⟨rfl, hb.headerOf_of_innermost hinn⟩
    · obtain ⟨k, m, hm, rfl⟩ := hb.mem_loops.mp hloop
      -- no loop is its own parent
      refine .inr ⟨k, m, hb.headerOf_eq_some.mpr ⟨m, hm, rfl⟩, fun hk => ?_, hm, hu⟩
      exact hb.parent_ne_self (hb.loop_eq_some.mpr ⟨m, hm, rfl⟩) (hparent.trans hk.symm)
  · rintro (⟨rfl, hself⟩ | ⟨k, m, hk, hne, hm, hu⟩)
    · rcases hb.mem_order_iff.mp hr with hown | ⟨loop, hloop, hparent, rfl⟩
      · exact .inl ⟨rfl, hown⟩
      · -- the header of a child would not stand for itself
        obtain ⟨k, m, hm, rfl⟩ := hb.mem_loops.mp hloop
        have hk : d.headerOf m.header = some k := hb.headerOf_eq_some.mpr ⟨m, hm, rfl⟩
        rcases hself with hnone | hsame
        · exact absurd (hk.symm.trans hnone) nofun
        · exact absurd (hparent.trans (hsame.symm.trans hk))
            (hb.parent_ne_self (hb.loop_eq_some.mpr ⟨m, hm, rfl⟩))
    · obtain ⟨m', hm', rfl⟩ := hb.headerOf_eq_some.mp hk
      obtain rfl := Option.some.inj (hm.symm.trans hm')
      rw [hb.orderOf] at hr
      exact .inr ⟨_, hb.mem_loops.mpr ⟨k, m, hm, rfl⟩, hb.parent_of_mem_order hr hk hne hm, rfl, hu⟩

/-- Parents, levels and orders are built as the loops nest. -/
theorem shaped (hb : d.Built all p) : p.Shaped where
  succs_nodup := by
    intro block hmem
    obtain ⟨b, hblock⟩ := List.getElem?_of_mem hmem
    obtain ⟨is, -, rfl⟩ := hb.block_eq_some.mp hblock
    exact nodup_eraseDups _
  preds_nodup := by
    intro block hmem
    obtain ⟨b, hblock⟩ := List.getElem?_of_mem hmem
    obtain ⟨is, -, rfl⟩ := hb.block_eq_some.mp hblock
    exact nodup_eraseDups _
  nested := hb.nested
  parent := fun _ => hb.isSmallest_parent
  level := fun _ => hb.level_eq
  innermost := hb.isSmallest_innermost
  head_order := hb.order ▸ hb.head_order_none
  head_loop := by
    intro loop hmem
    obtain ⟨i, l, hl, rfl⟩ := hb.mem_loops.mp hmem
    exact hb.header_first i l hl
  nodup := fun _ => hb.orderOf ▸ hb.arranged.nodup.filter _
  mem_order_iff := hb.mem_order_iff
  represents_unique := by
    intro region r s u hr hs
    have hmem := hb.mem_order_of_represents hr
    have hmem' := hb.mem_order_of_represents hs
    rw [hb.represents_iff hmem] at hr
    rw [hb.represents_iff hmem'] at hs
    rw [hb.orderOf] at hmem hmem'
    exact hb.standsFor_unique hmem hmem' hr hs
  earlier := by
    intro region pre v post u ho hpre hedge
    have ho' := hb.orderOf.symm.trans ho
    obtain ⟨r, hr, hstands⟩ := hb.earlier ho' hpre (hb.edge_iff.mp hedge)
    have hmem : r ∈ p.orderOf region := ho ▸ List.mem_append_left _ hr
    exact ⟨r, hr, (hb.represents_iff hmem).mpr hstands⟩

/-- A procedure that is built is described by its draft. -/
theorem describes (hb : d.Built all p) : d.Describes p where
  instructions := by
    apply List.ext_getElem?
    intro b
    rw [List.getElem?_map, hb.blocks, Option.map_map]
    exact congrFun Option.map_id _
  edges_lt := by
    intro e he
    rw [hb.lt_iff, hb.lt_iff]
    exact hb.edges_lt e he
  mem_succs := by
    intro b block v hblock
    obtain ⟨is, -, rfl⟩ := hb.block_eq_some.mp hblock
    exact Draft.mem_succs
  mem_preds := by
    intro b block u hblock
    obtain ⟨is, -, rfl⟩ := hb.block_eq_some.mp hblock
    exact Draft.mem_preds
  loops := by
    rw [List.forall₂_iff_get]
    refine ⟨(length_eq_of_getElem? hb.loops).symm, fun i hi hi' => ?_⟩
    obtain ⟨l, hl, hloop⟩ := hb.loop_eq_some.mp (List.getElem?_eq_getElem hi')
    obtain rfl : d.loops[i] = l := Option.some.inj ((List.getElem?_eq_getElem hi).symm.trans hl)
    rw [List.get_eq_getElem, List.get_eq_getElem, ← hloop]
    exact ⟨rfl, rfl, rfl, rfl, fun b => Draft.mem_blocks⟩

end Built

/-- A procedure that is built from a draft is the one that was declared, and its edges, loops and
orders fit together. -/
theorem build_shaped {d : Draft} {p : Procedure} (h : d.build = .ok p) :
    d.Describes p ∧ p.Shaped := by
  obtain ⟨all, hb⟩ := build_eq_ok h
  exact ⟨hb.describes, hb.shaped⟩

/-- A loop in a loop, left through the header of the outer one. -/
def twoLevelDraft : Draft where
  id := 0
  name := "nested"
  blocks := [[⟨0, none⟩], [⟨4, none⟩], [⟨8, none⟩], [⟨12, none⟩], [⟨16, none⟩], [⟨20, none⟩]]
  edges := [(0, 1), (1, 2), (2, 3), (3, 4), (1, 5)]
  loops := [⟨1, 4, [2, 3], 10, false⟩, ⟨2, 3, [], 5, true⟩]

theorem build_twoLevelDraft : ∃ p, twoLevelDraft.build = .ok p ∧ p.order = [0, 1, 5] ∧
    p.loops.map (·.order) = [[1, 2, 4], [2, 3]] ∧ p.loops.map (·.parent) = [none, some 0] ∧
    twoLevelDraft.Describes p ∧ p.Shaped :=
  ⟨_, rfl, rfl, rfl, rfl, build_shaped rfl⟩

end Draft

/-! ### Levels -/

theorem Program.Accepted.shaped {program : Program} (h : program.Accepted) {q : Nat}
    {p : Procedure} (hp : program.procedures[q]? = some p) : p.Shaped := by
  obtain ⟨d, hbuild⟩ := h.exists_draft hp
  obtain ⟨all, hb⟩ := Draft.build_eq_ok hbuild
  exact hb.shaped

namespace Procedure.Shaped

variable {p : Procedure} {k l : Nat} {loop outer : Loop}

/-- A loop lies no deeper than the loops in it. -/
theorem level_le (hs : p.Shaped) (hloop : loop ∈ p.loops) (houter : outer ∈ p.loops)
    (hin : loop.StrictlyIn outer) : outer.level ≤ loop.level := by
  rw [hs.level loop hloop, hs.level outer houter]
  apply List.countP_mono_left
  intro other _ hother
  exact decide_eq_true (hin.trans (of_decide_eq_true hother))

theorem level_of_outermost (hs : p.Shaped) (hloop : loop ∈ p.loops) (hparent : loop.parent = none) :
    loop.level = 0 := by
  have hnone := hs.parent loop hloop
  rw [hparent] at hnone
  rw [hs.level loop hloop, List.countP_eq_zero]
  intro other hother
  simpa using hnone other hother

/-- A loop lies one level deeper than its parent. -/
theorem level_of_parent (hs : p.Shaped) (hloop : loop ∈ p.loops) (hk : p.loops[k]? = some outer)
    (hparent : loop.parent = some k) : loop.level = outer.level + 1 := by
  have hsmallest := hs.parent loop hloop
  rw [hparent] at hsmallest
  obtain ⟨outer', hk', hin, hleast⟩ := hsmallest
  obtain rfl := Option.some.inj (hk.symm.trans hk')
  -- apart from the parent itself, the same loops lie around both
  have hsame : ∀ (m : Nat) other, m ≠ k → p.loops[m]? = some other →
      (loop.StrictlyIn other ↔ outer.StrictlyIn other) := by
    intro m other hmk hm
    exact ⟨fun h => (hleast m other hm h).resolve_left hmk, hin.trans⟩
  rw [hs.level loop hloop, hs.level outer (List.mem_of_getElem? hk)]
  refine Nest.countP_eq_succ hk (decide_eq_true hin)
    (decide_eq_false (Loop.StrictlyIn.irrefl outer)) fun m other hmk hm => ?_
  rw [decide_eq_decide]
  exact hsame m other hmk hm

end Procedure.Shaped

end CycleBounds.Code
