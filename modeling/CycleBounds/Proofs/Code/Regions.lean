import CycleBounds.Proofs.Code.Checks
import Mathlib.Data.Nat.Find

/-!
# Regions of a checked draft

The order of a region lists its blocks with inner loops collapsed into their headers. So each block
of the region is stood for by exactly one block of the order: by itself, or by the header of the
inner loop around it.

* `Checked.idxOf_header_le`: the header of a loop comes first among the blocks of the loop.
* `Checked.exists_standsFor` and `Checked.standsFor_unique`: what stands for a block.
* `Checked.earlier`: what stands for the start of an edge comes before its end.
-/

namespace CycleBounds.Code.Draft

variable {d : Draft} {all : List Nat}

def Inside (d : Draft) : (region : Option Nat) → Nat → Prop
  | none, b => b < d.blocks.length
  | some i, b => ∃ l, d.loops[i]? = some l ∧ b ∈ l.blocks

/-- In the order of a region, a block stands for itself or for the blocks of the inner loop that it
is the header of. -/
def StandsFor (d : Draft) (region : Option Nat) (r u : Nat) : Prop :=
  (r = u ∧ (d.headerOf r = none ∨ d.headerOf r = region)) ∨
    ∃ i l, d.headerOf r = some i ∧ some i ≠ region ∧ d.loops[i]? = some l ∧ u ∈ l.blocks

/-- Of some blocks, one comes first. -/
theorem exists_first (all : List Nat) {xs : List Nat} {b : Nat} (hb : b ∈ xs) :
    ∃ x ∈ xs, ∀ y ∈ xs, all.idxOf x ≤ all.idxOf y := by
  have hex : ∃ k, ∃ y ∈ xs, all.idxOf y = k := ⟨_, b, hb, rfl⟩
  obtain ⟨x, hx, hk⟩ := Nat.find_spec hex
  exact ⟨x, hx, fun y hy => hk ▸ Nat.find_min' hex ⟨y, hy, rfl⟩⟩

namespace Checked

/-! ### Headers -/

/-- A header belongs to a single loop. -/
theorem headerOf_eq_some (hc : d.Checked all) {b i : Nat} :
    d.headerOf b = some i ↔ ∃ l, d.loops[i]? = some l ∧ l.header = b := by
  constructor
  · intro h
    obtain ⟨hi, hb, -⟩ := List.findIdx?_eq_some_iff_getElem.mp h
    exact ⟨d.loops[i], List.getElem?_eq_getElem hi, by simpa using hb⟩
  · rintro ⟨l, hl, rfl⟩
    cases h : d.headerOf l.header with
    | none =>
      have := List.findIdx?_eq_none_iff.mp h l (List.mem_of_getElem? hl)
      simp at this
    | some j =>
      obtain ⟨hj, hb, -⟩ := List.findIdx?_eq_some_iff_getElem.mp h
      have hb : d.loops[j].header = l.header := by simpa using hb
      rw [hc.headers j i _ l (List.getElem?_eq_getElem hj) hl hb]

/-! ### Positions -/

theorem idxOf_inj (hc : d.Checked all) {a b : Nat} (ha : a < d.blocks.length)
    (h : all.idxOf a = all.idxOf b) : a = b :=
  (List.idxOf_inj ((hc.arranged.mem_iff a).mpr ha)).mp h

/-- No block of a region comes before its first one. -/
theorem idxOf_head_le (hc : d.Checked all) {region : Option Nat} {h x : Nat}
    (hh : (d.regionOrder all region).head? = some h) (hx : x ∈ d.regionOrder all region) :
    all.idxOf h ≤ all.idxOf x := by
  have hp : (d.regionOrder all region).Pairwise _ := hc.arranged.pairwise.filter _
  cases ho : d.regionOrder all region with
  | nil =>
    rw [ho] at hh
    cases hh
  | cons y ys =>
    rw [ho] at hh hx hp
    obtain rfl : y = h := by simpa using hh
    rcases List.mem_cons.mp hx with rfl | hx
    · exact Nat.le_refl _
    · exact Nat.le_of_lt ((List.pairwise_cons.mp hp).1 x hx)

/-! ### The blocks of an order -/

/-- The order of a loop has its own blocks, and the headers of the loops right within it. -/
theorem mem_order_some (hc : d.Checked all) {i b : Nat} {l : LoopDraft}
    (hl : d.loops[i]? = some l) : b ∈ d.regionOrder all (some i) ↔
      b ∈ l.blocks ∧ (d.nest.innermost b = some i ∨
        ∃ k m, d.headerOf b = some k ∧ d.loops[k]? = some m ∧ d.nest.parent m.blocks = some i) := by
  -- the rank looks up the header in the loops and the loop in the nest
  have hrank : d.ranksIn d.nest d.nest.levels i b = true ↔ d.nest.innermost b = some i ∨
      ∃ k m, d.headerOf b = some k ∧ d.loops[k]? = some m ∧ d.nest.parent m.blocks = some i := by
    rw [ranksIn, decide_eq_true_iff, Nest.deepest_levels]
    refine or_congr_right ?_
    constructor
    · intro h
      obtain ⟨xs, hxs, hp⟩ := Option.bind_eq_some_iff.mp h
      obtain ⟨k, hk, hkx⟩ := Option.bind_eq_some_iff.mp hxs
      obtain ⟨m, hm, rfl⟩ := nest_eq_some.mp hkx
      exact ⟨k, m, hk, hm, hp⟩
    · rintro ⟨k, m, hk, hm, hp⟩
      rw [hk, Option.bind_some, nest_getElem?, hm]
      exact hp
  rw [regionOrder, List.mem_filter, ranks, nest_getElem?, hl, decide_eq_true_iff, hrank,
    hc.arranged.mem_iff]
  simp only [Option.map_some, Option.getD_some, List.contains_iff_mem]
  exact ⟨fun h => h.2, fun h => ⟨hc.blocks_lt i l hl b h.1, h⟩⟩

/-- The outer order has the blocks outside of loops, and the headers of the outermost ones. -/
theorem mem_order_none (hc : d.Checked all) {b : Nat} :
    b ∈ d.regionOrder all none ↔ b < d.blocks.length ∧ (d.nest.innermost b = none ∨
      ∃ i l, d.nest.innermost b = some i ∧ d.headerOf b = some i ∧ d.loops[i]? = some l ∧
        d.nest.loopsAround l.blocks = 0) := by
  rw [regionOrder, List.mem_filter, ranks, hc.arranged.mem_iff]
  refine and_congr_right fun _ => ?_
  rw [ranksOutside, Nest.deepest_levels]
  cases hinn : d.nest.innermost b with
  | none => simp
  | some i =>
    simp only [decide_eq_true_iff, reduceCtorEq, Option.some.injEq, false_or]
    constructor
    · rintro ⟨hh, hlev⟩
      obtain ⟨l, hl, -⟩ := hc.headerOf_eq_some.mp hh
      rw [hc.proper.levels_getElem? d.nest_ne_nil (nest_of_loop hl), Option.some.injEq] at hlev
      exact ⟨i, l, rfl, hh, hl, hlev⟩
    · rintro ⟨j, l, rfl, hh, hl, hlev⟩
      rw [hc.proper.levels_getElem? d.nest_ne_nil (nest_of_loop hl), hlev]
      exact ⟨hh, rfl⟩

theorem innermost_spec (hproper : d.nest.Proper) {b i : Nat} (h : d.nest.innermost b = some i) :
    ∃ l, d.loops[i]? = some l ∧ b ∈ l.blocks ∧
      ∀ (j : Nat) m, d.loops[j]? = some m → b ∈ m.blocks → l.blocks.length ≤ m.blocks.length := by
  obtain ⟨xs, hxs, hb, hmin⟩ := hproper.innermost_le d.nest_ne_nil h
  obtain ⟨l, hl, rfl⟩ := nest_eq_some.mp hxs
  exact ⟨l, hl, hb, fun j m hm => hmin j m.blocks (nest_of_loop hm)⟩

theorem beneath_some {i : Nat} {l : LoopDraft} (hl : d.loops[i]? = some l) {xs : List Nat} :
    d.nest.Beneath (some i) xs ↔ Nest.strictlyWithin xs l.blocks = true := by
  constructor
  · intro h
    obtain ⟨ys, hys, hsw⟩ := h i rfl
    rw [nest_getElem?, hl] at hys
    obtain rfl : l.blocks = ys := Option.some.inj hys
    exact hsw
  · intro h j hj
    obtain rfl : i = j := Option.some.inj hj
    exact ⟨l.blocks, nest_of_loop hl, h⟩

/-- The region that a block belongs to directly, or the child of the region around it. -/
theorem innermost_or_child (hc : d.Checked all) {region : Option Nat} {u : Nat}
    (hu : d.Inside region u) : d.nest.innermost u = region ∨
      ∃ (k : Nat) (m : LoopDraft), d.loops[k]? = some m ∧ u ∈ m.blocks ∧
        d.nest.parent m.blocks = region ∧ d.nest.Beneath region m.blocks := by
  by_cases hex : ∃ (j : Nat) (ys : List Nat), d.nest[j]? = some ys ∧
      (u ∈ ys ∧ d.nest.Beneath region ys)
  · obtain ⟨k, ys, hk, ⟨huy, hbelow⟩, hmax⟩ := Nest.exists_largest hex
    obtain ⟨m, hm, rfl⟩ := nest_eq_some.mp hk
    exact .inr ⟨k, m, hm, huy, hc.proper.parent_of_largest huy hbelow
      fun j zs hj hz hzb => hmax j zs hj ⟨hz, hzb⟩, hbelow⟩
  · refine .inl (hc.proper.innermost_of_none d.nest_ne_nil (fun i hi => ?_)
      fun j ys hj huy hb => ?_)
    · rw [hi] at hu
      obtain ⟨l, hl, hul⟩ := hu
      exact ⟨l.blocks, nest_of_loop hl, hul⟩
    · exact hex ⟨j, ys, hj, huy, hb⟩

/-! ### Headers come first -/

/-- The header of a loop comes before all other blocks of the loop. -/
theorem idxOf_header_le (hc : d.Checked all) {i : Nat} {l : LoopDraft}
    (hl : d.loops[i]? = some l) {b : Nat} (hb : b ∈ l.blocks) :
    all.idxOf l.header ≤ all.idxOf b := by
  -- by induction on the number of blocks: the first block of the loop belongs to it directly or
  -- is the header of a child, and in both cases it is listed in the order of the loop
  induction hn : l.blocks.length using Nat.strongRecOn generalizing i l b with
  | ind n ih =>
    obtain ⟨x, hx, hmin⟩ := exists_first all hb
    have hxo : x ∈ d.regionOrder all (some i) := by
      rw [hc.mem_order_some hl]
      refine ⟨hx, ?_⟩
      have hin : d.Inside (some i) x := ⟨l, hl, hx⟩
      rcases hc.innermost_or_child hin with h | ⟨k, m, hm, hxm, hp, hbel⟩
      · exact .inl h
      · have hsw := Nest.strictlyWithin_iff.mp ((beneath_some hl).mp hbel)
        have hfirst := ih m.blocks.length (hn ▸ hsw.1) hm hxm rfl
        have hle := hmin m.header (hsw.2 _ (header_mem_blocks m))
        have hxh : x = m.header :=
          hc.idxOf_inj (hc.blocks_lt i l hl x hx) (Nat.le_antisymm hle hfirst)
        exact .inr ⟨k, m, hc.headerOf_eq_some.mpr ⟨m, hm, hxh.symm⟩, hm, hp⟩
    exact Nat.le_trans (hc.idxOf_head_le (hc.header_first i l hl) hxo) (hmin b hb)

/-- A loop's header lies in none of the loops in it. -/
theorem header_notMem (hc : d.Checked all) {i j : Nat} {l m : LoopDraft}
    (hl : d.loops[i]? = some l) (hm : d.loops[j]? = some m)
    (hsw : Nest.strictlyWithin m.blocks l.blocks = true) : l.header ∉ m.blocks := by
  intro hmem
  have hsw := Nest.strictlyWithin_iff.mp hsw
  have h₁ := hc.idxOf_header_le hm hmem
  have h₂ := hc.idxOf_header_le hl (hsw.2 _ (header_mem_blocks m))
  have heq : l.header = m.header := hc.idxOf_inj
    (hc.blocks_lt i l hl _ (header_mem_blocks l)) (Nat.le_antisymm h₂ h₁)
  obtain rfl : i = j := hc.headers i j l m hl hm heq
  obtain rfl : l = m := Option.some.inj (hl.symm.trans hm)
  exact absurd hsw.1 (Nat.lt_irrefl _)

/-- The innermost loop around a header is its own loop. -/
theorem innermost_header (hc : d.Checked all) {i j : Nat} {l : LoopDraft}
    (hl : d.loops[i]? = some l) (h : d.nest.innermost l.header = some j) : j = i := by
  obtain ⟨m, hm, hmem, hmin⟩ := innermost_spec hc.proper h
  by_contra hne
  refine hc.header_notMem hl hm ?_ hmem
  exact hc.proper.strictlyWithin hne (nest_of_loop hm) (nest_of_loop hl) hmem
    (header_mem_blocks l) (hmin i l hl (header_mem_blocks l))

/-! ### What stands for a block -/

/-- The inner loops that are listed in the order of a region are children of the region. -/
theorem parent_of_mem_order (hc : d.Checked all) {region : Option Nat} {r k : Nat}
    {m : LoopDraft} (hr : r ∈ d.regionOrder all region) (hh : d.headerOf r = some k)
    (hne : some k ≠ region) (hm : d.loops[k]? = some m) : d.nest.parent m.blocks = region := by
  obtain ⟨m', hm', rfl⟩ := hc.headerOf_eq_some.mp hh
  obtain rfl : m = m' := Option.some.inj (hm.symm.trans hm')
  cases region with
  | none =>
    obtain ⟨-, hinn | ⟨i, l, -, hhi, hl, hlev⟩⟩ := hc.mem_order_none.mp hr
    · exact absurd hinn (innermost_ne_none hm (header_mem_blocks m))
    · obtain rfl : k = i := Option.some.inj (hh.symm.trans hhi)
      obtain rfl : m = l := Option.some.inj (hm.symm.trans hl)
      -- no loop lies around a loop of level zero
      cases hpar : d.nest.parent m.blocks with
      | none => rfl
      | some j =>
        obtain ⟨ys, hys, hsw, -⟩ := Nest.smallest_eq_some hpar
        exact absurd hsw (List.countP_eq_zero.mp hlev ys (List.mem_of_getElem? hys))
  | some i =>
    cases hl : d.loops[i]? with
    | none =>
      rw [regionOrder, List.mem_filter, ranks, nest_getElem?, hl] at hr
      simp at hr
    | some l =>
      obtain ⟨hrl, hinn | ⟨k', m', hk', hm', hp⟩⟩ := (hc.mem_order_some hl).mp hr
      · -- a header whose innermost loop is the region is the header of the region
        exact absurd (congrArg some (hc.innermost_header hm hinn)).symm hne
      · obtain rfl : k = k' := Option.some.inj (hh.symm.trans hk')
        obtain rfl : m = m' := Option.some.inj (hm.symm.trans hm')
        exact hp

/-- A child of a region lies in the region. -/
theorem beneath_of_parent {region : Option Nat} {m : LoopDraft}
    (hp : d.nest.parent m.blocks = region) : d.nest.Beneath region m.blocks := by
  intro i hi
  rw [hi] at hp
  obtain ⟨ys, hys, hsw, -⟩ := Nest.smallest_eq_some hp
  exact ⟨ys, hys, hsw⟩

/-- The blocks of the loops beneath a region are inside of it. -/
theorem inside_of_beneath (hc : d.Checked all) {region : Option Nat} {k : Nat} {m : LoopDraft}
    (hm : d.loops[k]? = some m) (hb : d.nest.Beneath region m.blocks) {u : Nat}
    (hu : u ∈ m.blocks) : d.Inside region u := by
  cases region with
  | none => exact hc.blocks_lt k m hm u hu
  | some i =>
    obtain ⟨ys, hys, hsw⟩ := hb i rfl
    obtain ⟨l, hl, rfl⟩ := nest_eq_some.mp hys
    exact ⟨l, hl, (Nest.strictlyWithin_iff.mp hsw).2 u hu⟩

/-- The header of a child is listed in the order of the region. -/
theorem header_mem_order (hc : d.Checked all) {region : Option Nat} {k : Nat} {m : LoopDraft}
    (hm : d.loops[k]? = some m) (hp : d.nest.parent m.blocks = region) :
    m.header ∈ d.regionOrder all region := by
  have hh : d.headerOf m.header = some k := hc.headerOf_eq_some.mpr ⟨m, hm, rfl⟩
  have hin := hc.inside_of_beneath hm (beneath_of_parent hp) (header_mem_blocks m)
  cases region with
  | none =>
    refine hc.mem_order_none.mpr ⟨hin, ?_⟩
    cases hinn : d.nest.innermost m.header with
    | none => exact .inl rfl
    | some j =>
      obtain rfl := hc.innermost_header hm hinn
      refine .inr ⟨j, m, rfl, hh, hm, List.countP_eq_zero.mpr fun ys hys hsw => ?_⟩
      obtain ⟨i, hi⟩ := List.getElem?_of_mem hys
      rw [Nest.smallest_eq_none hp hi] at hsw
      cases hsw
  | some i =>
    obtain ⟨l, hl, hml⟩ := hin
    exact (hc.mem_order_some hl).mpr ⟨hml, .inr ⟨k, m, hh, hm, hp⟩⟩

/-- What a block of a region stands for is inside of the region. -/
theorem inside_of_standsFor (hc : d.Checked all) {region : Option Nat} {r u : Nat}
    (hr : r ∈ d.regionOrder all region) (hu : d.StandsFor region r u) : d.Inside region u := by
  rcases hu with ⟨rfl, -⟩ | ⟨k, m, hk, hne, hm, hum⟩
  · cases region with
    | none => exact (hc.mem_order_none.mp hr).1
    | some i =>
      rw [regionOrder, List.mem_filter, ranks, nest_getElem?, decide_eq_true_iff] at hr
      cases hl : d.loops[i]? with
      | none => simp [hl] at hr
      | some l => exact ⟨l, hl, by simpa [hl] using hr.2.1⟩
  · exact hc.inside_of_beneath hm (beneath_of_parent (hc.parent_of_mem_order hr hk hne hm)) hum

/-- A block whose innermost region is the given one is listed in its order. -/
theorem mem_order_of_innermost (hc : d.Checked all) {region : Option Nat} {u : Nat}
    (hu : d.Inside region u) (hinn : d.nest.innermost u = region) :
    u ∈ d.regionOrder all region := by
  cases region with
  | none => exact hc.mem_order_none.mpr ⟨hu, .inl hinn⟩
  | some i =>
    obtain ⟨l, hl, hul⟩ := hu
    exact (hc.mem_order_some hl).mpr ⟨hul, .inl hinn⟩

/-- A block whose innermost region is the given one heads no inner loop of it. -/
theorem headerOf_of_innermost (hc : d.Checked all) {region : Option Nat} {u : Nat}
    (hinn : d.nest.innermost u = region) : d.headerOf u = none ∨ d.headerOf u = region := by
  cases hh : d.headerOf u with
  | none => exact .inl rfl
  | some k =>
    obtain ⟨m, hm, rfl⟩ := hc.headerOf_eq_some.mp hh
    cases region with
    | none => exact absurd hinn (innermost_ne_none hm (header_mem_blocks m))
    | some i => exact .inr (congrArg some (hc.innermost_header hm hinn).symm)

/-- Every block of a region is stood for in the order of the region, by a block that does not come
later. -/
theorem exists_standsFor (hc : d.Checked all) {region : Option Nat} {u : Nat}
    (hu : d.Inside region u) :
    ∃ r ∈ d.regionOrder all region, d.StandsFor region r u ∧ all.idxOf r ≤ all.idxOf u := by
  rcases hc.innermost_or_child hu with hinn | ⟨k, m, hm, hum, hp, hbel⟩
  · exact ⟨u, hc.mem_order_of_innermost hu hinn, .inl ⟨rfl, hc.headerOf_of_innermost hinn⟩,
      Nat.le_refl _⟩
  · refine ⟨m.header, hc.header_mem_order hm hp, .inr ⟨k, m, ?_, fun hk => ?_, hm, hum⟩,
      hc.idxOf_header_le hm hum⟩
    · exact hc.headerOf_eq_some.mpr ⟨m, hm, rfl⟩
    · -- a loop does not lie strictly in itself
      obtain ⟨ys, hys, hsw⟩ := hbel k hk.symm
      rw [nest_getElem?, hm] at hys
      obtain rfl : m.blocks = ys := Option.some.inj hys
      exact absurd (Nest.strictlyWithin_iff.mp hsw).1 (Nat.lt_irrefl _)

/-- No loop around a block that stands for itself lies in the region. -/
theorem not_beneath_of_standsFor_self (hc : d.Checked all) {region : Option Nat} {u k : Nat}
    {m : LoopDraft} (hu : u ∈ d.regionOrder all region)
    (hself : d.headerOf u = none ∨ d.headerOf u = region) (hm : d.loops[k]? = some m)
    (hum : u ∈ m.blocks) : ¬ d.nest.Beneath region m.blocks := by
  intro hbel
  cases region with
  | none =>
    obtain ⟨-, hinn | ⟨i, l, -, hh, -, -⟩⟩ := hc.mem_order_none.mp hu
    · exact absurd hinn (innermost_ne_none hm hum)
    · rw [hh] at hself
      simp at hself
  | some i =>
    obtain ⟨ys, hys, hsw⟩ := hbel i rfl
    obtain ⟨l, hl, rfl⟩ := nest_eq_some.mp hys
    rcases hself with hnone | hself
    · -- the loop would be smaller than the innermost one
      obtain ⟨-, hinn | ⟨k', -, hk', -, -⟩⟩ := (hc.mem_order_some hl).mp hu
      · obtain ⟨l', hl', -, hmin⟩ := innermost_spec hc.proper hinn
        obtain rfl : l = l' := Option.some.inj (hl.symm.trans hl')
        have := hmin k m hm hum
        have := (Nest.strictlyWithin_iff.mp hsw).1
        omega
      · rw [hnone] at hk'
        cases hk'
    · obtain ⟨l', hl', rfl⟩ := hc.headerOf_eq_some.mp hself
      obtain rfl : l = l' := Option.some.inj (hl.symm.trans hl')
      exact hc.header_notMem hl hm hsw hum

/-- A child of a region shares no block with a larger loop in the region. -/
theorem children_apart (hc : d.Checked all) {region : Option Nat} {u k k' : Nat}
    {m m' : LoopDraft} (hkk : k ≠ k') (hm : d.loops[k]? = some m) (hm' : d.loops[k']? = some m')
    (hum : u ∈ m.blocks) (hum' : u ∈ m'.blocks) (hp : d.nest.parent m.blocks = region)
    (hb : d.nest.Beneath region m'.blocks) (hle : m.blocks.length ≤ m'.blocks.length) :
    False := by
  have hmn' : d.nest[k']? = some m'.blocks := nest_of_loop hm'
  have hsw := hc.proper.strictlyWithin hkk (nest_of_loop hm) hmn' hum hum' hle
  cases region with
  | none =>
    rw [Nest.smallest_eq_none hp hmn'] at hsw
    cases hsw
  | some i =>
    obtain ⟨ys, hys, -, hmin⟩ := Nest.smallest_eq_some hp
    obtain ⟨zs, hzs, hsw'⟩ := hb i rfl
    obtain rfl : ys = zs := Option.some.inj (hys.symm.trans hzs)
    have := hmin k' m'.blocks hmn' hsw
    have := (Nest.strictlyWithin_iff.mp hsw').1
    omega

/-- Only one block of the order of a region stands for a block. -/
theorem standsFor_unique (hc : d.Checked all) {region : Option Nat} {r s u : Nat}
    (hr : r ∈ d.regionOrder all region) (hs : s ∈ d.regionOrder all region)
    (hru : d.StandsFor region r u) (hsu : d.StandsFor region s u) : r = s := by
  have child : ∀ {r k m}, r ∈ d.regionOrder all region → d.headerOf r = some k →
      some k ≠ region → d.loops[k]? = some m → d.nest.Beneath region m.blocks :=
    fun hr hk hne hm => beneath_of_parent (hc.parent_of_mem_order hr hk hne hm)
  rcases hru with ⟨rfl, hself⟩ | ⟨k, m, hk, hne, hm, hum⟩
  · rcases hsu with ⟨rfl, -⟩ | ⟨k', m', hk', hne', hm', hum'⟩
    · rfl
    · exact absurd (child hs hk' hne' hm')
        (hc.not_beneath_of_standsFor_self hr hself hm' hum')
  · rcases hsu with ⟨rfl, hself⟩ | ⟨k', m', hk', hne', hm', hum'⟩
    · exact absurd (child hr hk hne hm) (hc.not_beneath_of_standsFor_self hs hself hm hum)
    · -- two children that share a block are the same
      have hpar := hc.parent_of_mem_order hr hk hne hm
      have hpar' := hc.parent_of_mem_order hs hk' hne' hm'
      have hkk : k = k' := by
        by_contra hkk
        rcases Nat.le_total m.blocks.length m'.blocks.length with hle | hle
        · exact hc.children_apart hkk hm hm' hum hum' hpar (beneath_of_parent hpar') hle
        · exact hc.children_apart (Ne.symm hkk) hm' hm hum' hum hpar' (beneath_of_parent hpar) hle
      obtain ⟨m₁, h₁, rfl⟩ := hc.headerOf_eq_some.mp hk
      obtain ⟨m₂, h₂, rfl⟩ := hc.headerOf_eq_some.mp hk'
      rw [hkk] at h₁
      rw [Option.some.inj (h₁.symm.trans h₂)]

/-! ### Edges -/

/-- A loop lies in every region that its header lies in. -/
theorem inside_of_header (hc : d.Checked all) {region : Option Nat} {k : Nat} {m : LoopDraft}
    (hm : d.loops[k]? = some m) (hh : d.Inside region m.header) {u : Nat} (hu : u ∈ m.blocks) :
    d.Inside region u := by
  cases region with
  | none => exact hc.blocks_lt k m hm u hu
  | some i =>
    obtain ⟨l, hl, hmem⟩ := hh
    by_cases hik : i = k
    · subst hik
      obtain rfl := Option.some.inj (hl.symm.trans hm)
      exact ⟨l, hl, hu⟩
    · refine ⟨l, hl, ?_⟩
      have hnest : d.nest[i]? = some l.blocks := nest_of_loop hl
      have hnest' : d.nest[k]? = some m.blocks := nest_of_loop hm
      rcases hc.proper i k _ _ hik hnest hnest' with hdisj | hsw | hsw
      · exact absurd (header_mem_blocks m) (hdisj _ hmem)
      · exact absurd hmem (hc.header_notMem hm hl hsw)
      · exact (Nest.strictlyWithin_iff.mp hsw).2 u hu

theorem pred_lt (hc : d.Checked all) {u v : Nat} (hu : u ∈ d.preds v) : u < d.blocks.length :=
  (hc.edges_lt _ (mem_preds.mp hu)).1

/-- An edge into a later block of an order starts at a block that an earlier one stands for. -/
theorem earlier (hc : d.Checked all) {region : Option Nat} {pre post : List Nat} {u v : Nat}
    (ho : d.regionOrder all region = pre ++ v :: post) (hpre : pre ≠ []) (hu : u ∈ d.preds v) :
    ∃ r ∈ pre, d.StandsFor region r u := by
  have hv : v ∈ d.regionOrder all region := by
    rw [ho]
    exact List.mem_append_right _ List.mem_cons_self
  have hin : d.Inside region u := by
    cases region with
    | none => exact hc.pred_lt hu
    | some i =>
      cases hl : d.loops[i]? with
      | none =>
        rw [regionOrder, List.mem_filter, ranks, nest_getElem?, hl] at hv
        simp at hv
      | some l =>
        refine ⟨l, hl, hc.entered i l hl v ((hc.mem_order_some hl).mp hv).1 (fun hvh => ?_) u hu⟩
        -- the header is the first of the order and occurs only once
        have hnd : (d.regionOrder all (some i)).Nodup := hc.arranged.nodup.filter _
        have hfirst := hc.header_first i l hl
        obtain ⟨x, pre, rfl⟩ := List.exists_cons_of_ne_nil hpre
        rw [ho] at hfirst hnd
        obtain rfl : x = v := by simpa [hvh] using hfirst
        simp at hnd
  -- what stands for `u` comes no later than `u`, so it comes before `v`
  obtain ⟨r, hr, hstand, hle⟩ := hc.exists_standsFor hin
  have hlt := hc.arranged.idxOf_lt u v (List.mem_filter.mp hv).1 hu
  have hp : (d.regionOrder all region).Pairwise _ := hc.arranged.pairwise.filter _
  rw [ho] at hr hp
  refine ⟨r, ?_, hstand⟩
  rcases List.mem_append.mp hr with hr | hr
  · exact hr
  · exfalso
    rcases List.mem_cons.mp hr with rfl | hr
    · omega
    · have := (List.pairwise_cons.mp (List.pairwise_append.mp hp).2.1).1 r hr
      omega

/-- The first block of the whole body is block 0. -/
theorem head_order_none (hc : d.Checked all) : (d.regionOrder all none).head? = some 0 := by
  -- whatever is first has no predecessor, since that would be stood for by something earlier
  have hzero : d.Inside none 0 := hc.nonempty
  obtain ⟨r, hr, -, -⟩ := hc.exists_standsFor hzero
  cases ho : d.regionOrder all none with
  | nil =>
    rw [ho] at hr
    cases hr
  | cons x xs =>
    rw [ho] at hr
    have hx : x ∈ d.regionOrder all none := by
      rw [ho]
      exact List.mem_cons_self
    have hpos : x = 0 := by
      by_contra hne
      have hlt := (hc.arranged.mem_iff x).mp (List.mem_filter.mp hx).1
      obtain ⟨u, hu⟩ := List.exists_mem_of_ne_nil _
        (hc.reachable x (Nat.pos_of_ne_zero hne) hlt)
      have hin : d.Inside none u := hc.pred_lt hu
      obtain ⟨s, hs, -, hle⟩ := hc.exists_standsFor hin
      have hhead : (d.regionOrder all none).head? = some x := by
        rw [ho]
        rfl
      have h₁ := hc.idxOf_head_le hhead hs
      have h₂ := hc.arranged.idxOf_lt u x (List.mem_filter.mp hx).1 hu
      omega
    rw [hpos]
    rfl

/-- The sink of a loop stands for itself in the order of the loop. -/
theorem sink_mem_order (hc : d.Checked all) {i : Nat} {l : LoopDraft}
    (hl : d.loops[i]? = some l) : l.sink ∈ d.regionOrder all (some i) ∧
      (d.headerOf l.sink = none ∨ d.headerOf l.sink = some i) :=
  ⟨hc.mem_order_of_innermost ⟨l, hl, sink_mem_blocks l⟩ (hc.innermost_sink i l hl),
    hc.headerOf_of_innermost (hc.innermost_sink i l hl)⟩

end Checked

end CycleBounds.Code.Draft
