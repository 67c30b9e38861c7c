import CycleBounds.Code.Program
import CycleBounds.Proofs.Code.Regions

/-!
# The structure of accepted programs

`Procedure.WellFormed` says how the edges, the loops and the orders of a procedure fit together. It
is all that the theory of executions needs to know about a procedure, and every procedure that is
built from a draft has it (`Draft.wellFormed_of_build`). A region of a procedure is one of its loops
or, as `none`, its whole body.

* `Procedure.WellFormed.enters_at`: edges between blocks that different blocks of an order stand for
  end at the latter.
* `Program.Accepted`: programs made of built procedures.
-/

namespace CycleBounds.Code

namespace Procedure

def headerOf? (p : Procedure) (b : Nat) : Option Nat :=
  p.blocks[b]?.bind (·.headerOf)

def Edge (p : Procedure) (u v : Nat) : Prop :=
  ∃ block, p.blocks[u]? = some block ∧ v ∈ block.succs

def orderOf (p : Procedure) : (region : Option Nat) → List Nat
  | none => p.order
  | some l => (p.loops[l]?.map (·.order)).getD []

def Inside (p : Procedure) : (region : Option Nat) → Nat → Prop
  | none, b => b < p.blocks.length
  | some l, b => ∃ loop, p.loops[l]? = some loop ∧ b ∈ loop.blocks

/-- In the order of a region, a block stands for itself or for the blocks of the inner loop that it
is the header of. -/
def StandsFor (p : Procedure) (region : Option Nat) (r u : Nat) : Prop :=
  (r = u ∧ (p.headerOf? r = none ∨ p.headerOf? r = region)) ∨
    ∃ l loop, p.headerOf? r = some l ∧ some l ≠ region ∧ p.loops[l]? = some loop ∧ u ∈ loop.blocks

/-- Control can leave a loop after a block, by an edge or because the procedure is left there. -/
def LeftAt (p : Procedure) (loop : Loop) (b : Nat) : Prop :=
  (∃ v, p.Edge b v ∧ v ∉ loop.blocks) ∨ b ∈ p.sinks

/-- Every edge that leaves a loop starts at its header or at its sink. -/
def ExitsAtEnds (p : Procedure) : Prop :=
  ∀ {l : Nat} {loop u v}, p.loops[l]? = some loop → u ∈ loop.blocks → p.Edge u v →
    v ∉ loop.blocks → u = loop.header ∨ u = loop.sink

/-- Edges, loops and orders fit together. -/
structure WellFormed (p : Procedure) : Prop where
  edge_iff : ∀ {u v}, p.Edge u v ↔ ∃ block, p.blocks[v]? = some block ∧ u ∈ block.preds
  not_edge_self : ∀ u, ¬ p.Edge u u
  headerOf_iff : ∀ {b l}, p.headerOf? b = some l ↔
    ∃ loop, p.loops[l]? = some loop ∧ loop.header = b
  header_mem : ∀ {l : Nat} {loop}, p.loops[l]? = some loop → loop.header ∈ loop.blocks
  head_order : p.order.head? = some 0
  head_loop : ∀ {l : Nat} {loop}, p.loops[l]? = some loop → loop.order.head? = some loop.header
  nodup : ∀ region, (p.orderOf region).Nodup
  /-- What a block of an order stands for lies in the region. -/
  inside : ∀ {region r u}, r ∈ p.orderOf region → p.StandsFor region r u → p.Inside region u
  exists_standsFor : ∀ {region u}, p.Inside region u →
    ∃ r ∈ p.orderOf region, p.StandsFor region r u
  /-- A loop lies in every region that its header lies in. -/
  nested : ∀ {l : Nat} {loop region u}, p.loops[l]? = some loop → p.Inside region loop.header →
    u ∈ loop.blocks → p.Inside region u
  standsFor_unique : ∀ {region r s u}, r ∈ p.orderOf region → s ∈ p.orderOf region →
    p.StandsFor region r u → p.StandsFor region s u → r = s
  /-- Edges into a block of an order other than the first start at what earlier ones stand for. -/
  earlier : ∀ {region pre v post u}, p.orderOf region = pre ++ v :: post → pre ≠ [] → p.Edge u v →
    ∃ r ∈ pre, p.StandsFor region r u
  /-- No edge of a region leads to its first block. -/
  not_inside_of_edge_head : ∀ {region h u}, (p.orderOf region).head? = some h → p.Edge u h →
    ¬ p.Inside region u
  /-- A loop is entered at its header only. -/
  entered : ∀ {l : Nat} {loop u v}, p.loops[l]? = some loop → v ∈ loop.blocks → v ≠ loop.header →
    p.Edge u v → u ∈ loop.blocks
  /-- The sink of a loop lies in no inner loop. -/
  sink_mem : ∀ {l : Nat} {loop}, p.loops[l]? = some loop → loop.sink ∈ loop.order ∧
    (p.headerOf? loop.sink = none ∨ p.headerOf? loop.sink = some l)
  sinks_mem : ∀ {b}, b ∈ p.sinks → b ∈ p.order

/-- A block is the header of an inner loop of a region, or it is not. -/
theorem headerOf?_cases {p : Procedure} {b : Nat} {block : Block} (hb : p.blocks[b]? = some block)
    (region : Option Nat) :
    match block.headerOf.filter fun l => some l ≠ region with
    | some l => p.headerOf? b = some l ∧ some l ≠ region
    | none => p.headerOf? b = none ∨ p.headerOf? b = region := by
  have hheader : p.headerOf? b = block.headerOf := by rw [headerOf?, hb, Option.bind_some]
  rw [hheader]
  cases hfilter : block.headerOf.filter fun l => some l ≠ region with
  | some l =>
    obtain ⟨hl, hne⟩ := Option.filter_eq_some_iff.mp hfilter
    exact ⟨hl, by simpa using hne⟩
  | none =>
    cases hl : block.headerOf with
    | none => exact .inl rfl
    | some l => exact .inr (by simpa [hl, Option.filter] using hfilter)

/-- Loops are left at their ends just if all other blocks stay inside. -/
theorem exitsAtEnds_iff {p : Procedure} : p.ExitsAtEnds ↔ ∀ loop ∈ p.loops, ∀ u ∈ loop.blocks,
    (u = loop.header ∨ u = loop.sink) ∨
      ∀ block ∈ p.blocks[u]?, ∀ v ∈ block.succs, v ∈ loop.blocks := by
  constructor
  · intro h loop hmem u hu
    obtain ⟨l, hl⟩ := List.getElem?_of_mem hmem
    by_cases hends : u = loop.header ∨ u = loop.sink
    · exact .inl hends
    · refine .inr fun block hblock v hv => ?_
      by_contra hout
      exact hends (h hl hu ⟨block, hblock, hv⟩ hout)
  · rintro h l loop u v hl hu ⟨block, hblock, hv⟩ hout
    rcases h loop (List.mem_of_getElem? hl) u hu with hends | hinside
    · exact hends
    · exact absurd (hinside block hblock v hv) hout

instance (p : Procedure) : Decidable p.ExitsAtEnds :=
  decidable_of_iff' _ exitsAtEnds_iff

theorem orderOf_loop {p : Procedure} {l : Nat} {loop : Loop} (hl : p.loops[l]? = some loop) :
    p.orderOf (some l) = loop.order := by
  rw [orderOf, hl]
  rfl

section StandsFor

variable {p : Procedure} {region : Option Nat} {r u l : Nat}

/-- A block that is no header of an inner loop stands for itself only. -/
theorem StandsFor.eq_self (h : p.StandsFor region r u)
    (hself : p.headerOf? r = none ∨ p.headerOf? r = region) : u = r := by
  rcases h with ⟨rfl, -⟩ | ⟨l, loop, hh, hne, -, -⟩
  · rfl
  · rcases hself with hnone | hsame
    · rw [hnone] at hh
      cases hh
    · exact absurd (hh.symm.trans hsame) hne

/-- The header of an inner loop stands for blocks of the loop. -/
theorem StandsFor.inside_inner (h : p.StandsFor region r u) (hh : p.headerOf? r = some l)
    (hne : some l ≠ region) : p.Inside (some l) u := by
  rcases h with ⟨-, hnone | hsame⟩ | ⟨l', loop, hh', -, hl, hu⟩
  · rw [hnone] at hh
    cases hh
  · exact absurd (hh.symm.trans hsame) hne
  · obtain rfl : l = l' := Option.some.inj (hh.symm.trans hh')
    exact ⟨loop, hl, hu⟩

end StandsFor

theorem inside_loop {p : Procedure} {l b : Nat} {loop : Loop} (hl : p.loops[l]? = some loop) :
    p.Inside (some l) b ↔ b ∈ loop.blocks := by
  constructor
  · rintro ⟨loop', hl', hb⟩
    obtain rfl := Option.some.inj (hl.symm.trans hl')
    exact hb
  · exact fun hb => ⟨loop, hl, hb⟩

theorem standsFor_header {p : Procedure} {region : Option Nat} {r u l : Nat} {loop : Loop}
    (hh : p.headerOf? r = some l) (hne : some l ≠ region) (hl : p.loops[l]? = some loop) :
    p.StandsFor region r u ↔ u ∈ loop.blocks :=
  ⟨fun h => (inside_loop hl).mp (h.inside_inner hh hne),
    fun hu => .inr ⟨l, loop, hh, hne, hl, hu⟩⟩

namespace WellFormed

variable {p : Procedure} {region : Option Nat} {r u v : Nat}

/-- Every block stands for itself. -/
theorem standsFor_self (hp : p.WellFormed) (region : Option Nat) (r : Nat) :
    p.StandsFor region r r := by
  cases hh : p.headerOf? r with
  | none => exact .inl ⟨rfl, .inl hh⟩
  | some l =>
    by_cases hl : some l = region
    · exact .inl ⟨rfl, .inr (hh.trans hl)⟩
    · obtain ⟨loop, hloop, rfl⟩ := hp.headerOf_iff.mp hh
      exact .inr ⟨l, loop, hh, hl, hloop, hp.header_mem hloop⟩

theorem inside_of_mem_order (hp : p.WellFormed) (hr : r ∈ p.orderOf region) : p.Inside region r :=
  hp.inside hr (hp.standsFor_self region r)

theorem sink_inside (hp : p.WellFormed) {l : Nat} {loop : Loop} (hl : p.loops[l]? = some loop) :
    p.Inside (some l) loop.sink := by
  apply hp.inside_of_mem_order
  rw [orderOf_loop hl]
  exact (hp.sink_mem hl).1

/-- The header and the sink of a loop are blocks of it. -/
theorem end_mem (hp : p.WellFormed) {l u : Nat} {loop : Loop} (hl : p.loops[l]? = some loop)
    (hu : u = loop.header ∨ u = loop.sink) : u ∈ loop.blocks := by
  rcases hu with rfl | rfl
  · exact hp.header_mem hl
  · exact (inside_loop hl).mp (hp.sink_inside hl)

/-- A header lies in no loop that is in its own loop. -/
theorem eq_of_header_mem (hp : p.WellFormed) {l m : Nat} {loop inner : Loop}
    (hl : p.loops[l]? = some loop) (hm : p.loops[m]? = some inner)
    (hin : p.Inside (some l) inner.header) (hmem : loop.header ∈ inner.blocks) : m = l := by
  by_contra hne
  have hh : p.headerOf? inner.header = some m := hp.headerOf_iff.mpr ⟨inner, hm, rfl⟩
  have hfirst : loop.header ∈ p.orderOf (some l) := by
    rw [orderOf_loop hl]
    exact List.mem_of_mem_head? (hp.head_loop hl)
  -- the header of a child stands for the inner loop, so also for the header of the outer one
  obtain ⟨r, hr, hstands⟩ := hp.exists_standsFor hin
  rcases hstands with ⟨rfl, hnone | hsame⟩ | ⟨k, child, hk, hkl, hchild, hmem'⟩
  · rw [hh] at hnone
    cases hnone
  · exact hne (Option.some.inj (hh.symm.trans hsame))
  · have hheader := (inside_loop hchild).mp (hp.nested hm ((inside_loop hchild).mpr hmem') hmem)
    obtain rfl := hp.standsFor_unique hr hfirst (.inr ⟨k, child, hk, hkl, hchild, hheader⟩)
      (hp.standsFor_self _ _)
    exact hkl (hk.symm.trans (hp.headerOf_iff.mpr ⟨loop, hl, rfl⟩))

/-- The order of the whole body lists the headers of loops only. -/
theorem eq_header_of_mem_order (hp : p.WellFormed) {l : Nat} {loop : Loop}
    (hl : p.loops[l]? = some loop) (hr : r ∈ p.orderOf none) (hmem : r ∈ loop.blocks) :
    r = loop.header := by
  have hh : p.headerOf? loop.header = some l := hp.headerOf_iff.mpr ⟨loop, hl, rfl⟩
  have hin : p.Inside none loop.header := by
    obtain ⟨block, hblock, -⟩ := Option.bind_eq_some_iff.mp hh
    exact (List.getElem?_eq_some_iff.mp hblock).1
  obtain ⟨s, hs, hstands⟩ := hp.exists_standsFor hin
  rcases hstands with ⟨rfl, hnone | hnone⟩ | ⟨k, outer, hk, hne, houter, hmem'⟩
  · rw [hh] at hnone
    cases hnone
  · rw [hh] at hnone
    cases hnone
  · have hmem'' := (inside_loop houter).mp (hp.nested hl ((inside_loop houter).mpr hmem') hmem)
    have hrs : r = s := hp.standsFor_unique hr hs (hp.standsFor_self none r)
      (.inr ⟨k, outer, hk, hne, houter, hmem''⟩)
    obtain ⟨outer', houter', rfl⟩ := hp.headerOf_iff.mp hk
    obtain rfl := Option.some.inj (houter.symm.trans houter')
    obtain rfl := hp.eq_of_header_mem houter hl ⟨outer, houter, hmem'⟩ (hrs ▸ hmem)
    obtain rfl := Option.some.inj (hl.symm.trans houter)
    exact hrs

theorem left_at_ends (hp : p.WellFormed) (hexits : p.ExitsAtEnds) {l b : Nat} {loop : Loop}
    (hl : p.loops[l]? = some loop) (hb : b ∈ loop.blocks) (hleft : p.LeftAt loop b) :
    b = loop.header ∨ b = loop.sink := by
  rcases hleft with ⟨v, hedge, hv⟩ | hsink
  · exact hexits hl hb hedge hv
  · exact .inl (hp.eq_header_of_mem_order hl (hp.sinks_mem hsink) hb)

/-- An edge between blocks that different blocks of an order stand for ends at the latter of them,
which is not the first of the order. -/
theorem enters_at (hp : p.WellFormed) {s : Nat} (hr : r ∈ p.orderOf region)
    (hs : s ∈ p.orderOf region) (hu : p.StandsFor region r u) (hv : p.StandsFor region s v)
    (hne : ¬ p.StandsFor region r v) (he : p.Edge u v) :
    v = s ∧ ∃ pre post, pre ≠ [] ∧ p.orderOf region = pre ++ s :: post := by
  have hvs : v = s := by
    rcases hv with ⟨rfl, -⟩ | ⟨l, loop, hh, hl, hloop, hmem⟩
    · rfl
    · obtain ⟨loop', hloop', rfl⟩ := hp.headerOf_iff.mp hh
      obtain rfl : loop = loop' := Option.some.inj (hloop.symm.trans hloop')
      by_contra hvh
      -- otherwise the edge starts in the inner loop, too
      have hul : p.StandsFor region loop.header u :=
        .inr ⟨l, loop, hh, hl, hloop, hp.entered hloop hmem hvh he⟩
      obtain rfl := hp.standsFor_unique hr hs hu hul
      exact hne (.inr ⟨l, loop, hh, hl, hloop, hmem⟩)
  refine ⟨hvs, ?_⟩
  obtain ⟨pre, post, ho⟩ := List.append_of_mem hs
  refine ⟨pre, post, ?_, ho⟩
  rintro rfl
  exact hp.not_inside_of_edge_head (by rw [ho]; rfl) (hvs ▸ he) (hp.inside hr hu)

end WellFormed

end Procedure

/-! ### Built procedures -/

namespace Draft

variable {d : Draft} {all : List Nat} {p : Procedure} {region : Option Nat} {b r u v : Nat}

namespace Built

theorem block_eq_some (hb : d.Built all p) {block : Block} :
    p.blocks[b]? = some block ↔ ∃ is, d.blocks[b]? = some is ∧ d.blockOf b is = block := by
  rw [hb.blocks, Option.map_eq_some_iff]

theorem loop_eq_some (hb : d.Built all p) {i : Nat} {loop : Loop} :
    p.loops[i]? = some loop ↔ ∃ l, d.loops[i]? = some l ∧ d.loopOf all l i = loop := by
  rw [hb.loops, Option.map_eq_some_iff]

theorem lt_iff (hb : d.Built all p) : b < p.blocks.length ↔ b < d.blocks.length := by
  rw [← Nat.not_le, ← Nat.not_le, ← List.getElem?_eq_none_iff, ← List.getElem?_eq_none_iff,
    hb.blocks, Option.map_eq_none_iff]

theorem headerOf? (hb : d.Built all p) : p.headerOf? b = d.headerOf b := by
  rw [Procedure.headerOf?, hb.blocks]
  cases hd : d.blocks[b]? with
  | some is => rfl
  | none =>
    -- headers are blocks
    cases hh : d.headerOf b with
    | none => rfl
    | some i =>
      obtain ⟨l, hl, rfl⟩ := hb.headerOf_eq_some.mp hh
      have := hb.blocks_lt i l hl _ (header_mem_blocks l)
      rw [List.getElem?_eq_none_iff] at hd
      omega

/-- A built procedure has the edges of its draft. -/
theorem edge_iff (hb : d.Built all p) : p.Edge u v ↔ u ∈ d.preds v := by
  rw [mem_preds, ← mem_succs]
  constructor
  · rintro ⟨block, hblock, hv⟩
    obtain ⟨is, -, rfl⟩ := hb.block_eq_some.mp hblock
    exact hv
  · intro hv
    have hu := (hb.edges_lt _ (mem_succs.mp hv)).1
    exact ⟨_, hb.block_eq_some.mpr ⟨_, List.getElem?_eq_getElem hu, rfl⟩, hv⟩

/-- Regions have the same blocks in a built procedure as in its draft. -/
theorem inside_iff (hb : d.Built all p) : p.Inside region u ↔ d.Inside region u := by
  cases region with
  | none => exact hb.lt_iff
  | some i =>
    constructor
    · rintro ⟨loop, hloop, hu⟩
      obtain ⟨l, hl, rfl⟩ := hb.loop_eq_some.mp hloop
      exact ⟨l, hl, hu⟩
    · rintro ⟨l, hl, hu⟩
      exact ⟨_, hb.loop_eq_some.mpr ⟨l, hl, rfl⟩, hu⟩

/-- Blocks stand for the same ones in a built procedure as in its draft. -/
theorem standsFor_iff (hb : d.Built all p) :
    p.StandsFor region r u ↔ d.StandsFor region r u := by
  rw [Procedure.StandsFor, StandsFor, hb.headerOf?]
  refine or_congr_right ⟨?_, ?_⟩
  · rintro ⟨i, loop, hh, hne, hloop, hu⟩
    obtain ⟨l, hl, rfl⟩ := hb.loop_eq_some.mp hloop
    exact ⟨i, l, hh, hne, hl, hu⟩
  · rintro ⟨i, l, hh, hne, hl, hu⟩
    exact ⟨i, _, hh, hne, hb.loop_eq_some.mpr ⟨l, hl, rfl⟩, hu⟩

/-- Regions have the same order in a built procedure as in its draft. -/
theorem orderOf (hb : d.Built all p) : p.orderOf region = d.regionOrder all region := by
  cases region with
  | none => exact hb.order
  | some i =>
    rw [Procedure.orderOf, hb.loops]
    cases hl : d.loops[i]? with
    | some l => rfl
    | none => simp [regionOrder, ranks, nest_getElem?, hl]

/-- Whatever is first in the order of a region, no edge of the region leads there. -/
theorem not_inside_of_edge_head (hb : d.Built all p) {h : Nat}
    (hh : (d.regionOrder all region).head? = some h) (hu : u ∈ d.preds h) :
    ¬ d.Inside region u := by
  intro hin
  obtain ⟨s, hs, -, hle⟩ := hb.exists_standsFor hin
  have h₁ := hb.idxOf_head_le hh hs
  have h₂ := hb.arranged.idxOf_lt u h (List.mem_filter.mp (List.mem_of_mem_head? hh)).1 hu
  omega

/-- Procedures that are built are well-formed. -/
theorem wellFormed (hb : d.Built all p) : p.WellFormed where
  edge_iff := by
    intro u v
    rw [hb.edge_iff]
    constructor
    · intro hu
      have hv := (hb.edges_lt _ (mem_preds.mp hu)).2
      exact ⟨_, hb.block_eq_some.mpr ⟨_, List.getElem?_eq_getElem hv, rfl⟩, hu⟩
    · rintro ⟨block, hblock, hu⟩
      obtain ⟨is, -, rfl⟩ := hb.block_eq_some.mp hblock
      exact hu
  not_edge_self := by
    intro u he
    have hu := hb.edge_iff.mp he
    have := hb.arranged.idxOf_lt u u ((hb.arranged.mem_iff u).mpr (hb.pred_lt hu)) hu
    omega
  headerOf_iff := by
    intro b i
    rw [hb.headerOf?, hb.headerOf_eq_some]
    constructor
    · rintro ⟨l, hl, rfl⟩
      exact ⟨_, hb.loop_eq_some.mpr ⟨l, hl, rfl⟩, rfl⟩
    · rintro ⟨loop, hloop, rfl⟩
      obtain ⟨l, hl, rfl⟩ := hb.loop_eq_some.mp hloop
      exact ⟨l, hl, rfl⟩
  header_mem := by
    intro i loop hloop
    obtain ⟨l, -, rfl⟩ := hb.loop_eq_some.mp hloop
    exact header_mem_blocks l
  head_order := by
    rw [hb.order]
    exact hb.head_order_none
  head_loop := by
    intro i loop hloop
    obtain ⟨l, hl, rfl⟩ := hb.loop_eq_some.mp hloop
    exact hb.header_first i l hl
  nodup := by
    intro region
    rw [hb.orderOf]
    exact hb.arranged.nodup.filter _
  inside := by
    intro region r u hr hu
    rw [hb.orderOf] at hr
    rw [hb.standsFor_iff] at hu
    exact hb.inside_iff.mpr (hb.inside_of_standsFor hr hu)
  exists_standsFor := by
    intro region u hu
    obtain ⟨r, hr, hstand, -⟩ := hb.exists_standsFor (hb.inside_iff.mp hu)
    exact ⟨r, hb.orderOf ▸ hr, hb.standsFor_iff.mpr hstand⟩
  nested := by
    intro i loop region u hloop hh hu
    obtain ⟨l, hl, rfl⟩ := hb.loop_eq_some.mp hloop
    exact hb.inside_iff.mpr (hb.inside_of_header hl (hb.inside_iff.mp hh) hu)
  standsFor_unique := by
    intro region r s u hr hs hru hsu
    rw [hb.orderOf] at hr hs
    exact hb.standsFor_unique hr hs (hb.standsFor_iff.mp hru) (hb.standsFor_iff.mp hsu)
  earlier := by
    intro region pre v post u ho hpre he
    rw [hb.orderOf] at ho
    obtain ⟨r, hr, hstand⟩ := hb.earlier ho hpre (hb.edge_iff.mp he)
    exact ⟨r, hr, hb.standsFor_iff.mpr hstand⟩
  not_inside_of_edge_head := by
    intro region h u hh he hin
    rw [hb.orderOf] at hh
    exact hb.not_inside_of_edge_head hh (hb.edge_iff.mp he) (hb.inside_iff.mp hin)
  entered := by
    intro i loop u v hloop hv hne he
    obtain ⟨l, hl, rfl⟩ := hb.loop_eq_some.mp hloop
    exact hb.entered i l hl v hv hne u (hb.edge_iff.mp he)
  sink_mem := by
    intro i loop hloop
    obtain ⟨l, hl, rfl⟩ := hb.loop_eq_some.mp hloop
    simp only [hb.headerOf?]
    exact hb.sink_mem_order hl
  sinks_mem := by
    intro b hmem
    rw [hb.sinks] at hmem
    exact (List.mem_filter.mp hmem).1

end Built

theorem wellFormed_of_build (h : d.build = .ok p) : p.WellFormed := by
  obtain ⟨all, hb⟩ := build_eq_ok h
  exact hb.wellFormed

end Draft

namespace Program

def Accepted (program : Program) : Prop :=
  ∃ (drafts : List Draft) (procedures : List Procedure), drafts.mapM Draft.build = .ok procedures ∧
    ofProcedures procedures = .ok program

/-- Every procedure of an accepted program has been built from a draft. -/
theorem Accepted.exists_draft {program : Program} (h : program.Accepted) {q : Nat} {p : Procedure}
    (hp : program.procedures[q]? = some p) : ∃ d : Draft, d.build = .ok p := by
  obtain ⟨drafts, procedures, hdrafts, hprogram⟩ := h
  rw [ofProcedures] at hprogram
  obtain ⟨⟨⟩, -, hprogram⟩ := bind_eq_ok.mp hprogram
  obtain ⟨⟨⟩, -, hprogram⟩ := bind_eq_ok.mp hprogram
  rw [pure_eq_ok] at hprogram
  obtain rfl := hprogram
  rcases mapM_getElem? hdrafts q with ⟨hnone, -⟩ | ⟨d, p', -, hp', hbuild⟩
  · rw [hnone] at hp
    cases hp
  · obtain rfl : p = p' := Option.some.inj (hp.symm.trans hp')
    exact ⟨d, hbuild⟩

theorem Accepted.wellFormed {program : Program} (h : program.Accepted) {q : Nat} {p : Procedure}
    (hp : program.procedures[q]? = some p) : p.WellFormed := by
  obtain ⟨d, hbuild⟩ := h.exists_draft hp
  exact Draft.wellFormed_of_build hbuild

end Program

end CycleBounds.Code
