import CycleBounds.Cache.Classification
import CycleBounds.Proofs.Code.Calls
import CycleBounds.Proofs.Code.Shape
import Mathlib.Data.Set.Insert

/-!
# The places of a program

A *place* is a block of a procedure in a context. Those that matter from an entry are given by the
program alone: the procedure is the entry or is called on the way, no loop around the block is
passed over, and the context tells an iteration for each of these loops.

* `Procedure.Runs`: no loop around a block is passed over.
* `Program.Included`: the procedures that are called on the way from an entry.
* `Run.places`: the places from an entry. `Run.places_eq` takes them apart by the blocks of the
  entry procedure and by what these call.
* `Procedure.Live`: a context that fits a region. `Live.block` and `Live.inner` say that contexts
  fit the blocks and the inner loops that are followed in the order of a region.
* `Run.placesFor`: what a block of an order adds to its region. `Run.mem_placesIn` puts a region
  together from its order.
-/

namespace CycleBounds

/-! ### Contexts -/

namespace Context

variable {c context : Context} {it : Iteration}

/-- A context tells the iterations that another one tells, and those of further loops in it. -/
def Refines (c context : Context) : Prop :=
  ∃ its : List Iteration, c = its.foldl nest context

theorem Refines.refl (context : Context) : context.Refines context :=
  ⟨[], rfl⟩

/-- Every iteration makes a context deeper by one. -/
theorem depth_foldl_nest (its : List Iteration) (context : Context) :
    (its.foldl nest context).depth = context.depth + its.length := by
  induction its generalizing context with
  | nil => rfl
  | cons it its ih =>
    rw [List.foldl_cons, ih, List.length_cons]
    show context.depth + 1 + its.length = _
    omega

theorem Refines.eq_of_depth (h : c.Refines context) (hdepth : c.depth = context.depth) :
    c = context := by
  obtain ⟨its, rfl⟩ := h
  rw [depth_foldl_nest] at hdepth
  obtain rfl : its = [] := List.eq_nil_of_length_eq_zero (by omega)
  rfl

/-- A deeper context tells an iteration of one loop more. -/
theorem Refines.exists_nest (h : c.Refines context) (hdepth : context.depth < c.depth) :
    ∃ it, c.Refines (context.nest it) := by
  obtain ⟨its, rfl⟩ := h
  cases its with
  | nil => exact absurd hdepth (Nat.lt_irrefl _)
  | cons it its => exact ⟨it, its, rfl⟩

theorem Refines.of_nest (h : c.Refines (context.nest it)) : c.Refines context := by
  obtain ⟨its, rfl⟩ := h
  exact ⟨it :: its, rfl⟩

/-- Every context refines the outermost one. -/
theorem refines_root (c : Context) : c.Refines root := by
  -- by induction on the depth, that is, on the number of binary digits
  obtain ⟨depth, index, hlt⟩ := c
  induction depth generalizing index with
  | zero =>
    obtain rfl : index = 0 := by
      rw [twoPow_zero] at hlt
      omega
    exact ⟨[], rfl⟩
  | succ depth ih =>
    -- the last digit is the iteration of the innermost loop
    have hhalf : index / 2 < twoPow depth := by
      rw [twoPow_succ] at hlt
      omega
    obtain ⟨its, hits⟩ := ih (index / 2) hhalf
    refine ⟨its ++ [.ofDigit (index % 2)], ?_⟩
    have hdigit : (Iteration.ofDigit (index % 2)).digit = index % 2 := by
      rcases Nat.mod_two_eq_zero_or_one index with h | h <;> rw [h] <;> rfl
    rw [List.foldl_append, ← hits, List.foldl_cons, List.foldl_nil, nest, Context.mk.injEq, hdigit]
    exact ⟨rfl, by show index = index / 2 * 2 + index % 2; omega⟩

end Context

namespace Code

/-! ### Blocks that run -/

/-- A block exists, and no loop around it is passed over. -/
def Procedure.Runs (p : Procedure) (b : Nat) : Prop :=
  b < p.blocks.length ∧ ∀ loop ∈ p.loops, loop.bound = 0 → b ∉ loop.blocks

/-- The context fits a region: it tells one iteration for each of the loops around it, the region
included, and none of them is passed over. -/
def Procedure.Live (p : Procedure) : (region : Option Nat) → Context → Prop
  | none, context => context.depth = 0
  | some l, context => ∃ loop, p.loops[l]? = some loop ∧ p.Runs loop.header ∧
      context.depth = loop.level + 1

namespace Procedure

variable {p : Procedure} {region : Option Nat} {context : Context} {b r l : Nat} {loop : Loop}

/-- The depth of a block is one more than the level of its innermost loop. -/
theorem depth_eq_ok {n : Nat} : p.depth b = .ok n ↔ ∃ block, p.blocks[b]? = some block ∧
    match block.innermost with
    | none => n = 0
    | some l => ∃ loop, p.loops[l]? = some loop ∧ n = loop.level + 1 := by
  rw [depth, bind_eq_ok]
  refine exists_congr fun block => and_congr entryAt_eq_ok ?_
  cases block.innermost with
  | none => exact pure_eq_ok.trans eq_comm
  | some l =>
    refine bind_eq_ok.trans (exists_congr fun loop => and_congr entryAt_eq_ok ?_)
    exact pure_eq_ok.trans eq_comm

/-- Every block of a shaped procedure has a depth. -/
theorem Shaped.exists_depth (hs : p.Shaped) (hb : b < p.blocks.length) :
    ∃ n, p.depth b = .ok n := by
  have hblock := List.getElem?_eq_getElem hb
  have hsmallest := hs.innermost hblock
  cases hinn : p.blocks[b].innermost with
  | none => exact ⟨0, depth_eq_ok.mpr ⟨_, hblock, by rw [hinn]⟩⟩
  | some l =>
    rw [hinn] at hsmallest
    obtain ⟨loop, hl, -⟩ := hsmallest
    exact ⟨loop.level + 1, depth_eq_ok.mpr ⟨_, hblock, by rw [hinn]; exact ⟨loop, hl, rfl⟩⟩⟩

/-- A block lies deeper than the loops around it. -/
theorem Shaped.level_lt_depth (hs : p.Shaped) (hl : p.loops[l]? = some loop) (hb : b ∈ loop.blocks)
    {n : Nat} (hn : p.depth b = .ok n) : loop.level < n := by
  obtain ⟨block, hblock, hdepth⟩ := depth_eq_ok.mp hn
  have hmem := List.mem_of_getElem? hl
  have hsmallest := hs.innermost hblock
  cases hinn : block.innermost with
  | none =>
    rw [hinn] at hsmallest
    exact absurd hb (hsmallest loop hmem)
  | some k =>
    rw [hinn] at hsmallest hdepth
    obtain ⟨inner, hk, -, hleast⟩ := hsmallest
    obtain ⟨inner', hk', rfl⟩ := hdepth
    obtain rfl := Option.some.inj (hk.symm.trans hk')
    rcases hleast l loop hl hb with rfl | hin
    · obtain rfl := Option.some.inj (hl.symm.trans hk)
      exact Nat.lt_succ_self _
    · exact Nat.lt_succ_of_le (hs.level_le (List.mem_of_getElem? hk) hmem hin)

/-- The inner loops that are listed in the order of a region are its children. -/
theorem Shaped.parent_of_mem_order (hs : p.Shaped) (hp : p.WellFormed)
    (hr : loop.header ∈ p.orderOf region) (hl : p.loops[l]? = some loop) (hne : some l ≠ region) :
    loop.parent = region := by
  rcases hs.mem_order_iff.mp hr with ⟨block, hblock, hinn⟩ | ⟨child, hchild, hparent, hheader⟩
  · -- the innermost region around a header is its own loop
    have hmem := hp.header_mem hl
    have hsmallest := hs.innermost hblock
    rw [hinn] at hsmallest
    cases region with
    | none => exact absurd hmem (hsmallest loop (List.mem_of_getElem? hl))
    | some k =>
      obtain ⟨inner, hk, hmem', hleast⟩ := hsmallest
      have hin := (hleast l loop hl hmem).resolve_left fun h => hne (h ▸ rfl)
      have hinside : p.Inside (some l) inner.header := ⟨loop, hl, hin.1 (hp.header_mem hk)⟩
      exact absurd (congrArg some (hp.eq_of_header_mem hl hk hinside hmem')).symm hne
  · obtain ⟨k, hk⟩ := List.getElem?_of_mem hchild
    have hl' := hp.headerOf_iff.mpr ⟨loop, hl, rfl⟩
    have hk' := hp.headerOf_iff.mpr ⟨child, hk, hheader⟩
    obtain rfl := Option.some.inj (hl'.symm.trans hk')
    obtain rfl := Option.some.inj (hl.symm.trans hk)
    exact hparent

/-- A block that stands for itself in the order of a region belongs to no smaller region. -/
theorem Shaped.innermost_of_mem_order (hs : p.Shaped) (hp : p.WellFormed)
    (hr : r ∈ p.orderOf region) (hself : p.headerOf? r = none ∨ p.headerOf? r = region) :
    ∃ block, p.blocks[r]? = some block ∧ block.innermost = region := by
  rcases hs.mem_order_iff.mp hr with hown | ⟨child, hchild, hparent, rfl⟩
  · exact hown
  · obtain ⟨k, hk⟩ := List.getElem?_of_mem hchild
    have hheader := hp.headerOf_iff.mpr ⟨child, hk, rfl⟩
    rcases hself with hnone | hsame
    · rw [hheader] at hnone
      cases hnone
    · -- a loop is not its own child
      have hsmallest := hs.parent child hchild
      rw [hparent, ← hsame, hheader] at hsmallest
      obtain ⟨other, hother, hin, -⟩ := hsmallest
      obtain rfl := Option.some.inj (hk.symm.trans hother)
      exact absurd hin (Loop.StrictlyIn.irrefl child)

theorem live_root : p.Live none .root := rfl

/-- The blocks of a region run, and the context of the region tells all loops around them. -/
theorem Live.block (hlive : p.Live region context) (hs : p.Shaped) (hp : p.WellFormed)
    (hr : r ∈ p.orderOf region) (hself : p.headerOf? r = none ∨ p.headerOf? r = region) :
    p.Runs r ∧ p.depth r = .ok context.depth := by
  obtain ⟨block, hblock, hinn⟩ := hs.innermost_of_mem_order hp hr hself
  have hlt : r < p.blocks.length := (List.getElem?_eq_some_iff.mp hblock).1
  have hsmallest := hs.innermost hblock
  rw [hinn] at hsmallest
  rw [depth_eq_ok]
  cases region with
  | none =>
    refine ⟨⟨hlt, fun loop hmem _ => hsmallest loop hmem⟩, block, hblock, ?_⟩
    rw [hinn]
    exact hlive
  | some l =>
    obtain ⟨loop, hl, hruns, hdepth⟩ := hlive
    obtain ⟨loop', hl', -, hleast⟩ := hsmallest
    obtain rfl := Option.some.inj (hl.symm.trans hl')
    refine ⟨⟨hlt, fun outer houter hzero hmem => ?_⟩, block, hblock, ?_⟩
    · -- whatever loop is around the block is around the header of the region
      apply hruns.2 outer houter hzero
      obtain ⟨m, hm⟩ := List.getElem?_of_mem houter
      rcases hleast m outer hm hmem with rfl | hin
      · obtain rfl := Option.some.inj (hl.symm.trans hm)
        exact hp.header_mem hl
      · exact hin.1 (hp.header_mem hl)
    · rw [hinn]
      exact ⟨loop, hl, hdepth⟩

/-- An inner loop that is not passed over runs in both kinds of iterations. -/
theorem Live.inner (hlive : p.Live region context) (hs : p.Shaped) (hp : p.WellFormed)
    (hr : r ∈ p.orderOf region) (hh : p.headerOf? r = some l) (hne : some l ≠ region)
    (hl : p.loops[l]? = some loop) (hbound : 0 < loop.bound) (it : Iteration) :
    p.Live (some l) (context.nest it) := by
  have hlt : r < p.blocks.length := by
    obtain ⟨block, hblock, -⟩ := Option.bind_eq_some_iff.mp hh
    exact (List.getElem?_eq_some_iff.mp hblock).1
  obtain ⟨loop', hl', rfl⟩ := hp.headerOf_iff.mp hh
  obtain rfl := Option.some.inj (hl.symm.trans hl')
  have hmem := List.mem_of_getElem? hl
  have hparent := hs.parent_of_mem_order hp hr hl hne
  have hsmallest := hs.parent loop hmem
  rw [hparent] at hsmallest
  refine ⟨loop, hl, ⟨hlt, fun outer houter hzero hin => ?_⟩, ?_⟩
  · obtain ⟨m, hm⟩ := List.getElem?_of_mem houter
    by_cases hml : m = l
    · subst hml
      obtain rfl := Option.some.inj (hl.symm.trans hm)
      omega
    -- another loop of bound zero around the header: apart from this one, around it or within it
    rcases hs.nested hl hm (Ne.symm hml) with hapart | hstrict | hstrict
    · exact hapart (hp.header_mem hl) hin
    · -- a loop around this one is around the region or the region itself
      cases region with
      | none => exact hsmallest outer houter hstrict
      | some k =>
        obtain ⟨parent, hk, hruns, -⟩ := hlive
        obtain ⟨parent', hk', -, hleast⟩ := hsmallest
        obtain rfl := Option.some.inj (hk.symm.trans hk')
        apply hruns.2 outer houter hzero
        rcases hleast m outer hm hstrict with rfl | hin'
        · obtain rfl := Option.some.inj (hk.symm.trans hm)
          exact hp.header_mem hk
        · exact hin'.1 (hp.header_mem hk)
    · exact hml (hp.eq_of_header_mem hl hm ⟨loop, hl, hstrict.1 (hp.header_mem hm)⟩ hin)
  · show context.depth + 1 = loop.level + 1
    cases region with
    | none =>
      have hzero : context.depth = 0 := hlive
      rw [hs.level_of_outermost hmem hparent, hzero]
    | some k =>
      obtain ⟨parent, hk, -, hdepth⟩ := hlive
      rw [hs.level_of_parent hmem hk hparent, hdepth]

end Procedure

/-! ### Procedures that are included -/

/-- A procedure calls another in a block that runs. -/
def Program.Calls (program : Program) (q c : Nat) : Prop :=
  ∃ p b block i, program.procedures[q]? = some p ∧ p.Runs b ∧ p.blocks[b]? = some block ∧
    i ∈ block.instructions ∧ i.callee = some c

/-- The procedures that are called on the way from an entry. -/
inductive Program.Included (program : Program) (entry : Nat) : Nat → Prop
  | entry : program.Included entry entry
  | call {q c : Nat} : program.Included entry q → program.Calls q c → program.Included entry c

namespace Program.Included

variable {program : Program} {entry q c : Nat}

theorem trans (h : program.Included entry q) (h' : program.Included q c) :
    program.Included entry c := by
  induction h' with
  | entry => exact h
  | call _ hcalls ih => exact .call ih hcalls

/-- What is included is the entry or included from something that the entry calls. -/
theorem cases_head (h : program.Included entry q) :
    q = entry ∨ ∃ c, program.Calls entry c ∧ program.Included c q := by
  induction h with
  | entry => exact .inl rfl
  | call _ hcalls ih =>
    rcases ih with rfl | ⟨c, hfirst, hrest⟩
    · exact .inr ⟨_, hcalls, .entry⟩
    · exact .inr ⟨c, hfirst, .call hrest hcalls⟩

end Program.Included

end Code

/-! ### Places -/

namespace Run

open Code (Program Procedure Loop)
open Cache (Place)

/-- The places from an entry: the blocks that run of the procedures that are included, in all
contexts of their depth. -/
def places (program : Program) (entry : Nat) : Set Place :=
  {place | program.Included entry place.procedure ∧ ∃ p,
    program.procedures[place.procedure]? = some p ∧ p.Runs place.block ∧
    p.depth place.block = .ok place.context.depth}

/-- A block and what it calls. -/
def placesAt (program : Program) (p : Procedure) (b : Nat) (context : Context) : Set Place :=
  {place | place = ⟨p.id, b, context⟩ ∨ ∃ block i c, p.blocks[b]? = some block ∧
    i ∈ block.instructions ∧ i.callee = some c ∧ place ∈ places program c}

/-- A block of a region runs in a context below the one of the region. -/
structure Visited (p : Procedure) (region : Option Nat) (context : Context) (b : Nat)
    (c : Context) : Prop where
  inside : p.Inside region b
  runs : p.Runs b
  depth : p.depth b = .ok c.depth
  refines : c.Refines context

/-- The blocks of a region and what they call. -/
def placesIn (program : Program) (p : Procedure) (region : Option Nat) (context : Context) :
    Set Place :=
  {place | ∃ b c, Visited p region context b c ∧ place ∈ placesAt program p b c}

variable {program : Program} {p : Procedure} {region : Option Nat} {context c : Context}
  {b r l : Nat} {loop : Loop}

/-- The places from an entry are those of its whole body. -/
theorem places_eq (hprogram : program.Accepted) {q : Nat} (hq : program.procedures[q]? = some p) :
    places program q = placesIn program p none .root := by
  have hid := hprogram.id_eq hq
  have hs := hprogram.shaped hq
  ext place
  constructor
  · rintro ⟨hincluded, p', hp', hruns, hdepth⟩
    -- the place is in the entry itself, or in what one of its calls leads to
    rcases hincluded.cases_head with heq | ⟨c, ⟨p'', b, block, i, hq', hb, hblock, hi, hc⟩, hrest⟩
    · rw [heq] at hp'
      obtain rfl := Option.some.inj (hq.symm.trans hp')
      refine ⟨place.block, place.context, ⟨hruns.1, hruns, hdepth, Context.refines_root _⟩, ?_⟩
      exact .inl (by rw [hid, ← heq])
    · obtain rfl := Option.some.inj (hq.symm.trans hq')
      -- any context of the right depth will do
      obtain ⟨n, hn⟩ := hs.exists_depth hb.1
      refine ⟨b, ⟨n, 0, twoPow_pos n⟩, ⟨hb.1, hb, hn, Context.refines_root _⟩, ?_⟩
      exact .inr ⟨block, i, c, hblock, hi, hc, hrest, p', hp', hruns, hdepth⟩
  · rintro ⟨b, c, ⟨-, hruns, hdepth, -⟩, rfl | ⟨block, i, x, hblock, hi, hx, hincluded, hplace⟩⟩
    · refine ⟨?_, p, ?_, hruns, hdepth⟩
      · show program.Included q p.id
        rw [hid]
        exact .entry
      · show program.procedures[p.id]? = some p
        rw [hid, hq]
    · have hcalls : program.Calls q x := ⟨p, b, block, i, hq, hruns, hblock, hi, hx⟩
      exact ⟨(Program.Included.entry.call hcalls).trans hincluded, hplace⟩

/-- What a block that stands for itself adds to a region: itself, in the context of the region. -/
theorem visited_block (hlive : p.Live region context) (hs : p.Shaped) (hp : p.WellFormed)
    (hr : r ∈ p.orderOf region) (hself : p.headerOf? r = none ∨ p.headerOf? r = region) :
    Visited p region context r c ↔ c = context := by
  obtain ⟨hruns, hdepth⟩ := hlive.block hs hp hr hself
  constructor
  · intro h
    exact h.refines.eq_of_depth (Except.ok.inj (h.depth.symm.trans hdepth))
  · rintro rfl
    exact ⟨hp.inside_of_mem_order hr, hruns, hdepth, .refl _⟩

/-- What an inner loop adds to a region: its blocks in both kinds of iterations, unless it is passed
over. -/
theorem visited_inner (hlive : p.Live region context) (hs : p.Shaped) (hp : p.WellFormed)
    (hr : r ∈ p.orderOf region) (hh : p.headerOf? r = some l) (hne : some l ≠ region)
    (hl : p.loops[l]? = some loop) (hb : b ∈ loop.blocks) :
    Visited p region context b c ↔
      0 < loop.bound ∧ ∃ it, Visited p (some l) (context.nest it) b c := by
  constructor
  · intro h
    have hbound : 0 < loop.bound :=
      Nat.pos_of_ne_zero fun hzero => h.runs.2 loop (List.mem_of_getElem? hl) hzero hb
    obtain ⟨loop', hl', -, hdepth⟩ := hlive.inner hs hp hr hh hne hl hbound .first
    obtain rfl := Option.some.inj (hl.symm.trans hl')
    -- the block lies deeper than the region, so its context tells the iteration of this loop
    have hlevel := hs.level_lt_depth hl hb h.depth
    have hdeeper : context.depth < c.depth := by
      have : context.depth + 1 = loop.level + 1 := hdepth
      omega
    obtain ⟨it, hit⟩ := h.refines.exists_nest hdeeper
    exact ⟨hbound, it, ⟨loop, hl, hb⟩, h.runs, h.depth, hit⟩
  · rintro ⟨-, it, h⟩
    refine ⟨?_, h.runs, h.depth, h.refines.of_nest⟩
    exact hp.inside hr ((Procedure.standsFor_header hh hne hl).mpr hb)

/-- What the blocks that a block of an order stands for add to a region. -/
def placesFor (program : Program) (p : Procedure) (region : Option Nat) (context : Context)
    (r : Nat) : Set Place :=
  {place | ∃ b c, p.StandsFor region r b ∧ Visited p region context b c ∧
    place ∈ placesAt program p b c}

/-- The places of a block that stands for itself are its own. -/
theorem mem_placesFor_block (hlive : p.Live region context) (hs : p.Shaped) (hp : p.WellFormed)
    (hr : r ∈ p.orderOf region) (hself : p.headerOf? r = none ∨ p.headerOf? r = region)
    {place : Place} :
    place ∈ placesFor program p region context r ↔ place ∈ placesAt program p r context := by
  constructor
  · rintro ⟨b, c, hstands, hvisited, hmem⟩
    obtain rfl := hstands.eq_self hself
    obtain rfl := (visited_block hlive hs hp hr hself).mp hvisited
    exact hmem
  · intro hmem
    have hvisited := (visited_block hlive hs hp hr hself).mpr rfl
    exact ⟨r, context, hp.standsFor_self region r, hvisited, hmem⟩

/-- The places of the header of an inner loop are those of the loop, if it runs at all. -/
theorem mem_placesFor_inner (hlive : p.Live region context) (hs : p.Shaped) (hp : p.WellFormed)
    (hr : r ∈ p.orderOf region) (hh : p.headerOf? r = some l) (hne : some l ≠ region)
    (hl : p.loops[l]? = some loop) {place : Place} :
    place ∈ placesFor program p region context r ↔
      0 < loop.bound ∧ ∃ it, place ∈ placesIn program p (some l) (context.nest it) := by
  constructor
  · rintro ⟨b, c, hstands, hvisited, hmem⟩
    have hb := (Procedure.standsFor_header hh hne hl).mp hstands
    obtain ⟨hbound, it, hinside⟩ := (visited_inner hlive hs hp hr hh hne hl hb).mp hvisited
    exact ⟨hbound, it, b, c, hinside, hmem⟩
  · rintro ⟨hbound, it, b, c, hvisited, hmem⟩
    have hb := (Procedure.inside_loop hl).mp hvisited.inside
    have hinside := (visited_inner hlive hs hp hr hh hne hl hb).mpr ⟨hbound, it, hvisited⟩
    exact ⟨b, c, (Procedure.standsFor_header hh hne hl).mpr hb, hinside, hmem⟩

/-- The places of a region are given by the blocks of its order. -/
theorem mem_placesIn (hp : p.WellFormed) {place : Place} :
    place ∈ placesIn program p region context ↔
      ∃ r ∈ p.orderOf region, place ∈ placesFor program p region context r := by
  constructor
  · rintro ⟨b, c, hvisited, hmem⟩
    obtain ⟨r, hr, hstands⟩ := hp.exists_standsFor hvisited.inside
    exact ⟨r, hr, b, c, hstands, hvisited, hmem⟩
  · rintro ⟨r, hr, b, c, -, hvisited, hmem⟩
    exact ⟨b, c, hvisited, hmem⟩

end Run

end CycleBounds
