import CycleBounds.Proofs.Code.Shape
import CycleBounds.Proofs.Matching
import Mathlib.Data.List.Perm.Basic

/-!
# The order in which edges are declared

A draft may declare its edges in any order, and an edge more than once. The procedure that is built
from it lists the neighbours of a block in the order of their first declaration, and this is all
that depends on the order: the same blocks wait for the same ones, so all orders of blocks are the
same, and so are the loops and the blocks through which the procedure is left.

* `Draft.Redeclares`: the same draft with its edges declared anew.
* `Procedure.Alike`: the same procedure with the neighbours of blocks listed in another order.
* `Draft.Redeclares.alike`: what is built from drafts that differ in this way only.
-/

namespace CycleBounds

/-! ### Lists in another order -/

section Combine

variable {α : Type} {op : α → α → α} {a b : α} {xs ys : List α}

theorem foldl_merge_some (op : α → α → α) (xs : List α) (a : α) :
    (xs.map some).foldl (Option.merge op) (some a) = some (xs.foldl op a) := by
  induction xs generalizing a with
  | nil => rfl
  | cons x xs ih => exact ih (op a x)

/-- Entries are combined into the same value in any order. -/
theorem foldl_eq_of_perm [Std.Associative op] [Std.Commutative op] (h : (a :: xs).Perm (b :: ys)) :
    xs.foldl op a = ys.foldl op b := by
  have hsome : ((a :: xs).map some).foldl (Option.merge op) none =
      ((b :: ys).map some).foldl (Option.merge op) none := (h.map some).foldl_op_eq
  apply Option.some.inj
  rw [← foldl_merge_some, ← foldl_merge_some]
  exact hsome

end Combine

/-- Lists in another order are both empty, or none of them is. -/
theorem perm_nil_or_cons {α : Type} {xs ys : List α} (h : xs.Perm ys) : xs = [] ∧ ys = [] ∨
    ∃ a as b bs, xs = a :: as ∧ ys = b :: bs ∧ (a :: as).Perm (b :: bs) := by
  cases xs with
  | nil => exact .inl ⟨rfl, h.nil_eq.symm⟩
  | cons a as =>
    cases ys with
    | nil => exact absurd h.eq_nil (by simp)
    | cons b bs => exact .inr ⟨a, as, b, bs, rfl, rfl, h⟩

theorem flatMap_eq_of_forall₂ {α β γ : Type} {R : α → β → Prop} {f : α → List γ} {g : β → List γ}
    {xs : List α} {ys : List β} (h : List.Forall₂ R xs ys) (hfg : ∀ a b, R a b → f a = g b) :
    xs.flatMap f = ys.flatMap g := by
  induction h with
  | nil => rfl
  | cons hab _ ih => rw [List.flatMap_cons, List.flatMap_cons, hfg _ _ hab, ih]

namespace Code

/-- The same block, its neighbours listed in another order. -/
structure Block.Alike (x y : Block) : Prop where
  instructions : y.instructions = x.instructions
  preds : x.preds.Perm y.preds
  succs : x.succs.Perm y.succs
  headerOf : y.headerOf = x.headerOf
  innermost : y.innermost = x.innermost

structure Procedure.Alike (p q : Procedure) : Prop where
  id : q.id = p.id
  name : q.name = p.name
  blocks : List.Forall₂ Block.Alike p.blocks q.blocks
  loops : q.loops = p.loops
  order : q.order = p.order
  sinks : q.sinks = p.sinks

def Program.Alike (program program' : Program) : Prop :=
  List.Forall₂ Procedure.Alike program.procedures program'.procedures

/-- Programs that are alike have the same instructions. -/
theorem Program.Alike.instructions {program program' : Program} (h : program.Alike program') :
    (program.procedures.flatMap fun p => p.blocks.flatMap (·.instructions)) =
      program'.procedures.flatMap fun p => p.blocks.flatMap (·.instructions) := by
  refine flatMap_eq_of_forall₂ h fun p q hpq => ?_
  exact flatMap_eq_of_forall₂ hpq.blocks fun x y hxy => hxy.instructions.symm

/-! ### Arrangement -/

namespace Waiting

/-- Items that wait for what a function says. -/
def ofItems (after : Nat → List Nat) (items : List Nat) : List Waiting :=
  items.map fun item => ⟨item, after item⟩

theorem map_item_ofItems (after : Nat → List Nat) (items : List Nat) :
    (ofItems after items).map item = items := by
  rw [ofItems, List.map_map]
  exact List.map_id items

theorem without_ofItems (after : Nat → List Nat) (items : List Nat) (item : Nat) :
    without item (ofItems after items) =
      ofItems (fun i => (after i).filter (· ≠ item)) (items.filter (· ≠ item)) := by
  rw [without, ofItems, List.filter_map, List.map_map, ofItems]
  rfl

/-- The order depends on what items wait for, not on how this is listed. -/
theorem arrange_congr {after after' : Nat → List Nat} (h : ∀ i j, j ∈ after i ↔ j ∈ after' i)
    (n : Nat) (items : List Nat) :
    arrange n (ofItems after items) = arrange n (ofItems after' items) := by
  induction n generalizing after after' items with
  | zero => rw [arrange, arrange, map_item_ofItems, map_item_ofItems]
  | succ n ih =>
    have hempty : ∀ i, (after i).isEmpty = (after' i).isEmpty := by
      intro i
      rw [Bool.eq_iff_iff, List.isEmpty_iff, List.isEmpty_iff, List.eq_nil_iff_forall_not_mem,
        List.eq_nil_iff_forall_not_mem]
      exact forall_congr' fun j => not_congr (h i j)
    have hfind : ∀ f : Nat → List Nat, (ofItems f items).find? (fun w => w.after.isEmpty) =
        (items.find? fun i => (f i).isEmpty).map fun i => ⟨i, f i⟩ := by
      intro f
      rw [ofItems, List.find?_map]
      rfl
    -- the same item is taken out of both lists, and the lists without it are alike again
    rw [arrange, arrange, hfind, hfind, funext hempty]
    cases items.find? fun i => (after' i).isEmpty with
    | none =>
      show ([], (ofItems after items).map item) = ([], (ofItems after' items).map item)
      rw [map_item_ofItems, map_item_ofItems]
    | some i =>
      have hwithout : ∀ j k, k ∈ (after j).filter (· ≠ i) ↔ k ∈ (after' j).filter (· ≠ i) := by
        intro j k
        simp [h]
      have hrest := ih hwithout (items.filter (· ≠ i))
      rw [← without_ofItems, ← without_ofItems] at hrest
      show (i :: (arrange n (without i (ofItems after items))).1,
        (arrange n (without i (ofItems after items))).2) = _
      rw [hrest]
      rfl

end Waiting

/-! ### Drafts -/

/-- The same draft with its edges declared anew, in any order and any number of times each. -/
structure Draft.Redeclares (d d' : Draft) : Prop where
  id : d'.id = d.id
  name : d'.name = d.name
  blocks : d'.blocks = d.blocks
  loops : d'.loops = d.loops
  mem_edges : ∀ e, e ∈ d'.edges ↔ e ∈ d.edges

namespace Draft.Redeclares

variable {d d' : Draft}

theorem perm_preds (h : d.Redeclares d') (b : Nat) : (d.preds b).Perm (d'.preds b) := by
  refine (List.perm_ext_iff_of_nodup (nodup_eraseDups _) (nodup_eraseDups _)).mpr fun u => ?_
  show u ∈ d.preds b ↔ u ∈ d'.preds b
  rw [mem_preds, mem_preds, h.mem_edges]

theorem perm_succs (h : d.Redeclares d') (b : Nat) : (d.succs b).Perm (d'.succs b) := by
  refine (List.perm_ext_iff_of_nodup (nodup_eraseDups _) (nodup_eraseDups _)).mpr fun v => ?_
  show v ∈ d.succs b ↔ v ∈ d'.succs b
  rw [mem_succs, mem_succs, h.mem_edges]

theorem topological (h : d.Redeclares d') : d'.topological = d.topological := by
  have harrange : Waiting.arrange d.blocks.length
      ((List.range d.blocks.length).map fun b => ⟨b, d'.preds b⟩) =
      Waiting.arrange d.blocks.length ((List.range d.blocks.length).map fun b => ⟨b, d.preds b⟩) :=
    Waiting.arrange_congr (fun b u => (h.perm_preds b).mem_iff.symm) _ _
  simp only [Draft.topological, h.blocks, h.id, harrange]

theorem nest (h : d.Redeclares d') : d'.nest = d.nest := by
  rw [Draft.nest, Draft.nest, h.loops]

theorem headerOf (h : d.Redeclares d') : d'.headerOf = d.headerOf := by
  funext b
  rw [Draft.headerOf, Draft.headerOf, h.loops]

theorem regionOrder (h : d.Redeclares d') : d'.regionOrder = d.regionOrder := by
  have hranks : d'.ranks = d.ranks := by
    funext region b
    cases region with
    | none => rw [ranks, ranks, ranksOutside, ranksOutside, h.nest, h.headerOf]
    | some i => rw [ranks, ranks, ranksIn, ranksIn, h.nest, h.headerOf]
  funext all region
  rw [Draft.regionOrder, Draft.regionOrder, hranks]

/-- Control leaves a procedure through the same blocks. -/
theorem isSink (h : d.Redeclares d') : d'.isSink d'.nest = d.isSink d.nest := by
  have hwithin : ∀ m blocks, Nest.within (d'.succs m) blocks = Nest.within (d.succs m) blocks :=
    fun m blocks => (h.perm_succs m).symm.all_eq
  have hempty : ∀ b, (d'.succs b).isEmpty = (d.succs b).isEmpty :=
    fun b => (h.perm_succs b).symm.isEmpty_eq
  funext b
  simp only [Draft.isSink, h.nest, h.headerOf, hwithin, hempty]

/-- Drafts that differ in the declaration of edges are built into procedures that are alike. -/
theorem alike (h : d.Redeclares d') {p p' : Procedure} (hp : d.build = .ok p)
    (hp' : d'.build = .ok p') : p.Alike p' := by
  obtain ⟨all, hall, hb, hid, hname⟩ := build_arranged hp
  obtain ⟨all', hall', hb', hid', hname'⟩ := build_arranged hp'
  obtain rfl : all = all' := by
    rw [h.topological, hall] at hall'
    exact Except.ok.inj hall'
  have horder : p'.order = p.order := by
    rw [hb'.order, hb.order, h.regionOrder]
  constructor
  case id => rw [hid', hid, h.id]
  case name => rw [hname', hname, h.name]
  case order => exact horder
  case sinks => rw [hb'.sinks, hb.sinks, horder, h.isSink]
  case loops =>
    apply List.ext_getElem?
    intro i
    have hloopOf : d'.loopOf all = d.loopOf all := by
      funext l i
      rw [loopOf, loopOf, h.nest, h.regionOrder]
    rw [hb'.loops, hb.loops, h.loops, hloopOf]
  -- predecessors and successors are permuted; all else in a block is the same
  case blocks =>
    have hlength : p.blocks.length = p'.blocks.length := by
      rw [length_eq_of_getElem? hb.blocks, length_eq_of_getElem? hb'.blocks, h.blocks]
    rw [List.forall₂_iff_get]
    refine ⟨hlength, fun b hlt hlt' => ?_⟩
    obtain ⟨is, his, hblock⟩ := hb.block_eq_some.mp (List.getElem?_eq_getElem hlt)
    obtain ⟨is', his', hblock'⟩ := hb'.block_eq_some.mp (List.getElem?_eq_getElem hlt')
    rw [h.blocks] at his'
    obtain rfl := Option.some.inj (his.symm.trans his')
    rw [List.get_eq_getElem, List.get_eq_getElem, ← hblock, ← hblock']
    exact ⟨rfl, h.perm_preds b, h.perm_succs b, congrFun h.headerOf b,
      congrArg (fun nest => Nest.innermost nest b) h.nest⟩

end Draft.Redeclares

/-! ### Programs -/

/-- A program is made of the procedures that are built from some drafts. -/
def Program.MadeOf (program : Program) (drafts : List Draft) : Prop :=
  ∃ procedures, drafts.mapM Draft.build = .ok procedures ∧
    Program.ofProcedures procedures = .ok program

theorem Program.procedures_of_ofProcedures {procedures : List Procedure} {program : Program}
    (h : Program.ofProcedures procedures = .ok program) : program.procedures = procedures := by
  obtain ⟨⟨⟩, -, h⟩ := bind_eq_ok.mp h
  obtain ⟨⟨⟩, -, h⟩ := bind_eq_ok.mp h
  rw [pure_eq_ok] at h
  rw [← h]

/-- Programs that are made of drafts with edges declared anew are alike. -/
theorem Program.MadeOf.alike {program program' : Program} {drafts drafts' : List Draft}
    (h : program.MadeOf drafts) (h' : program'.MadeOf drafts')
    (hdrafts : List.Forall₂ Draft.Redeclares drafts drafts') : program.Alike program' := by
  obtain ⟨procedures, hbuild, hprogram⟩ := h
  obtain ⟨procedures', hbuild', hprogram'⟩ := h'
  rw [Program.Alike, procedures_of_ofProcedures hprogram, procedures_of_ofProcedures hprogram']
  have hall := mapM_eq_ok hbuild
  have hall' := mapM_eq_ok hbuild'
  clear hbuild hbuild' hprogram hprogram'
  induction hdrafts generalizing procedures procedures' with
  | nil =>
    cases hall
    cases hall'
    exact .nil
  | cons hd _ ih =>
    cases hall with
    | cons hp hall =>
      cases hall' with
      | cons hp' hall' => exact .cons (hd.alike hp hp') (ih _ _ hall hall')

end Code

end CycleBounds
