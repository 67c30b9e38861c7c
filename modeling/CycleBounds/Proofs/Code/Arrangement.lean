import CycleBounds.Code.Draft
import Mathlib.Data.List.Nodup
import Mathlib.Tactic.Common

/-!
# Topological order

`Waiting.arrange` takes out items that wait for nothing. The order in which it does is topological:
it lists every item once, and every item after all the items that it waits for. An item that is left
in the end waits for another such item.

* `arrange_perm`, `idxOf_lt_of_arrange` and `exists_after_of_left` say this of a list of waiting
  items.
* `Draft.Arranged` is the same for the blocks of a draft, and `arranged_of_topological` says that
  an accepted draft has such an order.
-/

namespace CycleBounds.Code

namespace Waiting

theorem map_item_without (item : Nat) (ws : List Waiting) :
    (without item ws).map Waiting.item = (ws.map Waiting.item).filter (· != item) := by
  rw [without, List.map_map, List.filter_map]
  refine congrArg _ (List.filter_congr fun w _ => ?_)
  by_cases h : w.item = item <;> simp [h]

theorem nodup_without {ws : List Waiting} (hn : (ws.map Waiting.item).Nodup) (item : Nat) :
    ((without item ws).map Waiting.item).Nodup := by
  rw [map_item_without]
  exact hn.filter _

theorem mem_without {item : Nat} {ws : List Waiting} {w : Waiting} (h : w ∈ ws)
    (hne : w.item ≠ item) :
    { w with after := w.after.filter (· ≠ item) } ∈ without item ws := by
  refine List.mem_map.mpr ⟨w, List.mem_filter.mpr ⟨h, ?_⟩, rfl⟩
  simpa using hne

section Arranged

variable {n : Nat} {ws : List Waiting} {w : Waiting} {order left : List Nat}

/-- A step takes out an item that waits for nothing, if there is one. -/
theorem arrange_succ_cases (h : arrange (n + 1) ws = (order, left)) :
    ((∀ w ∈ ws, w.after ≠ []) ∧ order = [] ∧ left = ws.map Waiting.item) ∨
      ∃ x ∈ ws, x.after = [] ∧
        ∃ rest, arrange n (without x.item ws) = (rest, left) ∧ order = x.item :: rest := by
  rw [arrange] at h
  cases hf : ws.find? fun w => w.after.isEmpty with
  | none =>
    rw [hf] at h
    obtain ⟨rfl, rfl⟩ := Prod.mk.inj h
    exact .inl ⟨fun w hw => by simpa using List.find?_eq_none.mp hf w hw, rfl, rfl⟩
  | some x =>
    rw [hf] at h
    obtain ⟨rfl, rfl⟩ := Prod.mk.inj h
    exact .inr ⟨x, List.mem_of_find?_eq_some hf, by simpa using List.find?_some hf, _, rfl, rfl⟩

/-- Every item is taken out once or is left. -/
theorem arrange_perm (hn : (ws.map Waiting.item).Nodup) (h : arrange n ws = (order, left)) :
    (order ++ left).Perm (ws.map Waiting.item) := by
  induction n generalizing ws order left with
  | zero =>
    obtain ⟨rfl, rfl⟩ := Prod.mk.inj h
    exact .refl _
  | succ n ih =>
    rcases arrange_succ_cases h with ⟨-, rfl, rfl⟩ | ⟨x, hx, -, rest, hrest, rfl⟩
    · exact .refl _
    · have hperm := ih (nodup_without hn x.item) hrest
      rw [map_item_without, ← hn.erase_eq_filter] at hperm
      exact (hperm.cons _).trans (List.perm_cons_erase (List.mem_map_of_mem hx)).symm

/-- What is left stays in its order. -/
theorem left_sublist (h : arrange n ws = (order, left)) :
    left.Sublist (ws.map Waiting.item) := by
  induction n generalizing ws order left with
  | zero =>
    obtain ⟨-, rfl⟩ := Prod.mk.inj h
    exact .refl _
  | succ n ih =>
    rcases arrange_succ_cases h with ⟨-, -, rfl⟩ | ⟨x, -, -, rest, hrest, -⟩
    · exact .refl _
    · refine List.Sublist.trans (ih hrest) ?_
      rw [map_item_without]
      exact List.filter_sublist

/-- An item is taken out after those that it waits for. -/
theorem mem_of_arrange (hn : (ws.map Waiting.item).Nodup) (h : arrange n ws = (order, left))
    (hw : w ∈ ws) {pre post : List Nat} (ho : order = pre ++ w.item :: post) {u : Nat}
    (hu : u ∈ w.after) : u ∈ pre := by
  induction n generalizing ws order left w pre with
  | zero =>
    obtain ⟨rfl, -⟩ := Prod.mk.inj h
    simp at ho
  | succ n ih =>
    rcases arrange_succ_cases h with ⟨-, rfl, -⟩ | ⟨x, hx, hxa, rest, hrest, rfl⟩
    · simp at ho
    by_cases hne : w.item = x.item
    · -- the item taken out first waits for nothing
      have : w = x := List.inj_on_of_nodup_map hn hw hx hne
      rw [this, hxa] at hu
      cases hu
    · cases pre with
      | nil =>
        rw [List.nil_append, List.cons.injEq] at ho
        exact absurd ho.1.symm hne
      | cons y pre =>
        rw [List.cons_append, List.cons.injEq] at ho
        obtain ⟨rfl, ho⟩ := ho
        by_cases hux : u = x.item
        · rw [hux]
          exact List.mem_cons_self
        · -- what is waited for besides the first item is still waited for without it
          refine List.mem_cons_of_mem _
            (ih (nodup_without hn x.item) hrest (mem_without hw hne) ho ?_)
          exact List.mem_filter.mpr ⟨hu, by simpa using hux⟩

/-- What an item that is taken out waits for is taken out earlier. -/
theorem idxOf_lt_of_arrange (hn : (ws.map Waiting.item).Nodup) (h : arrange n ws = (order, left))
    (hw : w ∈ ws) (ho : w.item ∈ order) {u : Nat} (hu : u ∈ w.after) :
    u ∈ order ∧ order.idxOf u < order.idxOf w.item := by
  have hnodup : order.Nodup :=
    (List.nodup_append.mp ((arrange_perm hn h).nodup_iff.mpr hn)).1
  obtain ⟨pre, post, rfl⟩ := List.append_of_mem ho
  have hpre : u ∈ pre := mem_of_arrange hn h hw rfl hu
  have hlater : w.item ∉ pre := fun hmem =>
    List.disjoint_of_nodup_append hnodup hmem List.mem_cons_self
  refine ⟨List.mem_append_left _ hpre, ?_⟩
  rw [List.idxOf_append_of_mem hpre, List.idxOf_append_of_notMem hlater]
  exact Nat.lt_of_lt_of_le (List.idxOf_lt_length_iff.mpr hpre) (Nat.le_add_right _ _)

/-- An item that is left waits for one that is not taken out. -/
theorem exists_after_of_left (hn : ws.length ≤ n) (h : arrange n ws = (order, left)) (hw : w ∈ ws)
    (hl : w.item ∈ left) : ∃ u ∈ w.after, u ∉ order := by
  -- there are enough steps to take out all items, so it is not for lack of steps that one is left
  induction n generalizing ws order left w with
  | zero =>
    rw [List.length_eq_zero_iff.mp (Nat.le_zero.mp hn)] at hw
    cases hw
  | succ n ih =>
    rcases arrange_succ_cases h with ⟨hwaits, rfl, -⟩ | ⟨x, hx, -, rest, hrest, rfl⟩
    · obtain ⟨u, hu⟩ := List.exists_mem_of_ne_nil _ (hwaits w hw)
      exact ⟨u, hu, List.not_mem_nil⟩
    · have hshorter : (without x.item ws).length ≤ n := by
        have hlt : (ws.filter fun w => w.item ≠ x.item).length < ws.length :=
          List.length_filter_lt_length_iff_exists.mpr ⟨x, hx, by simp⟩
        rw [without, List.length_map]
        omega
      have hne : w.item ≠ x.item := by
        have hitem := (left_sublist hrest).subset hl
        rw [map_item_without, List.mem_filter] at hitem
        simpa using hitem.2
      obtain ⟨u, hu, hout⟩ := ih hshorter hrest (mem_without hw hne) hl
      obtain ⟨hu, hux⟩ := List.mem_filter.mp hu
      refine ⟨u, hu, ?_⟩
      rw [List.mem_cons, not_or]
      exact ⟨by simpa using hux, hout⟩

end Arranged

end Waiting

namespace Draft

/-- All blocks of a draft in an order that no edge goes against. -/
structure Arranged (d : Draft) (all : List Nat) : Prop where
  nodup : all.Nodup
  mem_iff : ∀ b, b ∈ all ↔ b < d.blocks.length
  idxOf_lt : ∀ u v, v ∈ all → u ∈ d.preds v → all.idxOf u < all.idxOf v

theorem Arranged.pairwise {d : Draft} {all : List Nat} (h : d.Arranged all) :
    all.Pairwise fun a b => all.idxOf a < all.idxOf b := by
  rw [List.pairwise_iff_getElem]
  intro i j hi hj hij
  rw [h.nodup.idxOf_getElem i hi, h.nodup.idxOf_getElem j hj]
  exact hij

def waiting (d : Draft) : List Waiting :=
  (List.range d.blocks.length).map fun b => ⟨b, d.preds b⟩

section Topological

variable {d : Draft} {all order left : List Nat} {b : Nat}

theorem map_item_waiting (d : Draft) :
    d.waiting.map Waiting.item = List.range d.blocks.length := by
  rw [waiting, List.map_map]
  exact List.map_id _

theorem nodup_waiting (d : Draft) : (d.waiting.map Waiting.item).Nodup := by
  rw [map_item_waiting]
  exact List.nodup_range

theorem mem_waiting (hb : b < d.blocks.length) : (⟨b, d.preds b⟩ : Waiting) ∈ d.waiting :=
  List.mem_map.mpr ⟨b, List.mem_range.mpr hb, rfl⟩

/-- Every block is taken out or left. -/
theorem mem_arrange (h : Waiting.arrange d.blocks.length d.waiting = (order, left)) :
    b ∈ order ∨ b ∈ left ↔ b < d.blocks.length := by
  rw [← List.mem_append, (Waiting.arrange_perm d.nodup_waiting h).mem_iff, map_item_waiting,
    List.mem_range]

/-- The blocks are put in order if none is left, and otherwise the first that is left is named. -/
theorem topological_cases (d : Draft) : ∃ order left,
    Waiting.arrange d.blocks.length d.waiting = (order, left) ∧
      (left = [] ∧ d.topological = .ok order ∨
        ∃ b rest, left = b :: rest ∧ d.topological = .error (.cycle d.id b)) := by
  cases h : Waiting.arrange d.blocks.length d.waiting with
  | mk order left =>
    refine ⟨order, left, rfl, ?_⟩
    rw [waiting] at h
    cases left with
    | nil => exact .inl ⟨rfl, by simp only [topological, h]⟩
    | cons b rest => exact .inr ⟨b, rest, rfl, by simp only [topological, h]⟩

/-- A topological order has all blocks, and no edge goes against it. -/
theorem arranged_of_topological (h : d.topological = .ok all) : d.Arranged all := by
  obtain ⟨order, left, ha, ⟨rfl, hok⟩ | ⟨b, rest, -, herr⟩⟩ := d.topological_cases
  · obtain rfl : order = all := Except.ok.inj (hok.symm.trans h)
    have hmem : ∀ b, b ∈ order ↔ b < d.blocks.length := by
      intro b
      simpa using mem_arrange (b := b) ha
    have hnodup := (Waiting.arrange_perm d.nodup_waiting ha).nodup_iff.mpr d.nodup_waiting
    rw [List.append_nil] at hnodup
    refine ⟨hnodup, hmem, fun u v hv hu => ?_⟩
    exact (Waiting.idxOf_lt_of_arrange d.nodup_waiting ha (mem_waiting ((hmem v).mp hv)) hv hu).2
  · cases herr.symm.trans h

end Topological

end Draft

end CycleBounds.Code
