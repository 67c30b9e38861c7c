import CycleBounds.Code.Nesting
import Mathlib.Data.List.Basic
import Mathlib.Data.List.Count
import Mathlib.Tactic.Common

/-!
# Proper nests

In a proper nest two different loops that share a block lie strictly in one another, so of the
loops that share a block any two are comparable by their number of blocks.

* `isBest_best`: the search for the best loop of a kind finds it (`IsBest`), so that
  `smallest_eq_some` and `innermost_eq_some` describe the loops that are found.
* `Proper` is what the nesting check guarantees, `Proper.strictlyWithin` how it is used.
* `Proper.levels_getElem?`: to climb from parent to parent is to count the loops around a loop, so
  the innermost loop around a block is the smallest one (`Proper.innermost_le`).
* `Beneath` compares a loop with a region: a loop, or the whole procedure. The largest loop around a
  block that lies beneath a region is a child of the region (`Proper.parent_of_largest`); where
  there is none, the region is the innermost around the block (`Proper.innermost_of_none`).
-/

namespace CycleBounds.Code.Nest

theorem mem_of_within {xs ys : List Nat} (h : within xs ys = true) {x : Nat} (hx : x ∈ xs) :
    x ∈ ys := by
  rw [within, List.all_eq_true] at h
  simpa using h x hx

theorem strictlyWithin_iff {xs ys : List Nat} :
    strictlyWithin xs ys = true ↔ xs.length < ys.length ∧ ∀ x ∈ xs, x ∈ ys := by
  rw [strictlyWithin, decide_eq_true_iff]
  refine and_congr_right fun _ => ?_
  rw [within, List.all_eq_true]
  simp

theorem strictlyWithin_trans {xs ys zs : List Nat} (h : strictlyWithin xs ys = true)
    (h' : strictlyWithin ys zs = true) : strictlyWithin xs zs = true := by
  rw [strictlyWithin_iff] at *
  exact ⟨Nat.lt_trans h.1 h'.1, fun x hx => h'.2 x (h.2 x hx)⟩

theorem not_strictlyWithin_self {xs : List Nat} : strictlyWithin xs xs = false := by
  rw [Bool.eq_false_iff, ne_eq, strictlyWithin_iff]
  exact fun h => Nat.lt_irrefl _ h.1

/-! ### The best loop of a kind -/

/-- Of some loops, the result is one that is selected and that no selected one wins against. -/
def IsBest (select : Nat → Bool) (wins : Nat → Nat → Bool) (loops : List Nat) : Option Nat → Prop
  | none => ∀ i ∈ loops, select i = false
  | some i => i ∈ loops ∧ select i = true ∧ ∀ j ∈ loops, select j = true → wins j i = false

section Search

variable {select : Nat → Bool} {wins : Nat → Nat → Bool} {loops : List Nat} {result : Option Nat}
  (htrans : ∀ i j k, wins i j = true → wins j k = true → wins i k = true)
  (hirrefl : ∀ i, wins i i = false)

include htrans hirrefl

/-- One more loop is compared with the best so far. -/
theorem IsBest.step (h : IsBest select wins loops result) (i : Nat) :
    IsBest select wins (loops ++ [i])
      (if select i = true ∧ result.all (wins i) = true then some i else result) := by
  have hmem : ∀ {j}, j ∈ loops ++ [i] → j ∈ loops ∨ j = i := fun hj => by simpa using hj
  split
  case isTrue hsel =>
    refine ⟨by simp, hsel.1, fun j hj hselj => ?_⟩
    rcases hmem hj with hj | rfl
    · cases result with
      | none => rw [h j hj] at hselj; cases hselj
      | some b =>
        -- a loop that won against this one would have won against the one before
        obtain ⟨-, -, hbest⟩ := h
        have hwins : wins i b = true := hsel.2
        by_contra hji
        have := htrans j i b (by simpa using hji) hwins
        rw [hbest j hj hselj] at this
        cases this
    · exact hirrefl j
  case isFalse hsel =>
    cases result with
    | none =>
      intro j hj
      rcases hmem hj with hj | rfl
      · exact h j hj
      · by_contra hselj
        exact hsel ⟨by simpa using hselj, rfl⟩
    | some b =>
      obtain ⟨hb, hselb, hbest⟩ := h
      refine ⟨List.mem_append_left _ hb, hselb, fun j hj hselj => ?_⟩
      rcases hmem hj with hj | rfl
      · exact hbest j hj hselj
      · by_contra hwins
        exact hsel ⟨hselj, by simpa using hwins⟩

theorem isBest_best (n : Nat) : IsBest select wins (List.range n) (best n select wins) := by
  induction n with
  | zero => exact fun i hi => absurd hi (by simp)
  | succ n ih =>
    rw [best, List.range_succ, List.foldl_append]
    exact ih.step htrans hirrefl n

end Search

variable {nest : Nest} {i j b : Nat} {xs ys : List Nat}

theorem getD_of_getElem? (h : nest[i]? = some xs) : nest.getD i [] = xs := by
  rw [List.getD_eq_getElem?_getD, h, Option.getD_some]

section Found

variable (select : List Nat → Bool) {wins : Nat → Nat → Bool}
  (htrans : ∀ i j k, wins i j = true → wins j k = true → wins i k = true)
  (hirrefl : ∀ i, wins i i = false)

include htrans hirrefl

/-- The best of some loops is one of them, and no other wins against it. -/
theorem best_eq_some (h : best nest.length (fun i => select (nest.getD i [])) wins = some i) :
    ∃ xs, nest[i]? = some xs ∧ select xs = true ∧
      ∀ (j : Nat) ys, nest[j]? = some ys → select ys = true → wins j i = false := by
  have hbest : IsBest (fun i => select (nest.getD i [])) wins (List.range nest.length) _ :=
    isBest_best htrans hirrefl nest.length
  rw [h] at hbest
  obtain ⟨hi, hsel, hmin⟩ := hbest
  have hget := List.getElem?_eq_getElem (List.mem_range.mp hi)
  refine ⟨_, hget, (getD_of_getElem? hget) ▸ hsel, fun j ys hj hys => ?_⟩
  refine hmin j (List.mem_range.mpr (List.getElem?_eq_some_iff.mp hj).1) ?_
  show select (nest.getD j []) = true
  rwa [getD_of_getElem? hj]

/-- There is no best loop only if no loop is selected. -/
theorem best_eq_none (h : best nest.length (fun i => select (nest.getD i [])) wins = none)
    (hj : nest[j]? = some ys) : select ys = false := by
  have hbest : IsBest (fun i => select (nest.getD i [])) wins (List.range nest.length) _ :=
    isBest_best htrans hirrefl nest.length
  rw [h] at hbest
  have hnone : select (nest.getD j []) = false :=
    hbest j (List.mem_range.mpr (List.getElem?_eq_some_iff.mp hj).1)
  rwa [getD_of_getElem? hj] at hnone

end Found

theorem smallest_eq_some {select : List Nat → Bool} (h : nest.smallest select = some i) :
    ∃ xs, nest[i]? = some xs ∧ select xs = true ∧
      ∀ (j : Nat) ys, nest[j]? = some ys → select ys = true → xs.length ≤ ys.length := by
  obtain ⟨xs, hi, hsel, hmin⟩ :=
    best_eq_some select (by simpa using fun _ _ _ => Nat.lt_trans) (by simp) h
  refine ⟨xs, hi, hsel, fun j ys hj hys => ?_⟩
  simpa [hi, hj] using hmin j ys hj hys

theorem smallest_eq_none {select : List Nat → Bool} (h : nest.smallest select = none)
    (hj : nest[j]? = some ys) : select ys = false :=
  best_eq_none select (by simpa using fun _ _ _ => Nat.lt_trans) (by simp) h hj

theorem deepest_levels : nest.deepest nest.levels b = nest.innermost b := rfl

/-- The innermost loop around a block is around it, and no loop around it is of a higher level. -/
theorem innermost_eq_some (h : nest.innermost b = some i) :
    ∃ xs, nest[i]? = some xs ∧ b ∈ xs ∧
      ∀ (j : Nat) ys, nest[j]? = some ys → b ∈ ys →
        nest.levels.getD j 0 ≤ nest.levels.getD i 0 := by
  obtain ⟨xs, hi, hsel, hmax⟩ := best_eq_some (·.contains b)
    (by simpa using fun _ _ _ h h' => Nat.lt_trans h' h) (by simp) h
  refine ⟨xs, hi, List.contains_iff_mem.mp hsel, fun j ys hj hb => ?_⟩
  simpa using hmax j ys hj (List.contains_iff_mem.mpr hb)

theorem innermost_eq_none (h : nest.innermost b = none) (hj : nest[j]? = some ys) : b ∉ ys := by
  have hnone := best_eq_none (·.contains b)
    (by simpa using fun _ _ _ h h' => Nat.lt_trans h' h) (by simp) h hj
  simpa using hnone

/-! ### Proper nests -/

/-- Two different loops share no block, or one of them lies strictly in the other. -/
def Proper (nest : Nest) : Prop :=
  ∀ (i j : Nat) xs ys, i ≠ j → nest[i]? = some xs → nest[j]? = some ys →
    (∀ x ∈ xs, x ∉ ys) ∨ strictlyWithin xs ys = true ∨ strictlyWithin ys xs = true

/-- Loops of which no two overlap nest properly. -/
theorem proper_of_overlapping? (h : nest.overlapping? = none) : nest.Proper := by
  intro i j xs ys hij hi hj
  rw [overlapping?, List.findSome?_eq_none_iff] at h
  have h := h (xs, i) (List.mem_zipIdx_iff_getElem?.mpr hi)
  rw [List.findSome?_eq_none_iff] at h
  have h := h (ys, j) (List.mem_zipIdx_iff_getElem?.mpr hj)
  simp only [ite_eq_right_iff, reduceCtorEq, imp_false, not_and] at h
  have h := h hij
  rw [overlap] at h
  by_cases hd : disjoint xs ys = true
  · rw [disjoint, List.all_eq_true] at hd
    exact .inl fun x hx => by simpa using hd x hx
  · by_cases h₁ : strictlyWithin xs ys = true
    · exact .inr (.inl h₁)
    · exact .inr (.inr (by simpa [hd, h₁] using h))

/-- Of two loops around a block, the one with fewer blocks lies strictly in the other. -/
theorem Proper.strictlyWithin (hp : nest.Proper) (hij : i ≠ j) (hi : nest[i]? = some xs)
    (hj : nest[j]? = some ys) {b : Nat} (hb : b ∈ xs) (hb' : b ∈ ys)
    (hle : xs.length ≤ ys.length) : strictlyWithin xs ys = true := by
  rcases hp i j xs ys hij hi hj with h | h | h
  · exact absurd hb' (h b hb)
  · exact h
  · have := (strictlyWithin_iff.mp h).1
    omega

/-- Among the loops of a kind, if there are any, one is largest. -/
theorem exists_largest {P : List Nat → Prop}
    (h : ∃ (i : Nat) (xs : List Nat), nest[i]? = some xs ∧ P xs) :
    ∃ (i : Nat) (xs : List Nat), nest[i]? = some xs ∧ P xs ∧
      ∀ (j : Nat) ys, nest[j]? = some ys → P ys → ys.length ≤ xs.length := by
  classical
  obtain ⟨i, xs, hi, hx⟩ := h
  have hmem : xs ∈ nest.filter (fun ys => decide (P ys)) :=
    List.mem_filter.mpr ⟨List.mem_of_getElem? hi, by simpa using hx⟩
  obtain ⟨zs, hz⟩ := Option.isSome_iff_exists.mp
    (List.isSome_max?_of_mem (List.mem_map_of_mem (f := List.length) hmem))
  have hmax := List.max?_eq_some_iff.mp hz
  obtain ⟨ws, hws, rfl⟩ := List.mem_map.mp hmax.1
  obtain ⟨hw, hPw⟩ := List.mem_filter.mp hws
  obtain ⟨k, hk⟩ := List.getElem?_of_mem hw
  refine ⟨k, ws, hk, by simpa using hPw, fun j ys hj hys => ?_⟩
  exact hmax.2 _ (List.mem_map_of_mem
    (List.mem_filter.mpr ⟨List.mem_of_getElem? hj, by simpa using hys⟩))

/-! ### Levels

The loops around a loop form a chain of parents, so to climb from parent to parent is to count
them. -/

def loopsAround (nest : Nest) (blocks : List Nat) : Nat :=
  nest.countP (strictlyWithin blocks)

theorem loopsAround_lt_length (h : xs ∈ nest) : nest.loopsAround xs < nest.length :=
  List.countP_lt_length_iff.mpr ⟨xs, h, not_strictlyWithin_self⟩

/-- Of two kinds that differ in one entry of a list, one has one entry more. -/
theorem countP_eq_succ {α : Type} {p q : α → Bool} {l : List α} {k : Nat} {a : α}
    (hk : l[k]? = some a) (hp : p a = true) (hq : q a = false)
    (hsame : ∀ (m : Nat) b, m ≠ k → l[m]? = some b → p b = q b) :
    l.countP p = l.countP q + 1 := by
  induction l generalizing k with
  | nil => simp at hk
  | cons x l ih =>
    cases k with
    | zero =>
      obtain rfl : x = a := by simpa using hk
      have hrest : l.countP p = l.countP q := by
        refine List.countP_congr fun b hb => ?_
        obtain ⟨m, hm⟩ := List.getElem?_of_mem hb
        rw [hsame (m + 1) b (by omega) (by simpa using hm)]
      simp [hp, hq, hrest]
    | succ k =>
      have hhead : p x = q x := hsame 0 x (by omega) rfl
      have hrest := ih (k := k) (by simpa using hk) fun m b hm hb =>
        hsame (m + 1) b (by omega) (by simpa using hb)
      simp only [List.countP_cons, hhead, hrest]
      omega

/-- Around a loop there is one loop more than around its parent: the parent itself. -/
theorem Proper.loopsAround_of_parent (hp : nest.Proper) (hne : xs ≠ [])
    (hparent : nest.parent xs = some i) (hi : nest[i]? = some ys) :
    nest.loopsAround xs = nest.loopsAround ys + 1 := by
  obtain ⟨ys', hi', hin, hleast⟩ := smallest_eq_some hparent
  obtain rfl := Option.some.inj (hi.symm.trans hi')
  obtain ⟨b, hb⟩ := List.exists_mem_of_ne_nil xs hne
  refine countP_eq_succ hi hin not_strictlyWithin_self fun j zs hji hj => ?_
  rw [Bool.eq_iff_iff]
  refine ⟨fun hz => ?_, strictlyWithin_trans hin⟩
  exact hp.strictlyWithin (Ne.symm hji) hi hj ((strictlyWithin_iff.mp hin).2 b hb)
    ((strictlyWithin_iff.mp hz).2 b hb) (hleast j zs hj hz)

theorem loopsAround_of_outermost (hparent : nest.parent xs = none) : nest.loopsAround xs = 0 := by
  rw [loopsAround, List.countP_eq_zero]
  intro ys hys
  obtain ⟨j, hj⟩ := List.getElem?_of_mem hys
  simpa using smallest_eq_none hparent hj

/-- The walk up the chain of parents passes all loops around a loop. -/
theorem Proper.climb_eq (hp : nest.Proper) (hne : ∀ xs ∈ nest, xs ≠ []) {n : Nat}
    (hxs : xs ∈ nest) (hn : nest.loopsAround xs ≤ n) :
    climb (nest.map nest.parent) n (nest.parent xs) = nest.loopsAround xs := by
  induction n generalizing xs with
  | zero =>
    have hzero : climb (nest.map nest.parent) 0 (nest.parent xs) = 0 := by simp [climb]
    omega
  | succ n ih =>
    cases hparent : nest.parent xs with
    | none => rw [loopsAround_of_outermost hparent, climb]; simp
    | some i =>
      obtain ⟨ys, hi, -⟩ := smallest_eq_some hparent
      have hstep := hp.loopsAround_of_parent (hne xs hxs) hparent hi
      have hup : (nest.map nest.parent).getD i none = nest.parent ys := by simp [hi]
      rw [climb, hup, ih (List.mem_of_getElem? hi) (by omega), hstep]

/-- The level of a loop is the number of loops around it. -/
theorem Proper.levels_getElem? (hp : nest.Proper) (hne : ∀ xs ∈ nest, xs ≠ [])
    (hi : nest[i]? = some xs) : nest.levels[i]? = some (nest.loopsAround xs) := by
  have hxs := List.mem_of_getElem? hi
  rw [levels, List.getElem?_map, List.getElem?_map, hi, List.length_map]
  exact congrArg some (hp.climb_eq hne hxs (Nat.le_of_lt (loopsAround_lt_length hxs)))

/-- A loop lies deeper than the loops around it. -/
theorem loopsAround_lt (hmem : ys ∈ nest) (h : strictlyWithin xs ys = true) :
    nest.loopsAround ys < nest.loopsAround xs := by
  -- what lies around `ys` lies around `xs`, and so does `ys` itself
  obtain ⟨first, rest, rfl⟩ := List.append_of_mem hmem
  have hle : ∀ zss : Nest, zss.countP (strictlyWithin ys) ≤ zss.countP (strictlyWithin xs) :=
    fun zss => List.countP_mono_left fun zs _ hzs => strictlyWithin_trans h hzs
  have hfirst := hle first
  have hrest := hle rest
  simp only [loopsAround, List.countP_append, List.countP_cons, h, not_strictlyWithin_self,
    Bool.false_eq_true, ↓reduceIte]
  omega

/-- The innermost loop around a block is the smallest one around it. -/
theorem Proper.innermost_le (hp : nest.Proper) (hne : ∀ xs ∈ nest, xs ≠ [])
    (h : nest.innermost b = some i) :
    ∃ xs, nest[i]? = some xs ∧ b ∈ xs ∧
      ∀ (j : Nat) ys, nest[j]? = some ys → b ∈ ys → xs.length ≤ ys.length := by
  obtain ⟨xs, hi, hb, hmax⟩ := innermost_eq_some h
  refine ⟨xs, hi, hb, fun j ys hj hby => ?_⟩
  have hlevel := hmax j ys hj hby
  simp only [List.getD_eq_getElem?_getD, hp.levels_getElem? hne hi, hp.levels_getElem? hne hj,
    Option.getD_some] at hlevel
  by_contra hlt
  have hij : j ≠ i := by
    rintro rfl
    obtain rfl := Option.some.inj (hi.symm.trans hj)
    exact hlt (Nat.le_refl _)
  -- a smaller loop would lie in this one, and deeper
  have hin := hp.strictlyWithin hij hj hi hby hb (by omega)
  have := loopsAround_lt (List.mem_of_getElem? hi) hin
  omega

/-! ### Regions

A region is a loop or, as `none`, the whole procedure. -/

def Beneath (nest : Nest) (region : Option Nat) (xs : List Nat) : Prop :=
  ∀ i : Nat, region = some i → ∃ ys, nest[i]? = some ys ∧ strictlyWithin xs ys = true

/-- The largest loop around a block beneath a region is a child of the region. -/
theorem Proper.parent_of_largest (hp : nest.Proper) {region : Option Nat} {b : Nat}
    (hb : b ∈ xs) (hR : nest.Beneath region xs)
    (hmax : ∀ (j : Nat) ys, nest[j]? = some ys → b ∈ ys → nest.Beneath region ys →
      ys.length ≤ xs.length) : nest.parent xs = region := by
  cases hpar : nest.parent xs with
  | none =>
    cases region with
    | none => rfl
    | some i =>
      obtain ⟨ys, hi, hsw⟩ := hR i rfl
      rw [smallest_eq_none hpar hi] at hsw
      cases hsw
  | some j =>
    obtain ⟨zs, hj, hsw, hmin⟩ := smallest_eq_some hpar
    have hzs := strictlyWithin_iff.mp hsw
    -- a loop around `xs` that lay beneath the region would be a larger choice
    have habove : ¬ nest.Beneath region zs := fun hz => by
      have := hmax j zs hj (hzs.2 b hb) hz
      omega
    cases region with
    | none => exact absurd (fun _ h => by cases h) habove
    | some i =>
      obtain ⟨ys, hi, hys⟩ := hR i rfl
      by_contra hne
      have hji : j ≠ i := fun h => hne (h ▸ rfl)
      have hby : b ∈ ys := (strictlyWithin_iff.mp hys).2 b hb
      refine habove fun k hk => ?_
      obtain rfl : i = k := Option.some.inj hk
      exact ⟨ys, hi, hp.strictlyWithin hji hj hi (hzs.2 b hb) hby (hmin i ys hi hys)⟩

/-- A region is the innermost one around a block if no loop around the block lies beneath it. -/
theorem Proper.innermost_of_none (hp : nest.Proper) (hne : ∀ xs ∈ nest, xs ≠ [])
    {region : Option Nat} {b : Nat}
    (hin : ∀ i : Nat, region = some i → ∃ ys, nest[i]? = some ys ∧ b ∈ ys)
    (hno : ∀ (j : Nat) ys, nest[j]? = some ys → b ∈ ys → ¬ nest.Beneath region ys) :
    nest.innermost b = region := by
  cases hinn : nest.innermost b with
  | none =>
    cases region with
    | none => rfl
    | some i =>
      obtain ⟨ys, hi, hb⟩ := hin i rfl
      exact absurd hb (innermost_eq_none hinn hi)
  | some j =>
    obtain ⟨zs, hj, hbz, hmin⟩ := hp.innermost_le hne hinn
    cases region with
    | none => exact absurd (fun _ h => by cases h) (hno j zs hj hbz)
    | some i =>
      obtain ⟨ys, hi, hby⟩ := hin i rfl
      by_contra hne
      have hji : j ≠ i := fun h => hne (h ▸ rfl)
      refine hno j zs hj hbz fun k hk => ?_
      obtain rfl : i = k := Option.some.inj hk
      exact ⟨ys, hi, hp.strictlyWithin hji hj hi hbz hby (hmin i ys hi hby)⟩

end CycleBounds.Code.Nest
