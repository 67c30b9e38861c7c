import CycleBounds.Proofs.Run.Places
import Mathlib.Data.Nat.Digits.Defs

/-!
# Contexts as numbers

A context is stored as a binary number, and stands for a list with one iteration per loop. Nothing
is lost between the two: the list can be read back from the number, and the number from the list. So
different iterations never share a record. The numbers of one depth are ordered like their lists,
and all of them are enumerated.

* `number`: the binary number of a list of iterations. `number_lt_iff` compares two of them.
* `iterations_foldl_nest`, `foldl_iterations`: lists and contexts are read back.
* `compare_eq_lt_iff`: contexts are ordered by their depths and their lists.
* `all_spec`: the contexts of one depth, each of them once and in this order.
* `encoding_bijective`: all of it, for the contexts that are reached by entering and leaving loops.
-/

namespace CycleBounds

/-- The first iteration of a loop comes before the steady ones. -/
def Iteration.Before (a b : Iteration) : Prop :=
  a = .first ∧ b = .steady

namespace Context

variable {c d : Context} {it : Iteration} {its : List Iteration} {depth index : Nat}

/-- The contexts that are reached by entering and leaving loops. -/
inductive Reachable : Context → Prop
  | root : Reachable root
  | enter {c c' : Context} {it : Iteration} : Reachable c → c.enter it = .ok c' → Reachable c'
  | leave {c c' : Context} : Reachable c → c.leave? = some c' → Reachable c'

/-- Contexts of fewer loops come first, and those of as many loops in the lexicographic order of
their iterations. -/
def Before (c d : Context) : Prop :=
  c.depth < d.depth ∨ c.depth = d.depth ∧ List.Lex Iteration.Before c.iterations d.iterations

/-! ### Numbers -/

/-- The binary number of some iterations, the first of which is the most significant digit. -/
def number (its : List Iteration) : Nat :=
  Nat.ofDigits 2 (its.map Iteration.digit).reverse

@[simp] theorem number_nil : number [] = 0 := rfl

theorem number_cons (it : Iteration) (its : List Iteration) :
    number (it :: its) = it.digit * 2 ^ its.length + number its := by
  rw [number, List.map_cons, List.reverse_cons, Nat.ofDigits_append, Nat.ofDigits_singleton,
    List.length_reverse, List.length_map, Nat.add_comm, Nat.mul_comm, number]

/-- A list of iterations has a number that its length allows. -/
theorem number_lt (its : List Iteration) : number its < 2 ^ its.length := by
  induction its with
  | nil => decide
  | cons it its ih =>
    have hdigit : it.digit * 2 ^ its.length ≤ 1 * 2 ^ its.length :=
      Nat.mul_le_mul_right _ (Nat.le_of_lt_succ it.digit_lt_two)
    rw [number_cons, List.length_cons, Nat.pow_succ]
    omega

/-- Numbers of as many digits are ordered like their digits. -/
theorem number_lt_iff {its its' : List Iteration} (hlength : its.length = its'.length) :
    number its < number its' ↔ List.Lex Iteration.Before its its' := by
  induction its generalizing its' with
  | nil =>
    obtain rfl := List.eq_nil_of_length_eq_zero hlength.symm
    simp
  | cons it its ih =>
    cases its' with
    | nil => cases hlength
    | cons it' its' =>
      have hlength := Nat.succ.inj hlength
      have hlt := number_lt its
      have hlt' := number_lt its'
      rw [hlength] at hlt
      rw [number_cons, number_cons, hlength, List.cons_lex_cons_iff, ← ih hlength]
      -- The first digit weighs more than all the others together.
      cases it <;> cases it' <;> simp [Iteration.digit, Iteration.Before] <;> omega

/-! ### Reading back -/

/-- To nest a context adds an iteration at its end. -/
theorem iterations_nest (c : Context) (it : Iteration) :
    (c.nest it).iterations = c.iterations ++ [it] := by
  have hlt := it.digit_lt_two
  have hhalf : (c.index * 2 + it.digit) / 2 = c.index := by omega
  have hdigit : (c.index * 2 + it.digit) % 2 = it.digit := by omega
  have hlast : Iteration.ofDigit it.digit = it := by cases it <;> rfl
  show digits c.depth ((c.index * 2 + it.digit) / 2) ++
    [.ofDigit ((c.index * 2 + it.digit) % 2)] = _
  rw [hhalf, hdigit, hlast]
  rfl

theorem iterations_foldl_nest (its : List Iteration) (c : Context) :
    (its.foldl nest c).iterations = c.iterations ++ its := by
  induction its generalizing c with
  | nil => simp
  | cons it its ih => rw [List.foldl_cons, ih, iterations_nest, List.append_assoc]; rfl

/-- Nested iterations extend the index of a context by their own number. -/
theorem index_foldl_nest (its : List Iteration) (c : Context) :
    (its.foldl nest c).index = c.index * 2 ^ its.length + number its := by
  induction its generalizing c with
  | nil => simp
  | cons it its ih =>
    have hnest : (c.nest it).index = c.index * 2 + it.digit := rfl
    rw [List.foldl_cons, ih, hnest, number_cons, List.length_cons, Nat.pow_succ, Nat.add_mul,
      Nat.mul_assoc, Nat.mul_comm 2, Nat.add_assoc]

/-- A context is made of its iterations. -/
theorem foldl_iterations (c : Context) : c.iterations.foldl nest root = c := by
  obtain ⟨its, rfl⟩ := c.refines_root
  rw [iterations_foldl_nest]
  rfl

theorem length_iterations (c : Context) : c.iterations.length = c.depth := by
  have hdepth := depth_foldl_nest c.iterations root
  rw [foldl_iterations] at hdepth
  exact (hdepth.trans (Nat.zero_add _)).symm

theorem index_eq_number (c : Context) : c.index = number c.iterations := by
  have hindex := index_foldl_nest c.iterations root
  rw [foldl_iterations] at hindex
  rw [hindex]
  show 0 * _ + _ = _
  rw [Nat.zero_mul, Nat.zero_add]

/-- Loops are entered one after the other, as long as there are not too many. -/
theorem foldlM_enter (h : c.depth + its.length ≤ maxDepth) :
    its.foldlM enter c = .ok (its.foldl nest c) := by
  induction its generalizing c with
  | nil => rfl
  | cons it its ih =>
    rw [List.length_cons] at h
    rw [List.foldlM_cons, enter, if_pos (by omega)]
    exact ih (by show c.depth + 1 + its.length ≤ maxDepth; omega)

theorem ofIterations_eq (h : its.length ≤ maxDepth) :
    ofIterations its = .ok (its.foldl nest root) :=
  foldlM_enter (by show 0 + its.length ≤ maxDepth; omega)

theorem leave?_nest (c : Context) (it : Iteration) : (c.nest it).leave? = some c := by
  have hlt := it.digit_lt_two
  have hhalf : (c.index * 2 + it.digit) / 2 = c.index := by omega
  simp only [nest, leave?, hhalf]

theorem innermost?_eq (c : Context) : c.innermost? = c.iterations.getLast? := by
  obtain ⟨depth, index, hlt⟩ := c
  cases depth with
  | zero => rfl
  | succ depth => simp [innermost?, iterations, digits]

/-! ### Reachable contexts -/

/-- No context that is reached is deeper than the limit. -/
theorem Reachable.depth_le (h : Reachable c) : c.depth ≤ maxDepth := by
  induction h with
  | root => exact Nat.zero_le _
  | enter _ henter _ =>
    -- entering a loop checks the depth
    unfold Context.enter at henter
    split at henter
    · rename_i hlt
      cases henter
      exact hlt
    · cases henter
  | @leave c _ _ hleave ih =>
    obtain ⟨depth, index, hlt⟩ := c
    cases depth with
    | zero => cases hleave
    | succ depth =>
      cases hleave
      exact Nat.le_of_succ_le ih

/-- Contexts that are entered from a reached one are reached. -/
theorem Reachable.foldlM_enter (hc : Reachable c) (h : its.foldlM Context.enter c = .ok d) :
    Reachable d := by
  induction its generalizing c with
  | nil =>
    obtain rfl := pure_eq_ok.mp h
    exact hc
  | cons it its ih =>
    obtain ⟨c', henter, h⟩ := foldlM_cons_eq_ok.mp h
    exact ih (hc.enter henter) h

theorem ofIterations_iterations (h : c.depth ≤ maxDepth) : ofIterations c.iterations = .ok c := by
  rw [ofIterations_eq, foldl_iterations]
  rwa [length_iterations]

/-- The depth is all that keeps a context from being reached. -/
theorem reachable_of_depth_le (h : c.depth ≤ maxDepth) : Reachable c :=
  Reachable.root.foldlM_enter (ofIterations_iterations h)

/-! ### The order and the enumeration -/

theorem compare_eq_lt :
    compare c d = .lt ↔ c.depth < d.depth ∨ c.depth = d.depth ∧ c.index < d.index := by
  show (compare c.depth d.depth).then (compare c.index d.index) = .lt ↔ _
  rw [Ordering.then_eq_lt, Nat.compare_eq_lt, Nat.compare_eq_eq, Nat.compare_eq_lt]

theorem compare_eq_lt_iff : compare c d = .lt ↔ c.Before d := by
  rw [compare_eq_lt, Before]
  refine or_congr_right (and_congr_right fun hdepth => ?_)
  rw [index_eq_number, index_eq_number, number_lt_iff]
  rw [length_iterations, length_iterations, hdepth]

/-- A context is given back by its depth and its index. -/
theorem ofIndex?_eq_some : ofIndex? depth index = some c ↔ c.depth = depth ∧ c.index = index := by
  unfold ofIndex?
  split
  · rw [Option.some.injEq]
    constructor
    · rintro rfl
      exact ⟨rfl, rfl⟩
    · rintro ⟨rfl, rfl⟩
      rfl
  · rename_i hge
    constructor
    · rintro ⟨⟩
    · rintro ⟨rfl, rfl⟩
      exact absurd c.index_lt hge

/-- All contexts of one depth are enumerated once, in their order. -/
theorem all_spec (h : depth < maxDepth) :
    ∃ cs, all depth = .ok cs ∧ (∀ c, c ∈ cs ↔ c.depth = depth) ∧ cs.Pairwise Before := by
  refine ⟨(List.range (twoPow depth)).filterMap (ofIndex? depth), ?_, fun c => ?_, ?_⟩
  · rw [all, slice, if_pos h, Nat.sub_zero, Nat.min_self, List.range_eq_range']
  · rw [List.mem_filterMap]
    constructor
    · rintro ⟨index, -, hindex⟩
      exact (ofIndex?_eq_some.mp hindex).1
    · rintro rfl
      exact ⟨c.index, List.mem_range.mpr c.index_lt, ofIndex?_eq_some.mpr ⟨rfl, rfl⟩⟩
  · -- at one depth the order of contexts is that of their indices
    rw [List.pairwise_filterMap]
    refine List.pairwise_lt_range.imp fun {i j} hlt c hc d hd => ?_
    obtain ⟨hdepth, rfl⟩ := ofIndex?_eq_some.mp hc
    obtain ⟨hdepth', rfl⟩ := ofIndex?_eq_some.mp hd
    rw [← compare_eq_lt_iff, compare_eq_lt]
    exact .inr ⟨hdepth.trans hdepth'.symm, hlt⟩

theorem not_before_self (c : Context) : ¬ c.Before c := by
  rw [← compare_eq_lt_iff, Std.ReflOrd.compare_self]
  rintro ⟨⟩

/-- Contexts and lists of iterations correspond. A list of at most 63 iterations gives a context,
from which it is read back, and whose index is the binary number of the list. A context that is
reached is given by its iterations, the last of which is the innermost one; entering a loop and
leaving it again comes back to it. Contexts are ordered by their depths and then like their lists,
and those of one depth are enumerated in this order, each of them once. -/
theorem encoding_bijective :
    (∀ its : List Iteration, its.length ≤ 63 → ∃ c, ofIterations its = .ok c ∧ Reachable c ∧
      c.iterations = its ∧ c.depth = its.length ∧ c.index = number its) ∧
    (∀ c, Reachable c → ofIterations c.iterations = .ok c ∧
      (c.depth < 63 → ∀ it, ∃ c', c.enter it = .ok c' ∧ c'.leave? = some c) ∧
      c.innermost? = c.iterations.getLast?) ∧
    (∀ c d, Reachable c → Reachable d → (compare c d = .lt ↔ c.Before d) ∧
      (compare c d = .eq ↔ c = d) ∧ (compare c d = .gt ↔ d.Before c)) ∧
    ∀ depth < 63, ∃ cs, all depth = .ok cs ∧ (∀ c, c ∈ cs ↔ Reachable c ∧ c.depth = depth) ∧
      cs.Nodup ∧ cs.Pairwise Before := by
  refine ⟨fun its hlength => ?_, fun c hc => ⟨ofIterations_iterations hc.depth_le,
      fun hdepth it => ⟨c.nest it, if_pos hdepth, leave?_nest c it⟩, innermost?_eq c⟩,
    fun c d _ _ => ⟨compare_eq_lt_iff, Std.LawfulEqCmp.compare_eq_iff_eq, ?_⟩,
    fun depth hdepth => ?_⟩
  · have hdepth : (its.foldl nest root).depth = its.length :=
      (depth_foldl_nest its root).trans (Nat.zero_add _)
    refine ⟨_, ofIterations_eq hlength, reachable_of_depth_le (hdepth ▸ hlength),
      iterations_foldl_nest its root, hdepth, ?_⟩
    rw [index_eq_number, iterations_foldl_nest]
    rfl
  · rw [Std.OrientedCmp.gt_iff_lt, compare_eq_lt_iff]
  · obtain ⟨cs, hcs, hmem, hordered⟩ := all_spec hdepth
    refine ⟨cs, hcs, fun c => ?_, ?_, hordered⟩
    · rw [hmem]
      constructor
      · rintro rfl
        exact ⟨reachable_of_depth_le (Nat.le_of_lt hdepth), rfl⟩
      · exact And.right
    · refine hordered.imp fun {c d} hbefore heq => ?_
      exact not_before_self d (heq ▸ hbefore)

end Context

end CycleBounds
