import CycleBounds.Cache.Ways
import Mathlib.Data.List.Nodup

/-!
# The ways of a set

Nothing in the type of the ways of a set keeps a line from being listed in two of them. The
operations do: a touch takes a line out before it puts it in front, and a merge puts each line into
one way (`Once`). Ways in which each line is listed once give it one age, and the operations change
ages by the rules of the domains.

* `holds_touch` and `holds_combine`: which lines are in which way after an operation.
* `Once.touch` and `Once.combine`: no line gets into two ways.
* `age?_touch` and `age?_combine`: the ages after an operation.
-/

namespace CycleBounds.Cache

namespace Ways

variable {rule : Aging} {w v : Ways} {i j a line l : Nat}

/-! ### Lines in ways -/

/-- A line is listed in the way of an age. -/
def Holds (w : Ways) (age line : Nat) : Prop :=
  ∃ way, w[age]? = some way ∧ way.contains line

/-- No line is listed in two ways. -/
def Once (w : Ways) : Prop :=
  ∀ line i j, w.Holds i line → w.Holds j line → i = j

theorem Holds.lt_length (h : w.Holds i l) : i < w.length := by
  obtain ⟨way, hway, -⟩ := h
  exact (List.getElem?_eq_some_iff.mp hway).1

theorem holds_of_age? (h : w.age? l = some a) : w.Holds a l := by
  obtain ⟨hlt, hl, -⟩ := List.findIdx?_eq_some_iff_getElem.mp h
  exact ⟨w[a], List.getElem?_eq_getElem hlt, hl⟩

/-- A line without an age is listed in no way. -/
theorem age?_eq_none_iff : w.age? l = none ↔ ∀ i, ¬ w.Holds i l := by
  rw [age?, List.findIdx?_eq_none_iff]
  constructor
  · rintro h i ⟨way, hway, hl⟩
    rw [h way (List.mem_of_getElem? hway)] at hl
    cases hl
  · intro h way hway
    obtain ⟨i, hi⟩ := List.mem_iff_getElem?.mp hway
    exact Bool.eq_false_iff.mpr fun hl => h i ⟨way, hi, hl⟩

/-- The age of a line is its only way. -/
theorem Once.age?_eq_some_iff (hw : w.Once) : w.age? l = some a ↔ w.Holds a l := by
  refine ⟨holds_of_age?, fun h => ?_⟩
  cases hage : w.age? l with
  | none => exact absurd h (age?_eq_none_iff.mp hage a)
  | some b => rw [hw l b a (holds_of_age? hage) h]

theorem Once.age?_eq {f : Option Nat} (hw : w.Once) (h : ∀ i, w.Holds i l ↔ f = some i) :
    w.age? l = f :=
  Option.ext fun i => hw.age?_eq_some_iff.trans (h i)

/-- Lines are listed with the ages of their ways. -/
theorem mem_lines : (a, l) ∈ w.lines ↔ w.Holds a l := by
  simp only [lines, List.mem_flatMap, List.mem_map, Prod.mk.injEq, Prod.exists,
    List.mem_zipIdx_iff_getElem?, KeySet.mem_keys_iff_contains, Holds]
  constructor
  · rintro ⟨way, age, hway, line, hline, rfl, rfl⟩
    exact ⟨way, hway, hline⟩
  · rintro ⟨way, hway, hline⟩
    exact ⟨way, a, hway, l, hline, rfl, rfl⟩

/-- Ways that list the same lines are equal. -/
theorem eq_of_holds_iff (hlen : w.length = v.length) (h : ∀ i l, w.Holds i l ↔ v.Holds i l) :
    w = v := by
  refine List.ext_getElem hlen fun i hi hi' => KeySet.eq_of_contains_iff fun l => ?_
  have hil := h i l
  simpa [Holds, List.getElem?_eq_getElem hi, List.getElem?_eq_getElem hi'] using hil

/-- The lines of the youngest ways. -/
theorem mem_take {n : Nat} : l ∈ (w.take n).flatMap (·.keys) ↔ ∃ a < n, w.Holds a l := by
  simp only [List.mem_flatMap, KeySet.mem_keys_iff_contains, Holds]
  constructor
  · rintro ⟨way, hway, hl⟩
    obtain ⟨a, ha, rfl⟩ := List.mem_take_iff_getElem.mp hway
    exact ⟨a, by omega, w[a], List.getElem?_eq_getElem (by omega), hl⟩
  · rintro ⟨a, hlt, way, hway, hl⟩
    exact ⟨way, List.mem_iff_getElem?.mpr ⟨a, by rw [List.getElem?_take_of_lt hlt, hway]⟩, hl⟩

/-- The lines of the first ways are all different if no line is listed twice. -/
theorem Once.nodup_take (hw : w.Once) (n : Nat) : ((w.take n).flatMap (·.keys)).Nodup := by
  rw [List.nodup_flatMap]
  refine ⟨fun way _ => way.nodup_keys, ?_⟩
  rw [List.pairwise_iff_getElem]
  intro i j hi hj hlt l hl hl'
  rw [List.length_take] at hi hj
  have hholds : ∀ k, (hk : k < w.length) → l ∈ w[k].keys → w.Holds k l := fun k hk h =>
    ⟨w[k], List.getElem?_eq_getElem hk, KeySet.mem_keys_iff_contains.mp h⟩
  simp only [List.getElem_take] at hl hl'
  have := hw l i j (hholds i (by omega) hl) (hholds j (by omega) hl')
  omega

/-! ### Changes of one way -/

theorem not_holds_empty (ages : Nat) : ¬ (empty ages).Holds i l := by
  rintro ⟨way, hway, hl⟩
  obtain ⟨-, rfl⟩ := List.mem_replicate.mp (List.mem_of_getElem? hway)
  cases hl

theorem once_empty (ages : Nat) : (empty ages).Once :=
  fun _ _ _ h => absurd h (not_holds_empty ages)

theorem holds_modify {f : KeySet Nat → KeySet Nat} : Holds (w.modify i f) j l ↔
    ∃ way, w[j]? = some way ∧ (if i = j then f way else way).contains l := by
  simp only [Holds, List.getElem?_modify]
  cases w[j]? <;> simp

/-- To add a line to a way lists it there, if the way exists. -/
theorem holds_add : (w.add i line).Holds j l ↔ w.Holds j l ∨ i = j ∧ l = line ∧ j < w.length := by
  rw [add, holds_modify]
  by_cases hij : i = j
  · simp only [hij, if_true, KeySet.contains_insert, Holds, true_and]
    constructor
    · rintro ⟨way, hway, rfl | hl⟩
      · exact .inr ⟨rfl, (List.getElem?_eq_some_iff.mp hway).1⟩
      · exact .inl ⟨way, hway, hl⟩
    · rintro (⟨way, hway, hl⟩ | ⟨hl, hlt⟩)
      · exact ⟨way, hway, .inr hl⟩
      · exact ⟨w[j], List.getElem?_eq_getElem hlt, .inl hl⟩
  · simp [hij, Holds]

theorem holds_remove : (w.remove i line).Holds j l ↔ w.Holds j l ∧ ¬ (i = j ∧ l = line) := by
  rw [remove, holds_modify]
  by_cases hij : i = j
  · simp [hij, Holds, ← and_assoc]
  · simp [hij, Holds]

@[simp] theorem length_add : (w.add i line).length = w.length :=
  List.length_modify _ _ _

@[simp] theorem length_remove : (w.remove i line).length = w.length :=
  List.length_modify _ _ _

/-! ### Touches -/

theorem contains_getD : (w.getD i ∅).contains l ↔ w.Holds i l := by
  rw [List.getD_eq_getElem?_getD, Holds]
  cases w[i]? <;> simp

theorem holds_set_empty : Holds (w.set i ∅) j l ↔ w.Holds j l ∧ j ≠ i := by
  simp only [Holds, List.getElem?_set]
  by_cases hij : i = j
  · subst hij
    by_cases hlt : i < w.length <;> simp [hlt]
  · simp [hij, Ne.symm hij]

/-- To unite a way with other lines lists them there, if the way exists. -/
theorem holds_unite {moved : KeySet Nat} : Holds (w.modify i (KeySet.union · moved)) j l ↔
    w.Holds j l ∨ i = j ∧ j < w.length ∧ moved.contains l := by
  rw [holds_modify]
  by_cases hij : i = j
  · simp only [hij, if_true, KeySet.contains_union, Holds, true_and]
    constructor
    · rintro ⟨way, hway, hl | hl⟩
      · exact .inl ⟨way, hway, hl⟩
      · exact .inr ⟨(List.getElem?_eq_some_iff.mp hway).1, hl⟩
    · rintro (⟨way, hway, hl⟩ | ⟨hlt, hl⟩)
      · exact ⟨way, hway, .inl hl⟩
      · exact ⟨w[j], List.getElem?_eq_getElem hlt, .inr hl⟩
  · simp [hij, Holds]

@[simp] theorem length_shift : (w.shift rule i).length = w.length := by
  unfold shift
  split
  · simp
  · split <;> simp

/-- A shift makes the lines of one way older. -/
theorem holds_shift (hlen : w.length = rule.ages) : (w.shift rule a).Holds j l ↔
    ∃ i, w.Holds i l ∧ (if i = a then rule.grow (a + 1) a else some i) = some j := by
  have hgrow : rule.grow (a + 1) a =
      if a + 1 < rule.ages then some (a + 1) else if rule.sticky then some a else none := by
    simp [Aging.grow]
  rw [hgrow]
  unfold shift
  split
  case isTrue hlt =>
    rw [holds_unite, holds_set_empty, contains_getD, List.length_set]
    grind
  case isFalse hlt =>
    split
    case isTrue hsticky =>
      rw [holds_unite, holds_set_empty, contains_getD, List.length_set]
      grind [Holds.lt_length]
    case isFalse hsticky =>
      rw [holds_set_empty]
      grind

@[simp] theorem length_growOlder {limit : Nat} : (w.growOlder rule limit).length = w.length := by
  induction limit generalizing w with
  | zero => rfl
  | succ limit ih => rw [growOlder, ih, length_shift]

/-- The ways are moved one by one, so that no line is moved twice. -/
theorem holds_growOlder {limit : Nat} (hlen : w.length = rule.ages) :
    (w.growOlder rule limit).Holds j l ↔ ∃ i, w.Holds i l ∧ rule.grow limit i = some j := by
  induction limit generalizing w with
  | zero => simp [growOlder, Aging.grow]
  | succ limit ih =>
    -- what has been moved out of the last way is at or above it, and stays there
    have hstep : ∀ i, rule.grow (limit + 1) i =
        (if i = limit then rule.grow (limit + 1) limit else some i).bind (rule.grow limit) := by
      intro i
      unfold Aging.grow
      grind
    rw [growOlder, ih (length_shift.trans hlen)]
    simp only [holds_shift hlen]
    constructor
    · rintro ⟨k, ⟨i, hi, hk⟩, hj⟩
      refine ⟨i, hi, ?_⟩
      rw [hstep, hk]
      exact hj
    · rintro ⟨i, hi, hj⟩
      rw [hstep, Option.bind_eq_some_iff] at hj
      obtain ⟨k, hk, hj⟩ := hj
      exact ⟨k, ⟨i, hi, hk⟩, hj⟩

@[simp] theorem length_without : (w.without line).length = w.length := by
  unfold without
  split <;> simp

/-- A line is taken out of the only way that it is in. -/
theorem holds_without (hw : w.Once) :
    (w.without line).Holds j l ↔ w.Holds j l ∧ l ≠ line := by
  unfold without
  cases hage : w.age? line with
  | none =>
    refine ⟨fun hj => ⟨hj, ?_⟩, And.left⟩
    rintro rfl
    exact age?_eq_none_iff.mp hage j hj
  | some a =>
    refine holds_remove.trans (and_congr_right fun hj => not_iff_not.mpr ⟨And.right, ?_⟩)
    rintro rfl
    exact ⟨hw l a j (holds_of_age? hage) hj, rfl⟩

@[simp] theorem length_touch : (w.touch rule line).length = w.length := by
  simp [touch]

/-- A touched line is in the youngest way only, and all others are where the rule puts them. -/
theorem holds_touch (hlen : w.length = rule.ages) (hpos : 0 < rule.ages) (hw : w.Once) :
    (w.touch rule line).Holds j l ↔ if l = line then j = 0 else
      ∃ i, w.Holds i l ∧ rule.grow (rule.limit (w.age? line)) i = some j := by
  rw [touch, holds_add, holds_growOlder (length_without.trans hlen), length_growOlder,
    length_without, hlen]
  simp only [holds_without hw]
  by_cases hl : l = line
  · simp only [hl, ne_eq, not_true_eq_false, and_false, false_and, exists_false, false_or,
      true_and, if_true]
    constructor
    · rintro ⟨rfl, -⟩
      rfl
    · rintro rfl
      exact ⟨rfl, hpos⟩
  · simp [hl]

/-- To make a line the youngest lists no line twice. -/
theorem Once.touch (hlen : w.length = rule.ages) (hpos : 0 < rule.ages) (hw : w.Once)
    (line : Nat) : (w.touch rule line).Once := by
  intro l i j hi hj
  rw [holds_touch hlen hpos hw] at hi hj
  split at hi
  case isTrue hl =>
    rw [if_pos hl] at hj
    rw [hi, hj]
  case isFalse hl =>
    rw [if_neg hl] at hj
    obtain ⟨k, hk, hki⟩ := hi
    obtain ⟨k', hk', hkj⟩ := hj
    rw [hw l k k' hk hk', hkj] at hki
    exact (Option.some.inj hki).symm

theorem age?_touch (hlen : w.length = rule.ages) (hpos : 0 < rule.ages) (hw : w.Once) :
    (w.touch rule line).age? l = if l = line then some 0 else
      (w.age? l).bind (rule.grow (rule.limit (w.age? line))) := by
  refine (hw.touch hlen hpos line).age?_eq fun i => ?_
  rw [holds_touch hlen hpos hw]
  split
  · rw [Option.some.injEq, eq_comm]
  · simp only [Option.bind_eq_some_iff, hw.age?_eq_some_iff]

/-! ### Merges -/

theorem fill_cons {place : Nat → Nat → Option Nat} {lines : List (Nat × Nat)} :
    fill place ((a, line) :: lines) w = fill place lines
      (match place a line with
        | some new => w.add new line
        | none => w) :=
  rfl

@[simp] theorem length_fill {place : Nat → Nat → Option Nat} {lines : List (Nat × Nat)} :
    (fill place lines w).length = w.length := by
  induction lines generalizing w with
  | nil => rfl
  | cons e lines ih =>
    rw [fill_cons, ih]
    split <;> simp

/-- Filled lines are listed where they are placed, if that way exists. -/
theorem holds_fill {place : Nat → Nat → Option Nat} {lines : List (Nat × Nat)} :
    (fill place lines w).Holds j l ↔ w.Holds j l ∨
      j < w.length ∧ ∃ i, (i, l) ∈ lines ∧ place i l = some j := by
  induction lines generalizing w with
  | nil => simp [fill]
  | cons e lines ih =>
    obtain ⟨a, line⟩ := e
    rw [fill_cons, ih]
    cases hplace : place a line with
    | none => grind
    | some b =>
      simp only [holds_add, length_add]
      grind

/-- The age of a line after a merge, by its ages before. -/
def mergedAge (union : Bool) (pick : Nat → Nat → Nat) : Option Nat → Option Nat → Option Nat
  | some a, some b => some (pick a b)
  | some a, none => if union then some a else none
  | none, b => if union then b else none

@[simp] theorem length_combine {union : Bool} {pick : Nat → Nat → Nat} :
    (w.combine union pick v).length = w.length := by
  unfold combine
  split <;> simp [empty]

/-- A pass over the lines of one side finds each line at its age. -/
theorem holds_pass {place : Nat → Nat → Option Nat} {u : Ways} (hu : u.Once) :
    (fill place u.lines w).Holds j l ↔ w.Holds j l ∨
      j < w.length ∧ (u.age? l).bind (place · l) = some j := by
  simp only [holds_fill, mem_lines, Option.bind_eq_some_iff, hu.age?_eq_some_iff]

/-- The two passes put each line into one way. -/
theorem holds_combine {union : Bool} {pick : Nat → Nat → Nat} (hlen : v.length = w.length)
    (hpick : ∀ a b, a < w.length → b < w.length → pick a b < w.length)
    (hw : w.Once) (hv : v.Once) : (w.combine union pick v).Holds j l ↔
      mergedAge union pick (w.age? l) (v.age? l) = some j := by
  have hlw : ∀ a, w.age? l = some a → a < w.length := fun a h => (holds_of_age? h).lt_length
  have hlv : ∀ b, v.age? l = some b → b < w.length := fun b h =>
    hlen ▸ (holds_of_age? h).lt_length
  have hempty : (empty w.length).length = w.length := List.length_replicate
  unfold combine
  cases union with
  | false =>
    simp only [Bool.false_eq_true, if_false, holds_pass hw, not_holds_empty, false_or, hempty]
    cases ha : w.age? l with
    | none => simp [mergedAge]
    | some a =>
      cases hb : v.age? l with
      | none => simp [mergedAge]
      | some b =>
        have hlt : pick a b = j → j < w.length := fun h => h ▸ hpick a b (hlw a ha) (hlv b hb)
        simpa [mergedAge] using hlt
  | true =>
    simp only [if_true, holds_pass hw, holds_pass hv, not_holds_empty, false_or, length_fill,
      hempty]
    cases ha : w.age? l with
    | none =>
      cases hb : v.age? l with
      | none => simp [mergedAge]
      | some b =>
        have hlt : b = j → j < w.length := fun h => h ▸ hlv b hb
        simpa [mergedAge] using hlt
    | some a =>
      cases hb : v.age? l with
      | none =>
        have hlt : a = j → j < w.length := fun h => h ▸ hlw a ha
        simpa [mergedAge] using hlt
      | some b =>
        have hlt : pick a b = j → j < w.length := fun h => h ▸ hpick a b (hlw a ha) (hlv b hb)
        simpa [mergedAge] using hlt

section Combine

variable {union : Bool} {pick : Nat → Nat → Nat}

theorem Once.combine (hlen : v.length = w.length)
    (hpick : ∀ a b, a < w.length → b < w.length → pick a b < w.length) (hw : w.Once)
    (hv : v.Once) : (w.combine union pick v).Once := by
  intro l i j hi hj
  rw [holds_combine hlen hpick hw hv] at hi hj
  exact Option.some.inj (hi.symm.trans hj)

theorem age?_combine (hlen : v.length = w.length)
    (hpick : ∀ a b, a < w.length → b < w.length → pick a b < w.length) (hw : w.Once)
    (hv : v.Once) :
    (w.combine union pick v).age? l = mergedAge union pick (w.age? l) (v.age? l) :=
  (hw.combine hlen hpick hv).age?_eq fun _ => holds_combine hlen hpick hw hv

end Combine

end Ways

end CycleBounds.Cache
