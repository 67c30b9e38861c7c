import CycleBounds.Cache.Config
import Mathlib.Data.List.Nodup
import Mathlib.Data.List.TakeWhile

/-!
# Least-recently-used caches

A set-associative cache that replaces the least recently used line of a set. A line of a set has a
position, which is the number of other lines of the set used since.

* `Lru.access` is a fetch of a line.
* `Lru.holdsAt_access_iff`: where the lines of a set are after a fetch; `HoldsAt.access` and
  `HoldsAt.access_cached` bound how far a line is moved back.
* `Lru.before` are the lines used since a line was, and `Lru.before_access` says what a fetch does
  to them.
-/

namespace CycleBounds.Cache

/-- The lines of every set, most recently used first. -/
structure Lru (c : Config) where
  lines : (set : Nat) → List Nat
  nodup : ∀ set, (lines set).Nodup
  length_le : ∀ set, (lines set).length ≤ c.ways

namespace Lru

variable {c : Config}

def empty (c : Config) : Lru c where
  lines _ := []
  nodup _ := .nil
  length_le _ := Nat.zero_le _

/-- A set after the fetch of a line, of which the oldest lines are dropped if there are too many. -/
def touched (ways line : Nat) (lines : List Nat) : List Nat :=
  (line :: lines.erase line).take ways

def access (m : Lru c) (line : Nat) : Lru c where
  lines set :=
    if set = c.setOf line then touched c.ways line (m.lines set) else m.lines set
  nodup set := by
    split
    · refine ((m.nodup set).erase line).cons ?_ |>.take
      exact (m.nodup set).not_mem_erase
    · exact m.nodup set
  length_le set := by
    split
    · exact List.length_take_le _ _
    · exact m.length_le set

def Holds (m : Lru c) (line : Nat) : Prop :=
  line ∈ m.lines (c.setOf line)

instance (m : Lru c) (line : Nat) : Decidable (m.Holds line) :=
  inferInstanceAs (Decidable (_ ∈ _))

def HoldsAt (m : Lru c) (line position : Nat) : Prop :=
  (m.lines (c.setOf line))[position]? = some line

instance (m : Lru c) (line position : Nat) : Decidable (m.HoldsAt line position) :=
  inferInstanceAs (Decidable (_ = _))

theorem holds_iff {m : Lru c} {line : Nat} : m.Holds line ↔ ∃ i, m.HoldsAt line i :=
  List.mem_iff_getElem?

theorem HoldsAt.lt_ways {m : Lru c} {line i : Nat} (h : m.HoldsAt line i) : i < c.ways :=
  Nat.lt_of_lt_of_le (List.getElem?_eq_some_iff.mp h).1 (m.length_le _)

/-! ### Positions after a fetch -/

/-- The position of a line after another line has moved to the front. -/
theorem getElem?_cons_erase {lines : List Nat} {x l k : Nat} (hne : l ≠ x) :
    (x :: lines.erase x)[k]? = some l ↔
      ∃ i, lines[i]? = some l ∧ k = if x ∈ lines.take i then i else i + 1 := by
  induction lines generalizing k with
  | nil =>
    cases k with
    | zero => simp [Ne.symm hne]
    | succ k => simp
  | cons y ys ih =>
    by_cases hy : y = x
    · rw [hy, List.erase_cons_head]
      constructor
      · intro h
        refine ⟨k, h, ?_⟩
        cases k with
        | zero => exact absurd (Option.some.inj h).symm hne
        | succ k => simp
      · rintro ⟨i, h, rfl⟩
        cases i with
        | zero => exact absurd (Option.some.inj h).symm hne
        | succ i => simpa using h
    · rw [List.erase_cons_tail (by simpa using hy)]
      -- compare with the list without `y`, in which all positions are one less
      have hshift : ∀ k, (x :: y :: ys.erase x)[k + 2]? = (x :: ys.erase x)[k + 1]? :=
        fun k => rfl
      constructor
      · intro h
        match k with
        | 0 => exact absurd (Option.some.inj h).symm hne
        | 1 => exact ⟨0, h, by simp⟩
        | k + 2 =>
          rw [hshift] at h
          obtain ⟨i, hi, hk⟩ := ih.mp h
          refine ⟨i + 1, hi, ?_⟩
          simp only [List.take_succ_cons, List.mem_cons, Ne.symm hy, false_or]
          split at hk <;> simp_all
      · rintro ⟨i, h, rfl⟩
        cases i with
        | zero => exact h
        | succ i =>
          have := ih.mpr ⟨i, h, rfl⟩
          simp only [List.take_succ_cons, List.mem_cons, Ne.symm hy, false_or]
          split at this
          · rename_i hmem
            rw [if_pos hmem]
            cases i with
            | zero => simp at hmem
            | succ i => exact this
          · rename_i hmem
            rw [if_neg hmem]
            exact this

theorem holdsAt_access_self (m : Lru c) (line : Nat) : (m.access line).HoldsAt line 0 := by
  have hpos := c.ways_pos
  rw [HoldsAt, access]
  simp only [if_true, touched]
  rw [List.getElem?_take_of_lt hpos]
  rfl

theorem holdsAt_access_of_ne {m : Lru c} {x l i : Nat} (h : c.setOf l ≠ c.setOf x) :
    (m.access x).HoldsAt l i ↔ m.HoldsAt l i := by
  rw [HoldsAt, access]
  simp only [if_neg h]
  rfl

/-- Where another line of the set is after a fetch: it stays in place if the fetched line was before
it, and moves one place back otherwise. -/
theorem holdsAt_access_iff {m : Lru c} {x l k : Nat} (hne : l ≠ x) (hset : c.setOf l = c.setOf x) :
    (m.access x).HoldsAt l k ↔ k < c.ways ∧ ∃ i, m.HoldsAt l i ∧
      ((∃ j < i, m.HoldsAt x j) ∧ k = i ∨ (∀ j < i, ¬ m.HoldsAt x j) ∧ k = i + 1) := by
  have hmem : ∀ i, x ∈ (m.lines (c.setOf x)).take i ↔ ∃ j < i, m.HoldsAt x j := by
    intro i
    simp [List.mem_iff_getElem?, List.getElem?_take, HoldsAt]
  -- the set holds as much of the new list as there are ways
  have hlines : (m.access x).HoldsAt l k ↔
      k < c.ways ∧ (x :: (m.lines (c.setOf x)).erase x)[k]? = some l := by
    simp [HoldsAt, access, touched, hset, List.getElem?_take]
  rw [hlines, getElem?_cons_erase hne]
  refine and_congr_right fun _ => exists_congr fun i => ?_
  rw [HoldsAt, hset]
  refine and_congr_right fun _ => ?_
  by_cases h : x ∈ (m.lines (c.setOf x)).take i
  · have hex := (hmem i).mp h
    simp only [if_pos h, hex, true_and]
    refine ⟨.inl, fun hk => hk.elim id fun hk => ?_⟩
    obtain ⟨j, hj, hx⟩ := hex
    exact absurd hx (hk.1 j hj)
  · have hall : ∀ j < i, ¬ m.HoldsAt x j := fun j hj hx => h ((hmem i).mpr ⟨j, hj, hx⟩)
    rw [if_neg h]
    refine ⟨fun hk => .inr ⟨hall, hk⟩, fun hk => hk.elim (fun hk => ?_) And.right⟩
    exact absurd ((hmem i).mpr hk.1) h

/-- A fetch moves another line back by one place at most. -/
theorem HoldsAt.access {m : Lru c} {l i : Nat} (h : m.HoldsAt l i) (hroom : i + 1 < c.ways)
    (x : Nat) : ∃ k ≤ i + 1, (m.access x).HoldsAt l k := by
  by_cases hne : l = x
  · exact ⟨0, Nat.zero_le _, hne ▸ m.holdsAt_access_self l⟩
  by_cases hset : c.setOf l = c.setOf x
  · by_cases hx : ∃ j < i, m.HoldsAt x j
    · exact ⟨i, Nat.le_succ i,
        (holdsAt_access_iff hne hset).mpr ⟨h.lt_ways, i, h, .inl ⟨hx, rfl⟩⟩⟩
    · have hall : ∀ j < i, ¬ m.HoldsAt x j := fun j hj hxj => hx ⟨j, hj, hxj⟩
      exact ⟨i + 1, Nat.le_refl _,
        (holdsAt_access_iff hne hset).mpr ⟨hroom, i, h, .inr ⟨hall, rfl⟩⟩⟩
  · exact ⟨i, Nat.le_succ i, (holdsAt_access_of_ne hset).mpr h⟩

/-- A fetch of a cached line of the set moves another line no further back than that line was. -/
theorem HoldsAt.access_cached {m : Lru c} {x l i j : Nat} (h : m.HoldsAt l i)
    (hset : c.setOf l = c.setOf x) (hx : m.HoldsAt x j) :
    ∃ k ≤ max i j, (m.access x).HoldsAt l k := by
  by_cases hne : l = x
  · exact ⟨0, Nat.zero_le _, hne ▸ m.holdsAt_access_self l⟩
  rcases Nat.lt_trichotomy j i with hji | rfl | hij
  · exact ⟨i, Nat.le_max_left i j,
      (holdsAt_access_iff hne hset).mpr ⟨h.lt_ways, i, h, .inl ⟨⟨j, hji, hx⟩, rfl⟩⟩⟩
  · rw [HoldsAt, hset] at h
    exact absurd (Option.some.inj (h.symm.trans hx)) hne
  · obtain ⟨k, hk, hl⟩ := h.access (Nat.lt_of_le_of_lt hij hx.lt_ways) x
    exact ⟨k, by omega, hl⟩

/-! ### Lines used since -/

/-- A line stands behind the lines before it. -/
theorem getElem?_length_takeWhile {lines : List Nat} {x : Nat} (hx : x ∈ lines) :
    lines[(lines.takeWhile (· ≠ x)).length]? = some x := by
  induction lines with
  | nil => cases hx
  | cons z lines ih =>
    by_cases hz : z = x
    · simp [hz]
    · have hx : x ∈ lines := List.mem_of_ne_of_mem (Ne.symm hz) hx
      simpa [hz] using ih hx

/-- To take out another line takes it out of those before a line. -/
theorem takeWhile_erase {lines : List Nat} {x y : Nat} (hne : y ≠ x) :
    (lines.erase y).takeWhile (· ≠ x) = (lines.takeWhile (· ≠ x)).erase y := by
  induction lines with
  | nil => rfl
  | cons z lines ih =>
    by_cases hy : z = y
    · simp [hy, hne]
    · by_cases hx : z = x
      · simp [hx, Ne.symm hne]
      · simp only [ne_eq, decide_not] at ih
        simp [hy, hx, ih]

/-- The lines of its set that were used since a line was, or all of them if it is not cached. -/
def before (m : Lru c) (x : Nat) : List Nat :=
  (m.lines (c.setOf x)).takeWhile (· ≠ x)

section Before

variable {m : Lru c} {x y z i : Nat}

theorem nodup_before (m : Lru c) (x : Nat) : (m.before x).Nodup :=
  (m.nodup _).sublist (List.takeWhile_sublist _)

theorem before_of_not_holds (h : ¬ m.Holds x) : m.before x = m.lines (c.setOf x) := by
  rw [before, List.takeWhile_eq_self_iff]
  intro z hz
  simp only [ne_eq, decide_not, Bool.not_eq_true', decide_eq_false_iff_not]
  rintro rfl
  exact h hz

theorem Holds.holdsAt_before (h : m.Holds x) : m.HoldsAt x (m.before x).length :=
  getElem?_length_takeWhile h

theorem HoldsAt.length_before (h : m.HoldsAt x i) : (m.before x).length = i := by
  have hx : m.Holds x := holds_iff.mpr ⟨i, h⟩
  obtain ⟨hi, hget⟩ := List.getElem?_eq_some_iff.mp h
  obtain ⟨hj, hget'⟩ := List.getElem?_eq_some_iff.mp hx.holdsAt_before
  exact ((m.nodup _).getElem_inj_iff).mp (hget'.trans hget.symm)

theorem access_lines_of_ne (h : c.setOf x ≠ c.setOf y) :
    (m.access y).lines (c.setOf x) = m.lines (c.setOf x) :=
  if_neg h

theorem access_lines (h : c.setOf x = c.setOf y) :
    (m.access y).lines (c.setOf x) = touched c.ways y (m.lines (c.setOf x)) :=
  if_pos h

theorem before_access_of_ne (h : c.setOf x ≠ c.setOf y) : (m.access y).before x = m.before x := by
  rw [before, access_lines_of_ne h, before]

/-- Nothing was used since a line that has just been fetched. -/
theorem before_access_self (m : Lru c) (x : Nat) : (m.access x).before x = [] :=
  List.eq_nil_of_length_eq_zero (m.holdsAt_access_self x).length_before

/-- The lines used since another one change with a fetch as the set itself does. -/
theorem before_access (hne : y ≠ x) (hset : c.setOf x = c.setOf y) :
    (m.access y).before x = touched c.ways y (m.before x) := by
  rw [before, access_lines hset, touched, ← List.take_takeWhile, List.takeWhile_cons_of_pos,
    takeWhile_erase hne]
  · rfl
  · simpa using hne

theorem mem_of_mem_touched {ways : Nat} {lines : List Nat} (h : z ∈ touched ways y lines) :
    z = y ∨ z ∈ lines := by
  rcases List.mem_cons.mp (List.mem_of_mem_take h) with rfl | hz
  · exact .inl rfl
  · exact .inr (List.mem_of_mem_erase hz)

/-- A fetch adds at most its own line to those used since another one. -/
theorem mem_of_mem_before_access (hz : z ∈ (m.access y).before x) :
    z ∈ m.before x ∨ z = y ∧ c.setOf x = c.setOf y := by
  by_cases hne : y = x
  · rw [hne, before_access_self] at hz
    cases hz
  by_cases hset : c.setOf x = c.setOf y
  · rw [before_access hne hset] at hz
    rcases mem_of_mem_touched hz with rfl | hz
    · exact .inr ⟨rfl, hset⟩
    · exact .inl hz
  · rw [before_access_of_ne hset] at hz
    exact .inl hz

/-- As long as a line is cached, all lines fetched since are, too. -/
theorem mem_before_access (hne : y ≠ x) (hholds : (m.access y).Holds x)
    (hz : z ∈ m.before x ∨ z = y ∧ c.setOf x = c.setOf y) : z ∈ (m.access y).before x := by
  by_cases hset : c.setOf x = c.setOf y
  · have hlt := hholds.holdsAt_before.lt_ways
    rw [before_access hne hset, touched] at hlt ⊢
    rw [List.length_take] at hlt
    rw [List.take_of_length_le (by omega)]
    by_cases hzy : z = y
    · exact hzy ▸ List.mem_cons_self
    · have hz : z ∈ m.before x := hz.resolve_right fun h => hzy h.1
      exact List.mem_cons_of_mem y ((List.mem_erase_of_ne hzy).mpr hz)
  · rw [before_access_of_ne hset]
    exact hz.resolve_right fun h => hset h.2

theorem Holds.of_access (h : (m.access y).Holds x) (hne : y ≠ x) : m.Holds x := by
  by_cases hset : c.setOf x = c.setOf y
  · rw [Holds, access_lines hset] at h
    exact (mem_of_mem_touched h).resolve_left (Ne.symm hne)
  · rwa [Holds, access_lines_of_ne hset] at h

def Full (m : Lru c) (x : Nat) : Prop :=
  (m.lines (c.setOf x)).length = c.ways

/-- A line is evicted only from a set without room, which has none afterwards. -/
theorem holds_or_full_access (h : m.Holds x ∨ m.Full x) :
    (m.access y).Holds x ∨ (m.access y).Full x := by
  by_cases hne : y = x
  · exact .inl (holds_iff.mpr ⟨0, hne ▸ m.holdsAt_access_self y⟩)
  by_cases hset : c.setOf x = c.setOf y
  · -- the fetched line only pushes out the last one, and only if there are as many lines as ways
    rw [Holds, Full, access_lines hset, touched, List.length_take, List.length_cons]
    rcases h with h | hfull
    · have hmem : x ∈ y :: (m.lines (c.setOf x)).erase y :=
        List.mem_cons_of_mem y ((List.mem_erase_of_ne (Ne.symm hne)).mpr h)
      rcases Nat.lt_or_ge ((m.lines (c.setOf x)).erase y).length c.ways with hroom | hfull
      · rw [List.take_of_length_le hroom]
        exact .inl hmem
      · exact .inr (by omega)
    · have hpos := c.ways_pos
      have hlength := (m.lines (c.setOf x)).length_erase (a := y)
      unfold Full at hfull
      right
      split at hlength <;> omega
  · rwa [Holds, Full, access_lines_of_ne hset]

end Before

end Lru

end CycleBounds.Cache
