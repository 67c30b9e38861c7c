import CycleBounds.Proofs.Cache.Reachable

/-!
# Straight sequences of fetches

Where nothing branches, nothing is lost. After a sequence of fetches, the must and the may domain
are the same: no two lines of a set have the same age, so it makes no difference whether those of
the same age as a fetched line grow older. Between the two of them, a cache that the state covers
has no choice: every line is at the position that is its age.

* `Exact`: a state with one age per line, true of a cache.
* `Exact.access`: a fetch keeps this.
* `straight_exact`: fetches are classified as the cache answers them.
-/

namespace CycleBounds.Cache

/-- A line has one position only. -/
theorem Lru.HoldsAt.unique {c : Config} {m : Lru c} {l i j : Nat} (hi : m.HoldsAt l i)
    (hj : m.HoldsAt l j) : i = j :=
  hi.length_before.symm.trans hj.length_before

namespace Ages

variable {c : Config} {t : Ages} {set age l : Nat}

def way (c : Config) (t : Ages) (set age : Nat) : List Nat :=
  (t.entries.filter fun e => c.setOf e.1 = set ∧ e.2 = age).map (·.1)

theorem mem_way : l ∈ t.way c set age ↔ c.setOf l = set ∧ t.get? l = some age := by
  simp [way, Table.mem_entries_iff, and_comm]

theorem nodup_way (c : Config) (t : Ages) (set age : Nat) : (t.way c set age).Nodup :=
  t.nodup_keys.sublist (List.filter_sublist.map _)

end Ages

namespace State

variable {c : Config} {s : State} {m : Lru c} {l i : Nat}

def after (c : Config) : List Nat → State
  | [] => .empty
  | address :: run => (after c run).access c address

theorem reachable_after (c : Config) (run : List Nat) : Reachable c (after c run) := by
  induction run with
  | nil => exact .empty
  | cons address run ih => exact ih.access address

/-- The must and the may domain are the same, and true of a cache. -/
structure Exact (s : State) (m : Lru c) : Prop where
  covers : Covers s m
  must_eq_may : s.must = s.may

/-- Every line is at the position that is its age. -/
theorem Exact.get?_must_iff (h : Exact s m) : s.must.get? l = some i ↔ m.HoldsAt l i := by
  have hbetween : ∀ a, s.must.get? l = some a → m.HoldsAt l a := by
    intro a ha
    -- the position is at most the age as one that must be, and at least that as one that may be
    obtain ⟨j, hj, hat⟩ := h.covers.must ha
    obtain ⟨b, hb, hmay⟩ := h.covers.may hat
    rw [← h.must_eq_may, ha] at hmay
    obtain rfl := Option.some.inj hmay
    rwa [Nat.le_antisymm hb hj]
  refine ⟨hbetween i, fun hat => ?_⟩
  obtain ⟨a, -, hmay⟩ := h.covers.may hat
  rw [← h.must_eq_may] at hmay
  rw [hmay, (hbetween a hmay).unique hat]

/-- No other line of the set has the age of the fetched one, so both rules let the same lines grow
older. -/
theorem Exact.touch_eq (h : Exact s m) (x : Nat) :
    s.must.touch c (Domain.must.aging c) x = s.must.touch c (Domain.may.aging c) x := by
  ext l
  rw [Ages.get?_touch, Ages.get?_touch]
  split
  · rfl
  rename_i hne
  split
  · rename_i hset
    cases hl : s.must.get? l with
    | none => rfl
    | some b =>
      cases hx : s.must.get? x with
      | none => rfl
      | some a =>
        have hat := h.get?_must_iff.mp hx
        have hlt := hat.lt_ways
        -- lines of the same age would be at the same position
        have hab : b ≠ a := by
          rintro rfl
          have hlat := h.get?_must_iff.mp hl
          rw [Lru.HoldsAt, hset] at hlat
          exact hne (Option.some.inj (hlat.symm.trans hat))
        have hsame : b < a ↔ b < min (a + 1) c.ways := by omega
        simp [Aging.grow, Aging.limit, Domain.aging, hsame]
  · rfl

theorem Exact.access (h : Exact s m) (hs : Fits c s) (address : Nat) :
    Exact (s.access c address) (m.access (c.line address)) where
  covers := h.covers.accessLine hs _
  must_eq_may := by
    show s.must.touch c _ _ = s.may.touch c _ _
    rw [h.touch_eq, h.must_eq_may]

theorem exact_after (c : Config) (run : List Nat) : Exact (after c run) (Lru.after c run) := by
  induction run with
  | nil => exact ⟨covers_empty, rfl⟩
  | cons address run ih => exact ih.access (reachable_after c run).fits address

/-- What is known about a fetch is where its line is, or that it is not cached. -/
theorem Exact.classify_cases (h : Exact s m) (address : Nat) :
    (∃ i, m.HoldsAt (c.line address) i ∧ s.classify c address = .alwaysHit i) ∨
      ¬ m.Holds (c.line address) ∧ s.classify c address = .alwaysMiss := by
  rw [classify, classifyLine, ← h.must_eq_may]
  cases hage : s.must.get? (c.line address) with
  | some i => exact .inl ⟨i, h.get?_must_iff.mp hage, rfl⟩
  | none =>
    refine .inr ⟨?_, rfl⟩
    intro hholds
    obtain ⟨i, hat⟩ := Lru.holds_iff.mp hholds
    rw [h.get?_must_iff.mpr hat] at hage
    cases hage

/-- The lines of one age are at one position. -/
theorem Exact.length_way_le (h : Exact s m) (set age : Nat) :
    (s.must.way c set age).length ≤ 1 := by
  have hsub : s.must.way c set age ⊆ (m.lines set)[age]?.toList := by
    intro l hl
    obtain ⟨rfl, hage⟩ := Ages.mem_way.mp hl
    exact Option.mem_toList.mpr (h.get?_must_iff.mp hage)
  calc (s.must.way c set age).length
      ≤ (m.lines set)[age]?.toList.length :=
        (List.subperm_of_subset (Ages.nodup_way c _ set age) hsub).length_le
    _ ≤ 1 := by cases (m.lines set)[age]? <;> simp

def ways (c : Config) (s : State) (d : Domain) (set : Nat) : List (List Nat) :=
  (s.ages d).ways c (d.aging c) set

/-- After a sequence of fetches, a line that is cached is known to be, at its position, and any
other is known not to be. The must and the may domain are the same, with one line at most of each
age. -/
theorem straight_exact (c : Config) (run : List Nat) :
    (∀ address position, (after c run).classify c address = .alwaysHit position ↔
      (Lru.after c run).HoldsAt (c.line address) position) ∧
    (∀ address, (after c run).classify c address = .alwaysMiss ↔
      ¬ (Lru.after c run).Holds (c.line address)) ∧
    (∀ address, (after c run).classify c address ≠ .firstMiss ∧
      (after c run).classify c address ≠ .unknown) ∧
    (after c run).must = (after c run).may ∧
    ∀ d set, d ≠ .persistence → ∀ way ∈ (after c run).ways c d set, way.length ≤ 1 := by
  have h := exact_after c run
  refine ⟨?_, ?_, ?_, h.must_eq_may, ?_⟩
  · intro address position
    rcases h.classify_cases address with ⟨i, hat, hclass⟩ | ⟨hmiss, hclass⟩
    · rw [hclass, Access.alwaysHit.injEq]
      constructor
      · rintro rfl
        exact hat
      · exact hat.unique
    · rw [hclass]
      constructor
      · rintro ⟨⟩
      · intro hat
        exact absurd (Lru.holds_iff.mpr ⟨position, hat⟩) hmiss
  · intro address
    rcases h.classify_cases address with ⟨i, hat, hclass⟩ | ⟨hmiss, hclass⟩
    · simp [hclass, Lru.holds_iff.mpr ⟨i, hat⟩]
    · simp [hclass, hmiss]
  · intro address
    rcases h.classify_cases address with ⟨i, -, hclass⟩ | ⟨-, hclass⟩ <;> simp [hclass]
  · intro d set hd way hway
    obtain ⟨age, -, rfl⟩ := List.mem_map.mp hway
    cases d with
    | must => exact h.length_way_le set age
    | may =>
      show ((after c run).may.way c set age).length ≤ 1
      rw [← h.must_eq_may]
      exact h.length_way_le set age
    | persistence => exact absurd rfl hd

/-- Lines 0, 1 and 0 again, then line 2, in a set of two ways: line 1 is evicted. -/
example :
    let c : Config := ⟨0, 2, 4, 1, 10, by decide⟩
    let s := after c [32, 0, 16, 0]
    s.classify c 0 = .alwaysHit 1 ∧ s.classify c 16 = .alwaysMiss ∧
      (Lru.after c [32, 0, 16, 0]).lines 0 = [2, 0] := by
  decide

end State

end CycleBounds.Cache
