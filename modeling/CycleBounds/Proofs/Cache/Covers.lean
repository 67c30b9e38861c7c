import CycleBounds.Cache.State
import CycleBounds.Proofs.Cache.Lru

/-!
# What abstract cache states say about caches

A state covers a cache if the cache holds all lines of the must domain, none older than stated, and
only lines of the may domain, none younger than stated. Each operation on states keeps this:

* `Covers.accessLine` and `Covers.accessMaybe` for fetches, `Covers.join_left` and
  `Covers.join_right` for merges of control flow;
* `Covers.classifyLine`: the class of a fetch is true of the cache (`Access.Describes`).

The ages of the must domain also have to stay below the number of ways (`Fits`), since a line of a
higher age would never be dropped.
-/

namespace CycleBounds.Cache

namespace State

variable {c : Config} {s t : State} {m : Lru c}

/-- The ages of the must domain are ages of the level. -/
def Fits (c : Config) (s : State) : Prop :=
  ∀ l a, s.must.get? l = some a → a < c.ways

/-- A state is true of a cache. -/
structure Covers (s : State) (m : Lru c) : Prop where
  must : ∀ {l a}, s.must.get? l = some a → ∃ i ≤ a, m.HoldsAt l i
  may : ∀ {l i}, m.HoldsAt l i → ∃ a ≤ i, s.may.get? l = some a

theorem fits_empty : Fits c empty := nofun

theorem covers_empty : Covers empty (Lru.empty c) := ⟨nofun, nofun⟩

/-! ### Merges -/

theorem get?_join_must {l a : Nat} (h : (s.join t).must.get? l = some a) :
    ∃ x y, s.must.get? l = some x ∧ t.must.get? l = some y ∧ a = max x y := by
  rw [join, Ages.get?_meet] at h
  split at h
  · rename_i x y hx hy
    exact ⟨x, y, hx, hy, (Option.some.inj h).symm⟩
  · cases h

theorem Fits.join (hs : Fits c s) (ht : Fits c t) : Fits c (s.join t) := by
  intro l a h
  obtain ⟨x, y, hx, hy, rfl⟩ := get?_join_must h
  exact Nat.max_lt.mpr ⟨hs l x hx, ht l y hy⟩

/-- A cache that one side covers is covered where the paths meet. -/
theorem Covers.join_left (h : Covers s m) : Covers (s.join t) m where
  must := by
    intro l a ha
    obtain ⟨x, y, hx, -, rfl⟩ := get?_join_must ha
    obtain ⟨i, hi, hl⟩ := h.must hx
    exact ⟨i, Nat.le_trans hi (Nat.le_max_left x y), hl⟩
  may := by
    intro l i hl
    obtain ⟨a, ha, hget⟩ := h.may hl
    rw [State.join, Ages.get?_union, hget]
    cases t.may.get? l with
    | none => exact ⟨a, ha, rfl⟩
    | some b => exact ⟨min a b, Nat.le_trans (Nat.min_le_left a b) ha, rfl⟩

theorem Covers.join_right (h : Covers t m) : Covers (s.join t) m where
  must := by
    intro l a ha
    obtain ⟨x, y, -, hy, rfl⟩ := get?_join_must ha
    obtain ⟨i, hi, hl⟩ := h.must hy
    exact ⟨i, Nat.le_trans hi (Nat.le_max_right x y), hl⟩
  may := by
    intro l i hl
    obtain ⟨b, hb, hget⟩ := h.may hl
    rw [State.join, Ages.get?_union, hget]
    cases s.may.get? l with
    | none => exact ⟨b, hb, rfl⟩
    | some a => exact ⟨min a b, Nat.le_trans (Nat.min_le_right a b) hb, rfl⟩

/-- What all of some states have and joins keep, the join of the states has. -/
theorem foldl_join_of_forall {P : State → Prop} (hjoin : ∀ {s t}, P s → P t → P (s.join t))
    {rest : List State} (h : ∀ t ∈ s :: rest, P t) : P (rest.foldl State.join s) := by
  apply List.foldlRecOn rest State.join (h s List.mem_cons_self)
  intro s hs t ht
  exact hjoin hs (h t (List.mem_cons_of_mem _ ht))

/-- A cache that one of some states covers is covered by their join. -/
theorem Covers.foldl_join {rest : List State} (ht : t ∈ s :: rest) (h : Covers t m) :
    Covers (rest.foldl State.join s) m := by
  induction rest generalizing s t with
  | nil =>
    obtain rfl := List.mem_singleton.mp ht
    exact h
  | cons u rest ih =>
    rcases List.mem_cons.mp ht with rfl | ht
    · exact ih List.mem_cons_self h.join_left
    · rcases List.mem_cons.mp ht with rfl | ht
      · exact ih List.mem_cons_self h.join_right
      · exact ih (List.mem_cons_of_mem _ ht) h

/-! ### Fetches -/

/-- A line below the limit grows older by one while it can, and any other one keeps its age. -/
theorem grow_eq_some {rule : Aging} (hrule : rule.sticky = false) {limit a b : Nat} :
    rule.grow limit b = some a ↔ b < limit ∧ a = b + 1 ∧ a < rule.ages ∨ limit ≤ b ∧ a = b := by
  rw [Aging.grow, hrule]
  by_cases h : b < limit
  · by_cases hage : b + 1 < rule.ages
    · simp only [if_pos h, if_pos hage, Option.some.injEq]
      omega
    · simp only [if_pos h, if_neg hage, Bool.false_eq_true, if_false, reduceCtorEq, false_iff]
      omega
  · simp only [if_neg h, Option.some.injEq]
    omega

/-- The age of a line after a fetch, in a domain from which old lines drop out. -/
theorem get?_touch_eq_some {rule : Aging} (hrule : rule.sticky = false) {ages : Ages}
    {x l a : Nat} : (ages.touch c rule x).get? l = some a ↔
      l = x ∧ a = 0 ∨ l ≠ x ∧ c.setOf l ≠ c.setOf x ∧ ages.get? l = some a ∨
      l ≠ x ∧ c.setOf l = c.setOf x ∧ ∃ b, ages.get? l = some b ∧
        (b < rule.limit (ages.get? x) ∧ a = b + 1 ∧ a < rule.ages ∨
          rule.limit (ages.get? x) ≤ b ∧ a = b) := by
  rw [Ages.get?_touch]
  by_cases hl : l = x
  · simp [hl, eq_comm]
  · by_cases hset : c.setOf l = c.setOf x
    · simp [hl, hset, Option.bind_eq_some_iff, grow_eq_some hrule]
    · simp [hl, hset]

/-- A fetch keeps the ages of the must domain below the number of ways. -/
theorem Fits.accessLine (hs : Fits c s) (x : Nat) : Fits c (s.accessLine c x) := by
  intro l a h
  rcases (get?_touch_eq_some rfl).mp h with ⟨-, rfl⟩ | ⟨-, -, ha⟩ | ⟨-, -, b, hb, hage⟩
  · exact c.ways_pos
  · exact hs l a ha
  · rcases hage with ⟨-, -, hlt⟩ | ⟨-, rfl⟩
    · exact hlt
    · exact hs l a hb

theorem Fits.accessMaybe (hs : Fits c s) (address : Nat) : Fits c (s.accessMaybe c address) := by
  rw [accessMaybe_eq_join]
  exact hs.join (hs.accessLine _)

/-- A line that is fetched makes another one of its set at most one older, and only if it was not
younger itself. -/
theorem Covers.accessLine_must (h : Covers s m) (hs : Fits c s) {x l a : Nat}
    (ha : (s.accessLine c x).must.get? l = some a) : ∃ i ≤ a, (m.access x).HoldsAt l i := by
  -- the fetched line itself, a line of another set, and another line of the set
  rcases (get?_touch_eq_some rfl).mp ha with ⟨rfl, rfl⟩ | ⟨-, hset, ha⟩ | ⟨hne, hset, b, hb, hage⟩
  · exact ⟨0, Nat.le_refl 0, m.holdsAt_access_self l⟩
  · obtain ⟨i, hi, hl⟩ := h.must ha
    exact ⟨i, hi, (Lru.holdsAt_access_of_ne hset).mpr hl⟩
  · obtain ⟨i, hi, hl⟩ := h.must hb
    by_cases hx : ∃ j < i, m.HoldsAt x j
    · refine ⟨i, ?_, (Lru.holdsAt_access_iff hne hset).mpr ⟨hl.lt_ways, i, hl, .inl ⟨hx, rfl⟩⟩⟩
      omega
    · have hall : ∀ j < i, ¬ m.HoldsAt x j := fun j hj hxj => hx ⟨j, hj, hxj⟩
      -- the line moves back in the cache, so its age has to have room for that
      have hlt : i + 1 ≤ a ∧ i + 1 < c.ways := by
        rcases hage with ⟨-, rfl, hlt⟩ | ⟨hlimit, rfl⟩
        · exact ⟨by omega, Nat.lt_of_le_of_lt (by omega) hlt⟩
        · cases hget : s.must.get? x with
          | none =>
            rw [hget] at hlimit
            exact absurd (hs l a hb) (Nat.not_lt.mpr hlimit)
          | some age =>
            -- the fetched line is cached behind this one, so nothing is evicted
            obtain ⟨j, hj, hxj⟩ := h.must hget
            rw [hget] at hlimit
            have hlimit : age ≤ a := hlimit
            have hij : i ≤ j := Nat.not_lt.mp fun hji => hall j hji hxj
            have hij' : i ≠ j := by
              rintro rfl
              rw [Lru.HoldsAt, hset] at hl
              exact hne (Option.some.inj (hl.symm.trans hxj))
            have := hxj.lt_ways
            omega
      exact ⟨i + 1, hlt.1,
        (Lru.holdsAt_access_iff hne hset).mpr ⟨hlt.2, i, hl, .inr ⟨hall, rfl⟩⟩⟩

/-- A cached line is in the may domain after a fetch, no older than it is. -/
theorem Covers.accessLine_may (h : Covers s m) {x l k : Nat} (hk : (m.access x).HoldsAt l k) :
    ∃ a ≤ k, (s.accessLine c x).may.get? l = some a := by
  by_cases hne : l = x
  · exact ⟨0, Nat.zero_le k, (get?_touch_eq_some rfl).mpr (.inl ⟨hne, rfl⟩)⟩
  by_cases hset : c.setOf l = c.setOf x
  · obtain ⟨hlt, i, hl, hpos⟩ := (Lru.holdsAt_access_iff hne hset).mp hk
    obtain ⟨b, hb, hget⟩ := h.may hl
    by_cases hgrow : b < (Domain.may.aging c).limit (s.may.get? x)
    · have hbk : b + 1 ≤ k := by
        rcases hpos with ⟨⟨j, hj, hxj⟩, rfl⟩ | ⟨-, rfl⟩
        · -- a line that was before this one in the cache is not older than it in the state
          obtain ⟨age, hage, hgetx⟩ := h.may hxj
          rw [hgetx] at hgrow
          have hgrow : b < min (age + 1) c.ways := hgrow
          omega
        · omega
      exact ⟨b + 1, hbk, (get?_touch_eq_some rfl).mpr (.inr (.inr ⟨hne, hset, b, hget,
        .inl ⟨hgrow, rfl, Nat.lt_of_le_of_lt hbk hlt⟩⟩))⟩
    · refine ⟨b, ?_, (get?_touch_eq_some rfl).mpr (.inr (.inr ⟨hne, hset, b, hget,
        .inr ⟨Nat.not_lt.mp hgrow, rfl⟩⟩))⟩
      rcases hpos with ⟨-, rfl⟩ | ⟨-, rfl⟩ <;> omega
  · obtain ⟨a, ha, hget⟩ := h.may ((Lru.holdsAt_access_of_ne hset).mp hk)
    exact ⟨a, ha, (get?_touch_eq_some rfl).mpr (.inr (.inl ⟨hne, hset, hget⟩))⟩

theorem Covers.accessLine (h : Covers s m) (hs : Fits c s) (x : Nat) :
    Covers (s.accessLine c x) (m.access x) :=
  ⟨h.accessLine_must hs, h.accessLine_may⟩

/-- A fetch that may or may not happen. -/
theorem Covers.accessMaybe (h : Covers s m) (hs : Fits c s) (address : Nat) :
    Covers (s.accessMaybe c address) m ∧
      Covers (s.accessMaybe c address) (m.access (c.line address)) := by
  rw [accessMaybe_eq_join]
  exact ⟨h.join_left, (h.accessLine hs _).join_right⟩

end State

/-! ### Classes -/

/-- What a class says about the fetch of a line, which reaches the level or not. -/
def Access.Describes {c : Config} (a : Access) (reaches : Prop) (m : Lru c) (line : Nat) : Prop :=
  match a with
  | .hitUpper => ¬ reaches
  | .alwaysHit age => reaches → ∃ i ≤ age, m.HoldsAt line i
  | .alwaysMiss => reaches → ¬ m.Holds line
  | .firstMiss => True
  | .unknown => True

/-- The class of a fetch is right about every cache that the state covers. -/
theorem State.Covers.classifyLine {c : Config} {s : State} {m : Lru c} (h : s.Covers m)
    (line : Nat) (reaches : Prop) : (s.classifyLine c line).Describes reaches m line := by
  rw [State.classifyLine]
  split
  · exact fun _ => h.must (by assumption)
  · split
    · rename_i hmay
      intro _ hholds
      obtain ⟨i, hi⟩ := Lru.holds_iff.mp hholds
      obtain ⟨a, -, hget⟩ := h.may hi
      rw [hget] at hmay
      cases hmay
    · split <;> trivial

end CycleBounds.Cache
