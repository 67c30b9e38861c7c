import CycleBounds.Proofs.Cache.Chains
import CycleBounds.Proofs.Cache.Covers

/-!
# Persistence

The persistence domain of a state bounds how old a line has become since it was fetched. A fetch
lets only those lines of the set grow older that are younger than the state has the fetched line,
since that line was before the others in the cache already. After a merge of control flow this need
not be so: the state may have a line from the other branch. A first fetch of such a line is *early*,
and each one may have moved older lines back without notice.

* `Covered`: a sequence of fetches that a state stands for, with the lines that came early.
* `Persists`: what the ages say about the cache, and `Covered.persists`, that they do.
* `persistent_held`: a line that was fetched is cached, no further back than its age and the number
  of early lines of its set, if that is less than the number of ways.
* `persistent_evicted`: one early line is enough to evict a line that is said to persist.
-/

namespace CycleBounds.Cache

/-! ### Sequences of fetches -/

def Lru.after (c : Config) : List Nat → Lru c
  | [] => .empty c
  | address :: run => (after c run).access (c.line address)

namespace State

/-- A line that was not fetched yet is in the persistence domain, and some line of its set that was
fetched is at least as old and said to persist. -/
def Early (c : Config) (s : State) (run : List Nat) (x : Nat) : Prop :=
  x ∉ run.map c.line ∧ ∃ l ∈ run.map c.line, c.setOf l = c.setOf x ∧
    (s.persistence.get? x).any fun b => (s.persistence.get? l).any fun a => b ≤ a ∧ a < c.ways

instance (c : Config) (s : State) (run : List Nat) (x : Nat) : Decidable (s.Early c run x) :=
  inferInstanceAs (Decidable (_ ∧ _))

/-- The lines that came early, after one more fetch. -/
def earlyAfter (c : Config) (s : State) (run early : List Nat) (address : Nat) : List Nat :=
  if s.Early c run (c.line address) then c.line address :: early else early

/-- A state stands for a sequence of fetches, the latest one first. The last list has the lines
whose first fetch was early. -/
inductive Covered (c : Config) : State → List Nat → List Nat → Prop
  | empty : Covered c .empty [] []
  | access {s run early} (address : Nat) : Covered c s run early →
      Covered c (s.access c address) (address :: run) (s.earlyAfter c run early address)
  | skipped {s run early} (address : Nat) : Covered c s run early →
      Covered c (s.accessMaybe c address) run early
  | taken {s run early} (address : Nat) : Covered c s run early →
      Covered c (s.accessMaybe c address) (address :: run) (s.earlyAfter c run early address)
  | join_left {s run early} (t : State) : Covered c s run early → Covered c (s.join t) run early
  | join_right {s run early} (t : State) : Covered c s run early → Covered c (t.join s) run early

def earlyLines (c : Config) (early : List Nat) (l : Nat) : Nat :=
  early.countP fun x => c.setOf x = c.setOf l

/-- What the persistence domain says about the cache after a sequence of fetches. -/
structure Persists (c : Config) (s : State) (run early : List Nat) : Prop where
  known : ∀ l ∈ run.map c.line, ∃ a, s.persistence.get? l = some a
  held : ∀ l ∈ run.map c.line, ∀ a, s.persistence.get? l = some a →
    a + earlyLines c early l < c.ways →
    ∃ i ≤ a + earlyLines c early l, (Lru.after c run).HoldsAt l i

variable {c : Config} {s t : State} {run early : List Nat} {x l a : Nat}

theorem persists_empty : Persists c empty [] [] := ⟨nofun, nofun⟩

/-! ### Merges -/

theorem get?_join_persistence_left (h : s.persistence.get? l = some a) :
    ∃ b, (s.join t).persistence.get? l = some b ∧ a ≤ b := by
  rw [State.join, Ages.get?_union, h]
  cases t.persistence.get? l with
  | none => exact ⟨a, rfl, Nat.le_refl a⟩
  | some b => exact ⟨max a b, rfl, Nat.le_max_left a b⟩

theorem get?_join_persistence_right (h : t.persistence.get? l = some a) :
    ∃ b, (s.join t).persistence.get? l = some b ∧ a ≤ b := by
  rw [State.join, Ages.get?_union, h]
  cases s.persistence.get? l with
  | none => exact ⟨a, rfl, Nat.le_refl a⟩
  | some b => exact ⟨max b a, rfl, Nat.le_max_right b a⟩

/-- Older lines persist, too. -/
theorem Persists.mono (h : Persists c s run early)
    (hage : ∀ l a, s.persistence.get? l = some a →
      ∃ b, t.persistence.get? l = some b ∧ a ≤ b) : Persists c t run early where
  known := by
    intro l hl
    obtain ⟨a, ha⟩ := h.known l hl
    obtain ⟨b, hb, -⟩ := hage l a ha
    exact ⟨b, hb⟩
  held := by
    intro l hl b hb hroom
    obtain ⟨a, ha⟩ := h.known l hl
    obtain ⟨b', hb', hle⟩ := hage l a ha
    obtain rfl := Option.some.inj (hb.symm.trans hb')
    obtain ⟨i, hi, hat⟩ := h.held l hl a ha (by omega)
    exact ⟨i, by omega, hat⟩

theorem Persists.join_left (h : Persists c s run early) (t : State) :
    Persists c (s.join t) run early :=
  h.mono fun _ _ => get?_join_persistence_left

theorem Persists.join_right (h : Persists c s run early) (t : State) :
    Persists c (t.join s) run early :=
  h.mono fun _ _ => get?_join_persistence_right

/-! ### Fetches -/

theorem get?_accessLine_persistence_self (s : State) (x : Nat) :
    (s.accessLine c x).persistence.get? x = some 0 := by
  rw [State.accessLine, Ages.get?_touch, if_pos rfl]

/-- The age of another line of the set after a fetch: it grows, or it has the last age already, or
the fetched line is not older. -/
theorem get?_accessLine_persistence (hne : l ≠ x) (hset : c.setOf l = c.setOf x) {b : Nat}
    (hb : s.persistence.get? l = some b) :
    (s.accessLine c x).persistence.get? l = some (b + 1) ∨
      (s.accessLine c x).persistence.get? l = some b ∧
        (c.ways ≤ b ∨ ∃ y ≤ b, s.persistence.get? x = some y) := by
  rw [State.accessLine, Ages.get?_touch, if_neg hne, if_pos hset, hb, Option.bind_some,
    Aging.grow]
  split
  · split
    · exact .inl rfl
    · rename_i hages
      refine .inr ⟨rfl, .inl ?_⟩
      simpa [Domain.aging] using hages
  · -- the fetched line is not older, or it has no age and the line is as old as it can be
    rename_i hlimit
    refine .inr ⟨rfl, ?_⟩
    cases hx : s.persistence.get? x with
    | none =>
      rw [hx] at hlimit
      exact .inl (Nat.le_of_succ_le (Nat.not_lt.mp hlimit))
    | some y =>
      rw [hx] at hlimit
      exact .inr ⟨y, Nat.not_lt.mp hlimit, rfl⟩

/-- No line drops out of the persistence domain. -/
theorem exists_accessLine_persistence {b : Nat} (hb : s.persistence.get? l = some b) (x : Nat) :
    ∃ b', (s.accessLine c x).persistence.get? l = some b' := by
  by_cases hne : l = x
  · exact ⟨0, hne ▸ get?_accessLine_persistence_self s l⟩
  by_cases hset : c.setOf l = c.setOf x
  · rcases get?_accessLine_persistence hne hset hb with hgrown | ⟨hkept, -⟩
    · exact ⟨_, hgrown⟩
    · exact ⟨_, hkept⟩
  · exact ⟨b, (get?_accessLine_of_ne s .persistence hset).trans hb⟩

theorem earlyLines_earlyAfter_of_ne {address : Nat} (hset : c.setOf l ≠ c.setOf (c.line address)) :
    earlyLines c (s.earlyAfter c run early address) l = earlyLines c early l := by
  rw [earlyAfter]
  split
  · rw [earlyLines, List.countP_cons_of_neg (by simpa using Ne.symm hset)]
    rfl
  · rfl

theorem earlyLines_le_earlyAfter (c : Config) (s : State) (run early : List Nat) (address l : Nat) :
    earlyLines c early l ≤ earlyLines c (s.earlyAfter c run early address) l := by
  rw [earlyAfter]
  split
  · exact List.Sublist.countP_le (List.sublist_cons_self _ _)
  · exact Nat.le_refl _

theorem earlyLines_earlyAfter {address : Nat} (hearly : s.Early c run (c.line address))
    (hset : c.setOf l = c.setOf (c.line address)) :
    earlyLines c (s.earlyAfter c run early address) l = earlyLines c early l + 1 := by
  rw [earlyAfter, if_pos hearly, earlyLines, List.countP_cons_of_pos (by simpa using hset.symm)]
  rfl

/-- Another line of the set, which was fetched before. -/
theorem Persists.held_access (h : Persists c s run early) {address b : Nat}
    (hl : l ∈ run.map c.line) (hne : l ≠ c.line address)
    (hset : c.setOf l = c.setOf (c.line address)) (hb : s.persistence.get? l = some b)
    (ha : (s.accessLine c (c.line address)).persistence.get? l = some a)
    (hroom : a + earlyLines c (s.earlyAfter c run early address) l < c.ways) :
    ∃ i ≤ a + earlyLines c (s.earlyAfter c run early address) l,
      (Lru.after c (address :: run)).HoldsAt l i := by
  have hearly := earlyLines_le_earlyAfter c s run early address l
  have hba : b ≤ a := by
    rcases get?_accessLine_persistence hne hset hb with hgrown | ⟨hkept, -⟩
    · obtain rfl := Option.some.inj (ha.symm.trans hgrown)
      exact Nat.le_succ b
    · exact Nat.le_of_eq (Option.some.inj (hkept.symm.trans ha))
  obtain ⟨i, hi, hat⟩ := h.held l hl b hb (by omega)
  -- the bound grows with the line, or there was no need to push it back, or the fetch is early
  rcases get?_accessLine_persistence hne hset hb with hgrown | ⟨hkept, hold⟩
  · obtain rfl := Option.some.inj (ha.symm.trans hgrown)
    obtain ⟨k, hk, hat⟩ := hat.access (by omega) (c.line address)
    exact ⟨k, by omega, hat⟩
  · obtain rfl := Option.some.inj (ha.symm.trans hkept)
    obtain ⟨y, hy, hgetx⟩ := hold.resolve_left (by omega)
    by_cases hx : c.line address ∈ run.map c.line
    · -- the fetched line is cached, no further back than this one may be
      have hsame : earlyLines c early (c.line address) = earlyLines c early l := by
        rw [earlyLines, earlyLines, hset]
      obtain ⟨j, hj, hatx⟩ := h.held _ hx y hgetx (by omega)
      obtain ⟨k, hk, hat⟩ := hat.access_cached hset hatx
      exact ⟨k, by omega, hat⟩
    · -- the fetched line is new and still does not count: it came early and uses up the room for it
      have hfirst : s.Early c run (c.line address) := by
        refine ⟨hx, l, hl, hset, ?_⟩
        rw [hgetx, hb]
        simp only [Option.any_some, decide_eq_true_eq]
        exact ⟨hy, by omega⟩
      rw [earlyLines_earlyAfter hfirst hset] at hroom ⊢
      obtain ⟨k, hk, hat⟩ := hat.access (by omega) (c.line address)
      exact ⟨k, by omega, hat⟩

/-- A fetch keeps what the persistence domain says, and a line that comes early is noted. -/
theorem Persists.access (h : Persists c s run early) (address : Nat) :
    Persists c (s.access c address) (address :: run) (s.earlyAfter c run early address) where
  known := by
    intro l hl
    rcases List.mem_cons.mp hl with rfl | hl
    · exact ⟨0, get?_accessLine_persistence_self s _⟩
    obtain ⟨b, hb⟩ := h.known l hl
    exact exists_accessLine_persistence hb _
  held := by
    intro l hl a ha hroom
    by_cases hne : l = c.line address
    · exact ⟨0, Nat.zero_le _, hne ▸ Lru.holdsAt_access_self _ _⟩
    have hl : l ∈ run.map c.line := (List.mem_cons.mp hl).resolve_left hne
    by_cases hset : c.setOf l = c.setOf (c.line address)
    · obtain ⟨b, hb⟩ := h.known l hl
      exact h.held_access hl hne hset hb ha hroom
    · have ha : s.persistence.get? l = some a :=
        (get?_accessLine_of_ne s .persistence hset).symm.trans ha
      rw [earlyLines_earlyAfter_of_ne hset] at hroom ⊢
      obtain ⟨i, hi, hat⟩ := h.held l hl a ha hroom
      exact ⟨i, hi, (Lru.holdsAt_access_of_ne hset).mpr hat⟩

/-- The ages of the persistence domain are true after every sequence that a state stands for. -/
theorem Covered.persists (h : Covered c s run early) : Persists c s run early := by
  induction h with
  | empty => exact persists_empty
  | access address _ ih => exact ih.access address
  | skipped address _ ih =>
    rw [accessMaybe_eq_join]
    exact ih.join_left _
  | taken address _ ih =>
    rw [accessMaybe_eq_join]
    exact (ih.access address).join_right _
  | join_left t _ ih => exact ih.join_left t
  | join_right t _ ih => exact ih.join_right t

end State

/-! ### Lines that persist -/

/-- A line that misses at first only is in the persistence domain, at an age of the level. -/
theorem State.persistence_of_firstMiss {c : Config} {s : State} {address : Nat}
    (h : s.classify c address = .firstMiss) :
    ∃ a < c.ways, s.age? c .persistence address = some a := by
  rw [State.classify, State.classifyLine] at h
  split at h
  · cases h
  · split at h
    · cases h
    · split at h
      · rename_i hany
        obtain ⟨a, ha, hlt⟩ := Option.any_eq_true _ _ |>.mp hany
        exact ⟨a, by simpa using hlt, ha⟩
      · cases h

/-- A line that was fetched is cached, no further back than its age and the early lines of its set
together, if that is less than the number of ways. So a fetch that is said to miss once at most can
miss only if its line was never fetched, or if too many lines came early; where none did, its age
alone is the bound. -/
theorem persistent_held {c : Config} {s : State} {run early : List Nat}
    (h : State.Covered c s run early) :
    (∀ l ∈ run.map c.line, ∀ a, s.persistence.get? l = some a →
      a + State.earlyLines c early l < c.ways →
      ∃ position ≤ a + State.earlyLines c early l,
        (Lru.after c run).HoldsAt l position) ∧
    ∀ address, s.classify c address = .firstMiss →
      ∃ a < c.ways, s.age? c .persistence address = some a ∧
        (¬ (Lru.after c run).Holds (c.line address) →
          c.line address ∉ run.map c.line ∨
            c.ways ≤ a + State.earlyLines c early (c.line address)) := by
  refine ⟨h.persists.held, ?_⟩
  intro address hclass
  obtain ⟨a, hlt, hage⟩ := State.persistence_of_firstMiss hclass
  refine ⟨a, hlt, hage, ?_⟩
  intro hmiss
  by_contra hnot
  rw [not_or, not_not, Nat.not_le] at hnot
  obtain ⟨i, -, hat⟩ := h.persists.held _ hnot.1 a hage hnot.2
  exact hmiss (Lru.holds_iff.mpr ⟨i, hat⟩)

/-- Two branches fetch line 0 or line 1. After they meet, lines 1 and 2 are fetched, and the first
branch is joined once more. -/
def merged (c : Config) : State :=
  let first := State.empty.access c 0
  let both := (State.empty.access c 16).join first
  ((both.access c 16).access c 32).join first

/-- On the first branch line 1 comes early. In a set of four ways, line 0 is cached one place
further back than its age. -/
theorem persistent_held_merged :
    let c : Config := ⟨0, 4, 4, 1, 10, by decide⟩
    ∃ early, State.Covered c (merged c) [32, 16, 0] early ∧ State.earlyLines c early 0 = 1 ∧
      (merged c).persistence.get? 0 = some 1 ∧ ¬ (Lru.after c [32, 16, 0]).HoldsAt 0 1 ∧
      ∃ position ≤ 2, (Lru.after c [32, 16, 0]).HoldsAt 0 position := by
  intro c
  obtain ⟨early, hcovered, hearly⟩ : ∃ early, State.Covered c (merged c) [32, 16, 0] early ∧
      State.earlyLines c early 0 = 1 :=
    ⟨_, ((((State.Covered.empty.access 0).join_right _).access 16).access 32).join_left _,
      by decide⟩
  have hage : (merged c).persistence.get? 0 = some 1 := by decide
  obtain ⟨hheld, -⟩ := persistent_held hcovered
  refine ⟨early, hcovered, hearly, hage, by decide, ?_⟩
  have hheld := hheld 0 (by decide) 1 hage
  rw [hearly] at hheld
  exact hheld (by decide)

/-- In a set of two ways, the fetches of lines 1 and 2 evict line 0, which still has an age below
the number of ways, and whose next fetch is said to miss at most once. -/
theorem persistent_evicted :
    let c : Config := ⟨0, 2, 4, 1, 10, by decide⟩
    (∃ early, State.Covered c (merged c) [32, 16, 0] early) ∧
      c.line 0 ∈ [32, 16, 0].map c.line ∧ (merged c).age? c .persistence 0 = some 1 ∧
      (merged c).classify c 0 = .firstMiss ∧
      ¬ (Lru.after c [32, 16, 0]).Holds (c.line 0) := by
  intro c
  have hcovered : State.Covered c (merged c) [32, 16, 0] _ :=
    ((((State.Covered.empty.access 0).join_right _).access 16).access 32).join_left _
  exact ⟨⟨_, hcovered⟩, by decide, by decide, by decide, by decide⟩

end CycleBounds.Cache
