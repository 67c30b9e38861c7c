import CycleBounds.Proofs.Cache.Persistence

/-!
# States that fetches and merges lead to

A state is built from the state of an empty cache by fetches, by fetches that may happen, and by
merges of control flow. Each of these operations keeps a state true of a cache, so there is a cache
that the state covers. What its must and its may domain say is said of one cache, and so they cannot
contradict each other, although lines grow older in them by different rules.

* `operations_sound`: the operations keep a state true of the cache.
* `Reachable.induction`: what an empty cache has and the operations keep, all states have.
* `Reachable.exists_covers`: every state is true of some cache.
* `Reachable.may_le_must` and `Reachable.persistence_of_may`: lines that are cached may be cached,
  and these have been loaded.
-/

namespace CycleBounds.Cache

namespace State

variable {c : Config} {s t : State} {l a : Nat}

/-! ### The operations -/

/-- The states that the operations lead to, from the state of an empty cache. -/
inductive Reachable (c : Config) : State → Prop
  | empty : Reachable c .empty
  | access {s : State} (address : Nat) : Reachable c s → Reachable c (s.access c address)
  | accessMaybe {s : State} (address : Nat) : Reachable c s → Reachable c (s.accessMaybe c address)
  | join {s t : State} : Reachable c s → Reachable c t → Reachable c (s.join t)

/-- What fetches and merges keep holds of all states, as a fetch that may happen is a merge. -/
theorem Reachable.induction {motive : ∀ s, Reachable c s → Prop} (empty : motive _ .empty)
    (access : ∀ s address (hs : Reachable c s), motive s hs → motive _ (hs.access address))
    (join : ∀ s t (hs : Reachable c s) (ht : Reachable c t),
      motive s hs → motive t ht → motive _ (hs.join ht))
    {s : State} (h : Reachable c s) : motive s h := by
  induction h with
  | empty => exact empty
  | access address hs ih => exact access _ address hs ih
  | @accessMaybe s address hs ih =>
    have hmeet : ∀ t, t = s.join (s.access c address) → ∀ ht : Reachable c t, motive t ht := by
      rintro _ rfl _
      exact join _ _ hs (hs.access address) ih (access _ address hs ih)
    exact hmeet _ (accessMaybe_eq_join c s address) _
  | join hs ht ihs iht => exact join _ _ hs ht ihs iht

theorem Within.mono {lines lines' : List Nat} (hs : Within c lines s) (hsub : lines ⊆ lines') :
    Within c lines' s :=
  fun d l a h => (hs d l a h).imp_left fun hl => hsub hl

/-- Every state that the operations lead to has finitely many lines, at ages of the level. -/
theorem Reachable.exists_within (h : Reachable c s) : ∃ lines, Within c lines s := by
  induction h using Reachable.induction with
  | empty => exact ⟨[], within_empty⟩
  | access s address _ ih =>
    obtain ⟨lines, hs⟩ := ih
    have hmore := hs.mono (List.subset_cons_self (c.line address) lines)
    exact ⟨_, hmore.accessLine List.mem_cons_self⟩
  | join s t _ _ ihs iht =>
    obtain ⟨lines, hs⟩ := ihs
    obtain ⟨lines', ht⟩ := iht
    have hs := hs.mono (List.subset_append_left lines lines')
    have ht := ht.mono (List.subset_append_right lines lines')
    exact ⟨_, hs.join ht⟩

/-- All ages are ages of the level. -/
theorem Reachable.age_lt (h : Reachable c s) {d : Domain} (ha : (s.ages d).get? l = some a) :
    a < (d.aging c).ages := by
  obtain ⟨lines, hwithin⟩ := h.exists_within
  exact (hwithin d l a ha).2

theorem Reachable.fits (h : Reachable c s) : Fits c s :=
  fun _ _ ha => h.age_lt (d := .must) ha

/-- Each operation keeps a state true of the cache, as long as the ages of the must domain are ages
of the level, as they are in all states. What such a state says about a fetch is true. -/
theorem operations_sound (c : Config) :
    (∀ s, Reachable c s → Fits c s) ∧ Covers .empty (Lru.empty c) ∧
    ∀ (s : State) (m : Lru c), Covers s m →
      (Fits c s → ∀ address,
        Covers (s.access c address) (m.access (c.line address)) ∧
        Covers (s.accessMaybe c address) m ∧
        Covers (s.accessMaybe c address) (m.access (c.line address))) ∧
      (∀ t : State, Covers (s.join t) m ∧ Covers (t.join s) m) ∧
      ∀ address,
        (∀ age, s.classify c address = .alwaysHit age →
          ∃ position ≤ age, m.HoldsAt (c.line address) position) ∧
        (s.classify c address = .alwaysMiss → ¬ m.Holds (c.line address)) := by
  refine ⟨fun s hs => hs.fits, covers_empty, ?_⟩
  intro s m hm
  refine ⟨?_, fun t => ⟨hm.join_left, hm.join_right⟩, ?_⟩
  · intro hfits address
    exact ⟨hm.accessLine hfits _, hm.accessMaybe hfits address⟩
  · intro address
    have hclass : (s.classify c address).Describes True m (c.line address) :=
      hm.classifyLine _ True
    constructor
    · intro age hhit
      rw [hhit] at hclass
      exact hclass trivial
    · intro hmiss
      rw [hmiss] at hclass
      exact hclass trivial

/-- Line 0 is fetched, and then perhaps line 2 of the same set. If it is, line 0 is still cached,
and line 4 is not. -/
theorem operations_sound_twoWays :
    let c : Config := ⟨1, 2, 4, 1, 10, by decide⟩
    let s := (State.empty.access c 0).accessMaybe c 32
    let m := Lru.after c [32, 0]
    Covers s m ∧ s.classify c 0 = .alwaysHit 1 ∧
      (∃ position ≤ 1, m.HoldsAt (c.line 0) position) ∧
      s.classify c 64 = .alwaysMiss ∧ ¬ m.Holds (c.line 64) := by
  intro c s m
  obtain ⟨-, hempty, hsound⟩ := operations_sound c
  have hone : Covers (State.empty.access c 0) (Lru.after c [0]) :=
    ((hsound _ _ hempty).1 fits_empty 0).1
  have htwo : Covers s m := ((hsound _ _ hone).1 (fits_empty.accessLine _) 32).2.2
  have hhit : s.classify c 0 = .alwaysHit 1 := by decide
  have hmiss : s.classify c 64 = .alwaysMiss := by decide
  obtain ⟨-, -, hclass⟩ := hsound s m htwo
  exact ⟨htwo, hhit, (hclass 0).1 1 hhit, hmiss, (hclass 64).2 hmiss⟩

/-! ### Domains that fit together -/

/-- Every state is true of some cache: fetches are followed in the cache, and of two branches that
meet one is taken. -/
theorem Reachable.exists_covers (h : Reachable c s) : ∃ m : Lru c, Covers s m := by
  induction h using Reachable.induction with
  | empty => exact ⟨.empty c, covers_empty⟩
  | access s address hs ih =>
    obtain ⟨m, hm⟩ := ih
    exact ⟨_, hm.accessLine hs.fits (c.line address)⟩
  | join s t _ _ ihs _ =>
    -- the join covers the caches of both branches, and one is enough
    obtain ⟨m, hm⟩ := ihs
    exact ⟨m, hm.join_left⟩

/-- The cache that a state covers has the lines of the must domain, none of them further back than
their ages there, and the may domain has them none older than that. -/
theorem Reachable.may_le_must (h : Reachable c s) (ha : s.must.get? l = some a) :
    ∃ b ≤ a, s.may.get? l = some b := by
  obtain ⟨m, hm⟩ := h.exists_covers
  obtain ⟨i, hi, hat⟩ := hm.must ha
  obtain ⟨b, hb, hmay⟩ := hm.may hat
  exact ⟨b, Nat.le_trans hb hi, hmay⟩

/-- The persistence domain keeps all lines, and so those of the may domain. -/
theorem Reachable.persistence_of_may (h : Reachable c s) (ha : s.may.get? l = some a) :
    ∃ b, s.persistence.get? l = some b := by
  induction h using Reachable.induction generalizing a with
  | empty => cases ha
  | access s address _ ih =>
    rcases (get?_touch_eq_some rfl).mp ha with ⟨rfl, -⟩ | ⟨-, -, hold⟩ | ⟨-, -, b, hold, -⟩
    · exact ⟨0, get?_accessLine_persistence_self s _⟩
    · obtain ⟨b, hb⟩ := ih hold
      exact exists_accessLine_persistence hb _
    · obtain ⟨b, hb⟩ := ih hold
      exact exists_accessLine_persistence hb _
  | join s t _ _ ihs iht =>
    rcases get?_join_cases (d := .may) ha with hs | ht
    · obtain ⟨b, hb⟩ := ihs hs
      obtain ⟨b', hb', -⟩ := get?_join_persistence_left (t := t) hb
      exact ⟨b', hb'⟩
    · obtain ⟨b, hb⟩ := iht ht
      obtain ⟨b', hb', -⟩ := get?_join_persistence_right (s := s) hb
      exact ⟨b', hb'⟩

end State

end CycleBounds.Cache
