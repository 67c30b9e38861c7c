import CycleBounds.Cache.Level
import CycleBounds.Proofs.Cache.Covers
import CycleBounds.Proofs.Results

/-!
# Findings of a cache analysis

An analysis that follows a block again weakens what it has recorded about it, and adds to the
footprint. So what is recorded at some time is below the final findings (`Findings.Below`), and a
weaker class still describes the fetch (`Access.Weakens.describes`).
-/

namespace CycleBounds.Cache

/-! ### Classes -/

/-- The second class says the same as the first one or less. -/
inductive Access.Weakens : Access → Access → Prop
  | refl (a : Access) : Weakens a a
  | older {x y : Nat} : x ≤ y → Weakens (.alwaysHit x) (.alwaysHit y)
  | persistent (x : Nat) : Weakens (.alwaysHit x) .firstMiss
  | unknown (a : Access) : Weakens a .unknown

namespace Access

/-- Weakening twice is weakening. -/
theorem Weakens.trans {a b d : Access} (h₁ : a.Weakens b) (h₂ : b.Weakens d) : a.Weakens d := by
  cases h₂ with
  | refl => exact h₁
  | unknown => exact .unknown a
  | older hle =>
    cases h₁ with
    | refl => exact .older hle
    | older hle' => exact .older (Nat.le_trans hle' hle)
  | persistent y =>
    cases h₁ with
    | refl => exact .persistent y
    | older => exact .persistent _

/-- A weaker class is right about a fetch if the stronger one is. -/
theorem Weakens.describes {c : Config} {a b : Access} {reaches : Prop} {m : Lru c} {line : Nat}
    (h : a.Weakens b) (ha : a.Describes reaches m line) : b.Describes reaches m line := by
  cases h with
  | refl => exact ha
  | unknown => trivial
  | persistent => trivial
  | older hle =>
    intro hr
    obtain ⟨i, hi, hm⟩ := ha hr
    exact ⟨i, Nat.le_trans hi hle, hm⟩

/-- The join of two classes weakens the first. -/
theorem weakens_join_left (a b : Access) : a.Weakens (a.join b) := by
  rw [join.eq_def]
  split
  · exact .older (Nat.le_max_left _ _)
  · exact .persistent _
  · exact .refl _
  · split
    · exact .refl _
    · exact .unknown _

theorem weakens_join_right (a b : Access) : b.Weakens (a.join b) := by
  rw [join.eq_def]
  split
  · exact .older (Nat.le_max_right _ _)
  · exact .refl _
  · exact .persistent _
  · split
    · rename_i h
      exact h ▸ .refl _
    · exact .unknown _

theorem join_eq_hitUpper {a b : Access} :
    a.join b = .hitUpper ↔ a = .hitUpper ∧ b = .hitUpper := by
  cases a <;> cases b <;> simp [join]

end Access

/-! ### Classifications -/

namespace Record

variable {c : Config} {context : Context} {r s t : Record}

theorem ofFetches_eq_ok {fetches : List Fetch} (h : ofFetches c context fetches = .ok r) :
    r.fetches = fetches := by
  obtain ⟨_, -, h⟩ := bind_eq_ok.mp h
  obtain ⟨_, -, h⟩ := bind_eq_ok.mp h
  rw [pure_eq_ok] at h
  rw [← h]

/-- Fetches of both sides are weakened to those of the join. -/
theorem weakens_of_join_eq_ok (h : join c context r s = .ok t) :
    (∀ (n : Nat) f, r.fetches[n]? = some f →
      ∃ g, t.fetches[n]? = some g ∧ f.access.Weakens g.access) ∧
    ∀ (n : Nat) f, s.fetches[n]? = some f →
      ∃ g, t.fetches[n]? = some g ∧ f.access.Weakens g.access := by
  obtain ⟨⟨⟩, hlen, h⟩ := bind_eq_ok.mp h
  have hlen : r.fetches.length = s.fetches.length := by simpa using assume_eq_ok.mp hlen
  rw [ofFetches_eq_ok h]
  constructor
  · intro n f hf
    have hn : n < s.fetches.length := hlen ▸ (List.getElem?_eq_some_iff.mp hf).1
    exact ⟨_, List.getElem?_zipWith_eq_some.mpr ⟨f, _, hf, List.getElem?_eq_getElem hn, rfl⟩,
      Access.weakens_join_left _ _⟩
  · intro n f hf
    have hn : n < r.fetches.length := hlen ▸ (List.getElem?_eq_some_iff.mp hf).1
    exact ⟨_, List.getElem?_zipWith_eq_some.mpr ⟨_, f, List.getElem?_eq_getElem hn, hf, rfl⟩,
      Access.weakens_join_right _ _⟩

end Record

namespace Classification

variable {k k' k'' : Classification}

/-- All classes of a classification occur in another one, some of them weakened. -/
def Below (k k' : Classification) : Prop :=
  ∀ place n a, k.access? place n = some a → ∃ b, k'.access? place n = some b ∧ a.Weakens b

theorem Below.refl (k : Classification) : k.Below k :=
  fun _ _ a ha => ⟨a, ha, .refl a⟩

theorem Below.trans (h₁ : k.Below k') (h₂ : k'.Below k'') : k.Below k'' := by
  intro place n a ha
  obtain ⟨b, hb, hab⟩ := h₁ place n a ha
  obtain ⟨d, hd, hbd⟩ := h₂ place n b hb
  exact ⟨d, hd, hab.trans hbd⟩

theorem eq_of_get? (hconfig : k.config = k'.config) (h : ∀ place, k.get? place = k'.get? place) :
    k = k' := by
  obtain ⟨config, records⟩ := k
  obtain ⟨config', records'⟩ := k'
  obtain rfl : config = config' := hconfig
  rw [show records = records' from Table.ext h]

theorem access?_insert {config : Config} {records : Table Place Record} {place q : Place}
    {r : Record} {n : Nat} :
    (Classification.mk config (records.insert place r)).access? q n =
      if q = place then r.fetches[n]?.map (·.access)
      else (Classification.mk config records).access? q n := by
  simp only [access?, get?, Table.get?_insert, Std.LawfulEqOrd.compare_eq_iff_eq]
  split <;> rfl

/-- Classifications made by recording blocks and by weakening. -/
inductive Built : Classification → Prop
  | empty (config : Config) : Built (.empty config)
  | record {k k' : Classification} {place : Place} {fetches : List Fetch} :
      Built k → k.record place fetches = .ok k' → Built k'
  | weaken {k k' : Classification} {own : Footprint} {others : List Footprint} :
      Built k → k.weaken own others = .ok k' → Built k'

/-- A block is recorded for the first time, or joined with what is stored. -/
theorem record_cases {place : Place} {fetches : List Fetch} (h : k.record place fetches = .ok k') :
    ∃ fresh stored, fresh.fetches = fetches ∧
      k' = ⟨k.config, k.records.insert place stored⟩ ∧
      (k.get? place = none ∧ stored = fresh ∨
        ∃ old, k.get? place = some old ∧ old.join k.config place.context fresh = .ok stored) := by
  obtain ⟨fresh, hfresh, hstore⟩ := bind_eq_ok.mp h
  have hfetches := Record.ofFetches_eq_ok hfresh
  cases hget : k.get? place with
  | none =>
    rw [hget] at hstore
    obtain ⟨stored, heq, hstore⟩ := bind_eq_ok.mp hstore
    obtain rfl := pure_eq_ok.mp heq
    exact ⟨fresh, fresh, hfetches, (pure_eq_ok.mp hstore).symm, .inl ⟨rfl, rfl⟩⟩
  | some old =>
    rw [hget] at hstore
    obtain ⟨stored, hjoin, hstore⟩ := bind_eq_ok.mp hstore
    exact ⟨fresh, stored, hfetches, (pure_eq_ok.mp hstore).symm, .inr ⟨old, rfl, hjoin⟩⟩

/-- Recording a block weakens what is stored, and the stored classes of the block are those of the
fetches or weaker. -/
theorem record_eq_ok {place : Place} {fetches : List Fetch} (h : k.record place fetches = .ok k') :
    k.Below k' ∧ ∀ n f, fetches[n]? = some f →
      ∃ b, k'.access? place n = some b ∧ f.access.Weakens b := by
  obtain ⟨fresh, stored, rfl, rfl, hcases⟩ := record_cases h
  -- what was stored for the block and what is found now are weakened to what is stored then
  obtain ⟨hold, hnew⟩ :
      (∀ n a, k.access? place n = some a → ∃ g, stored.fetches[n]? = some g ∧ a.Weakens g.access) ∧
      ∀ (n : Nat) f, fresh.fetches[n]? = some f →
        ∃ g, stored.fetches[n]? = some g ∧ f.access.Weakens g.access := by
    rcases hcases with ⟨hnone, rfl⟩ | ⟨old, hget, hjoin⟩
    · refine ⟨fun n a ha => ?_, fun n f hf => ⟨f, hf, .refl _⟩⟩
      rw [access?, hnone] at ha
      cases ha
    · obtain ⟨hl, hr⟩ := Record.weakens_of_join_eq_ok hjoin
      refine ⟨fun n a ha => ?_, hr⟩
      rw [access?, hget, Option.bind_some] at ha
      obtain ⟨f, hf, rfl⟩ := Option.map_eq_some_iff.mp ha
      exact hl n f hf
  constructor
  · intro q n a ha
    rw [access?_insert]
    by_cases hq : q = place
    · rw [if_pos hq]
      obtain ⟨g, hg, hw⟩ := hold n a (hq ▸ ha)
      exact ⟨g.access, by rw [hg]; rfl, hw⟩
    · rw [if_neg hq]
      exact ⟨a, ha, .refl a⟩
  · intro n f hf
    obtain ⟨g, hg, hw⟩ := hnew n f hf
    refine ⟨g.access, ?_, hw⟩
    rw [access?_insert, if_pos rfl, hg]
    rfl

end Classification

/-! ### Classified instructions -/

/-- Instructions are paired with the classes at their own index, or with unknown ones. -/
theorem Classification.pairAccesses_getElem? {α : Type} (as : List α) (fs : List Fetch) (n : Nat) :
    (pairAccesses as fs)[n]? =
      as[n]?.map fun a => (a, (fs[n]?.map (·.access)).getD .unknown) := by
  induction as generalizing fs n with
  | nil => rfl
  | cons a as ih =>
    cases fs with
    | nil =>
      cases n with
      | zero => rfl
      | succ n => simpa [pairAccesses] using ih [] n
    | cons f fs =>
      cases n with
      | zero => rfl
      | succ n => exact ih fs n

theorem Classification.classified_getElem? {α : Type} (k : Classification) (place : Place)
    (as : List α) (n : Nat) : (k.classified place as)[n]? =
      as[n]?.map fun a => (a, (k.access? place n).getD .unknown) := by
  unfold classified access?
  rw [pairAccesses_getElem?]
  cases k.get? place with
  | none => rfl
  | some r => rfl

/-! ### Findings -/

def Footprint.Contains (f : Footprint) (set line : Nat) : Prop :=
  (f.inSet set).contains line = true

/-- A recorded line is added, and no other one. -/
theorem Footprint.contains_record {f : Footprint} {set line set' line' : Nat} :
    (f.record set line).Contains set' line' ↔
      set' = set ∧ line' = line ∨ f.Contains set' line' := by
  simp only [Contains, Table.contains, inSet, record, Table.get?_insert,
    Std.LawfulEqOrd.compare_eq_iff_eq]
  by_cases hset : set' = set
  · simp only [hset, if_true, Option.getD_some, Table.get?_insert,
      Std.LawfulEqOrd.compare_eq_iff_eq, true_and]
    by_cases hline : line' = line
    · simp [hline]
    · simp [hline]
  · simp [hset]

namespace Level.Findings

/-- All findings of an analysis occur in later ones. -/
structure Below (f g : Findings) : Prop where
  records : f.records.Below g.records
  footprint : ∀ {set line}, f.footprint.Contains set line → g.footprint.Contains set line

theorem Below.refl (f : Findings) : f.Below f :=
  ⟨.refl _, id⟩

theorem Below.trans {f g h : Findings} (h₁ : f.Below g) (h₂ : g.Below h) : f.Below h :=
  ⟨h₁.records.trans h₂.records, h₂.footprint ∘ h₁.footprint⟩

end Level.Findings

end CycleBounds.Cache
