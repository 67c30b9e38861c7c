import CycleBounds.Proofs.Cache.Costs
import CycleBounds.Proofs.Cache.Interference

/-!
# Weakened classifications

Other tasks at a shared level take guarantees from a classification, and nothing else changes: what
is lost is unknown afterwards, and a hit remains possible. How many foreign lines a set has depends
only on which lines the others use there together.

* `Classification.weaken_eq_ok_iff`: the weakened classification, record by record.
* `Classification.interference_weakens`: what other tasks can do to a classification, and how two
  groups of them compare.
-/

namespace CycleBounds.Cache

variable {c : Config} {context : Context} {own : Footprint} {others others' : List Footprint}

/-! ### Foreign lines -/

namespace Footprint

/-- Every line that some task uses is used by some task of the second group. -/
def Within (others others' : List Footprint) : Prop :=
  ∀ set line, Any others set line → Any others' set line

theorem foreignLines_le (h : Within others others') (set : Nat) :
    own.foreignLines set others ≤ own.foreignLines set others' := by
  refine (List.subperm_of_subset (nodup_eraseDups _) ?_).length_le
  intro line hline
  rw [List.mem_eraseDups, List.mem_filter] at hline ⊢
  exact ⟨mem_flatMap_lines.mpr (h set line (mem_flatMap_lines.mp hline.1)), hline.2⟩

theorem foreignLines_congr (h : Within others others') (h' : Within others' others) (set : Nat) :
    own.foreignLines set others = own.foreignLines set others' :=
  Nat.le_antisymm (foreignLines_le h set) (foreignLines_le h' set)

end Footprint

/-! ### Fetches -/

namespace Access

variable {a : Access} {foreign foreign' : Nat}

theorem Disturbed.mono (h : a.Disturbed c foreign) (hle : foreign ≤ foreign') :
    a.Disturbed c foreign' := by
  cases a with
  | alwaysHit age => exact Nat.le_trans h (Nat.add_le_add_left hle age)
  | firstMiss => exact Nat.lt_of_lt_of_le h hle
  | hitUpper => exact h
  | alwaysMiss => exact h
  | unknown => exact h

/-- A guarantee that is lost was one of hits, at best at least. -/
theorem Disturbed.cost_best (h : a.Disturbed c foreign) :
    unknown.cost c context .best = a.cost c context .best := by
  cases a with
  | alwaysHit => rfl
  | firstMiss => rfl
  | hitUpper => exact h.elim
  | alwaysMiss => exact h.elim
  | unknown => rfl

end Access

namespace Fetch

variable {f g : Fetch} {foreign foreign' : Nat}

@[simp] theorem line_disturb (f : Fetch) : (f.disturb c foreign).line = f.line := by
  unfold disturb
  split <;> rfl

theorem weakens_disturb (f : Fetch) : f.Weakens (f.disturb c foreign) :=
  ⟨(line_disturb f).symm, f.access_weakens_disturb⟩

theorem cost_best_disturb (f : Fetch) :
    (f.disturb c foreign).access.cost c context .best = f.access.cost c context .best := by
  unfold disturb
  split
  · rename_i h
    exact h.cost_best
  · rfl

theorem disturb_disturb (f : Fetch) :
    (f.disturb c foreign).disturb c foreign = f.disturb c foreign := by
  by_cases h : f.access.Disturbed c foreign
  · have hf : f.disturb c foreign = { f with access := .unknown } := if_pos h
    rw [hf]
    rfl
  · have hf : f.disturb c foreign = f := if_neg h
    rw [hf, hf]

/-- More lines of others take what fewer leave, and give nothing back. -/
theorem disturb_of_le (f : Fetch) (hle : foreign ≤ foreign') :
    f.disturb c foreign' = f.disturb c foreign ∨
      f.disturb c foreign' = { f.disturb c foreign with access := .unknown } := by
  unfold disturb
  by_cases h' : f.access.Disturbed c foreign'
  · by_cases h : f.access.Disturbed c foreign
    · exact .inl (by rw [if_pos h, if_pos h'])
    · exact .inr (by rw [if_neg h, if_pos h'])
  · have h : ¬ f.access.Disturbed c foreign := fun h => h' (h.mono hle)
    exact .inl (by rw [if_neg h, if_neg h'])

theorem InRange.mono (h : f.InRange foreign') (hle : foreign ≤ foreign') : f.InRange foreign :=
  fun age hage => Nat.lt_of_le_of_lt (Nat.add_le_add_left hle age) (h age hage)

theorem InRange.disturb (h : f.InRange foreign) : (f.disturb c foreign).InRange foreign := by
  unfold Fetch.disturb
  split
  · intro age hage
    cases hage
  · exact h

end Fetch

/-! ### Records -/

def disturbAll (c : Config) (own : Footprint) (others : List Footprint) (fetches : List Fetch) :
    List Fetch :=
  fetches.map fun f => f.disturb c (own.foreignLines (c.setOf f.line) others)

/-- The ages and the costs of fetches next to other tasks are in range. -/
structure Endures (c : Config) (context : Context) (own : Footprint) (others : List Footprint)
    (fetches : List Fetch) : Prop where
  ages : ∀ f ∈ fetches, f.InRange (own.foreignLines (c.setOf f.line) others)
  costs : Record.Fits c context (disturbAll c own others fetches)

section Records

variable {fs : List Fetch}

theorem weaker_disturbAll (c : Config) (own : Footprint) (others : List Footprint)
    (fs : List Fetch) : Weaker fs (disturbAll c own others fs) :=
  List.forall₂_map_right_iff.mpr (List.forall₂_same.mpr fun f _ => f.weakens_disturb)

theorem lines_disturbAll (c : Config) (own : Footprint) (others : List Footprint)
    (fs : List Fetch) : (disturbAll c own others fs).map (·.line) = fs.map (·.line) := by
  unfold disturbAll
  rw [List.map_map]
  exact List.map_congr_left fun f _ => f.line_disturb

theorem disturbAll_disturbAll (c : Config) (own : Footprint) (others : List Footprint)
    (fs : List Fetch) :
    disturbAll c own others (disturbAll c own others fs) = disturbAll c own others fs := by
  unfold disturbAll
  rw [List.map_map]
  refine List.map_congr_left fun f _ => ?_
  rw [Function.comp_apply, Fetch.line_disturb, Fetch.disturb_disturb]

theorem cost_best_disturbAll (c : Config) (own : Footprint) (others : List Footprint)
    (fs : List Fetch) :
    Record.cost c context .best (disturbAll c own others fs) = Record.cost c context .best fs := by
  unfold Record.cost disturbAll
  rw [List.map_map]
  exact congrArg List.sum (List.map_congr_left fun f _ => f.cost_best_disturb)

/-- More tasks take what fewer leave, and give nothing back. -/
theorem disturbAll_of_within (h : Footprint.Within others others') (fs : List Fetch) :
    List.Forall₂ (fun f g => g = f ∨ g = { f with access := .unknown })
      (disturbAll c own others fs) (disturbAll c own others' fs) := by
  unfold disturbAll
  rw [List.forall₂_map_left_iff, List.forall₂_map_right_iff, List.forall₂_same]
  exact fun f _ => f.disturb_of_le (Footprint.foreignLines_le h _)

theorem Endures.of_within (hfs : Endures c context own others' fs)
    (h : Footprint.Within others others') : Endures c context own others fs where
  ages f hf := (hfs.ages f hf).mono (Footprint.foreignLines_le h _)
  costs := by
    refine hfs.costs.of_weaker ((disturbAll_of_within h fs).imp fun f g hfg => ?_)
    rcases hfg with rfl | rfl
    · exact ⟨rfl, .refl _⟩
    · exact ⟨rfl, .unknown _⟩

/-- What stays in range next to other tasks does so a second time. -/
theorem Endures.disturbAll (hfs : Endures c context own others fs) :
    Endures c context own others (disturbAll c own others fs) where
  ages := by
    intro g hg
    obtain ⟨f, hf, rfl⟩ := List.mem_map.mp hg
    rw [Fetch.line_disturb]
    exact (hfs.ages f hf).disturb
  costs := by
    rw [disturbAll_disturbAll]
    exact hfs.costs

/-- Next to other tasks, the costs of many fetches or the age of a line can be out of range. -/
theorem strain_of_not_endures (h : ¬ Endures c context own others fs) :
    Word.limit ≤ fs.length * max c.hitLatency c.missLatency ∨
      ∃ line age, ⟨line, .alwaysHit age⟩ ∈ fs ∧
        Word.limit ≤ age + own.foreignLines (c.setOf line) others := by
  by_cases hshort : fs.length * max c.hitLatency c.missLatency < Word.limit
  · refine .inr (by_contra fun hages => h ⟨?_, ?_⟩)
    · rintro ⟨line, _⟩ hf age rfl
      exact Nat.lt_of_not_le fun hge => hages ⟨line, age, hf, hge⟩
    · exact Record.fits_of_short (by rwa [CycleBounds.Cache.disturbAll, List.length_map])
  · exact .inl (Nat.le_of_not_lt hshort)

end Records

namespace Classification

variable {k k' : Classification} {fs : List Fetch} {r : Record}

def weakenRecord (c : Config) (context : Context) (own : Footprint) (others : List Footprint)
    (fetches : List Fetch) : Except Fault Record := do
  let weakened ← fetches.mapM fun f =>
    weakenFetch c (own.foreignLines (c.setOf f.line) others) f
  Record.ofFetches c context weakened

/-- A record can be weakened just if its ages and costs stay in range. -/
theorem weakenRecord_eq_ok_iff : weakenRecord c context own others fs = .ok r ↔
    Endures c context own others fs ∧ .counted c context (disturbAll c own others fs) = r := by
  have hmap : ∀ fetches, (fs.mapM fun f =>
        weakenFetch c (own.foreignLines (c.setOf f.line) others) f) = .ok fetches ↔
      (∀ f ∈ fs, f.InRange (own.foreignLines (c.setOf f.line) others)) ∧
        disturbAll c own others fs = fetches :=
    fun _ => mapM_eq_ok_iff fun _ _ => weakenFetch_eq_ok_iff
  constructor
  · intro h
    obtain ⟨fetches, hfetches, h⟩ := bind_eq_ok.mp h
    obtain ⟨hages, rfl⟩ := (hmap fetches).mp hfetches
    obtain ⟨hcosts, rfl⟩ := Record.ofFetches_eq_ok_iff.mp h
    exact ⟨⟨hages, hcosts⟩, rfl⟩
  · rintro ⟨hfs, rfl⟩
    exact bind_eq_ok.mpr ⟨_, (hmap _).mpr ⟨hfs.ages, rfl⟩,
      Record.ofFetches_eq_ok_iff.mpr ⟨hfs.costs, rfl⟩⟩

theorem ensures_weakenFetch (c : Config) (foreign : Nat) (f : Fetch) :
    Ensures (· = .overflow) (weakenFetch c foreign f) fun _ => True := by
  unfold weakenFetch
  split
  · exact (Word.ensures_add _ _).bind fun _ _ _ => trivial
  · trivial
  · trivial

/-- Only numbers that are too large keep a record from being weakened. -/
theorem weakenRecord_eq_error {cause : Fault}
    (h : weakenRecord c context own others fs = .error cause) :
    cause = .overflow ∧ ¬ Endures c context own others fs := by
  constructor
  · have hend : Ensures (· = .overflow) (weakenRecord c context own others fs) fun _ => True :=
      (Ensures.mapM fun f _ => ensures_weakenFetch c _ f).bind fun fetches _ _ =>
        Record.ensures_ofFetches c context fetches
    rw [h] at hend
    exact hend
  · intro hfs
    rw [weakenRecord_eq_ok_iff.mpr ⟨hfs, rfl⟩] at h
    cases h

theorem weaken_eq (k : Classification) (own : Footprint) (others : List Footprint) :
    k.weaken own others = (do
      let records ← k.records.traverse fun place r =>
        weakenRecord k.config place.context own others r.fetches
      return { k with records }) := rfl

/-- Only numbers that are too large keep a classification from being weakened. -/
theorem weaken_eq_error {cause : Fault} (h : k.weaken own others = .error cause) :
    cause = .overflow ∧ ∃ place r, k.get? place = some r ∧
      ¬ Endures k.config place.context own others r.fetches := by
  rw [weaken_eq] at h
  cases hrecords : k.records.traverse fun place r =>
      weakenRecord k.config place.context own others r.fetches with
  | ok records =>
    rw [hrecords] at h
    cases h
  | error stop =>
    rw [hrecords] at h
    obtain rfl : stop = cause := Except.error.inj h
    obtain ⟨place, r, hr, hstop⟩ := Table.traverse_eq_error hrecords
    obtain ⟨rfl, hfs⟩ := weakenRecord_eq_error hstop
    exact ⟨rfl, place, r, hr, hfs⟩

/-- A classification next to other tasks, record by record. -/
structure Weakened (own : Footprint) (others : List Footprint) (k k' : Classification) : Prop where
  endures : ∀ {place r}, k.get? place = some r →
    Endures k.config place.context own others r.fetches
  config : k'.config = k.config
  get? : ∀ place, k'.get? place = (k.get? place).map fun r =>
    .counted k.config place.context (disturbAll k.config own others r.fetches)

/-- A weakened classification is one record by record. -/
theorem weakened_of_weaken (h : k.weaken own others = .ok k') : Weakened own others k k' := by
  rw [weaken_eq] at h
  obtain ⟨records, hrecords, h⟩ := bind_eq_ok.mp h
  obtain rfl := pure_eq_ok.mp h
  have hrecord : ∀ place r, k.get? place = some r →
      Endures k.config place.context own others r.fetches ∧
      records.get? place =
        some (.counted k.config place.context (disturbAll k.config own others r.fetches)) := by
    intro place r hr
    obtain ⟨r', hr', hget⟩ := Table.get?_traverse hrecords hr
    obtain ⟨hfs, rfl⟩ := weakenRecord_eq_ok_iff.mp hr'
    exact ⟨hfs, hget⟩
  refine ⟨fun {place r} hr => (hrecord place r hr).1, rfl, fun place => ?_⟩
  cases hr : k.get? place with
  | some r => exact (hrecord place r hr).2
  | none =>
    -- nothing is recorded where nothing was
    have hkey : place ∉ records.keys := by
      have hnone : k.records.get? place = none := hr
      rw [Table.keys_traverse hrecords, Table.mem_keys_iff, hnone]
      exact Bool.false_ne_true
    rw [Table.mem_keys_iff, Bool.not_eq_true, Option.isSome_eq_false_iff] at hkey
    exact Option.isNone_iff_eq_none.mp hkey

/-- To weaken a classification is to weaken its records, one by one. -/
theorem weaken_eq_ok_iff : k.weaken own others = .ok k' ↔ Weakened own others k k' := by
  refine ⟨weakened_of_weaken, fun h => ?_⟩
  cases hk : k.weaken own others with
  | ok k'' =>
    have h' := weakened_of_weaken hk
    rw [eq_of_get? (h'.config.trans h.config.symm) fun place =>
      (h'.get? place).trans (h.get? place).symm]
  | error cause =>
    obtain ⟨-, place, r, hr, hfs⟩ := weaken_eq_error hk
    exact absurd (h.endures hr) hfs

theorem keys_of_weaken (h : k.weaken own others = .ok k') :
    k'.records.keys = k.records.keys := by
  rw [weaken_eq] at h
  obtain ⟨records, hrecords, h⟩ := bind_eq_ok.mp h
  obtain rfl := pure_eq_ok.mp h
  exact Table.keys_traverse hrecords

/-- Only the lines that the others use together matter. -/
theorem weaken_congr (h : Footprint.Within others others') (h' : Footprint.Within others' others) :
    k.weaken own others = k.weaken own others' := by
  unfold weaken
  simp only [Footprint.foreignLines_congr h h']

/-- To weaken a classification a second time changes nothing. -/
theorem Weakened.again (h : Weakened own others k k') : Weakened own others k' k' where
  endures := by
    intro place r' hr'
    rw [h.get?] at hr'
    obtain ⟨r, hr, rfl⟩ := Option.map_eq_some_iff.mp hr'
    rw [h.config]
    exact (h.endures hr).disturbAll
  config := rfl
  get? place := by
    rw [h.get?, Option.map_map, h.config]
    refine congrArg (Option.map · _) (funext fun r => ?_)
    exact congrArg (Record.counted _ _) (disturbAll_disturbAll _ _ _ _).symm

/-- Next to fewer tasks, nothing is out of range that is in range next to more. -/
theorem Weakened.exists_of_within (h : Weakened own others' k k')
    (hwithin : Footprint.Within others others') : ∃ k₀, k.weaken own others = .ok k₀ := by
  cases hweaken : k.weaken own others with
  | ok k₀ => exact ⟨k₀, rfl⟩
  | error cause =>
    obtain ⟨-, place, r, hr, hfs⟩ := weaken_eq_error hweaken
    exact absurd ((h.endures hr).of_within hwithin) hfs

/-! ### Interference -/

/-- What is stored is a record of some fetches. -/
theorem exists_counted_of_record {place : Place} (h : k.record place fs = .ok k') :
    ∃ stored, k' = ⟨k.config, k.records.insert place (.counted k.config place.context stored)⟩ := by
  obtain ⟨fresh, hfresh, h⟩ := bind_eq_ok.mp h
  cases hget : k.get? place with
  | none =>
    rw [hget] at h
    obtain ⟨stored, hstored, h⟩ := bind_eq_ok.mp h
    obtain rfl := pure_eq_ok.mp hstored
    obtain ⟨-, rfl⟩ := Record.ofFetches_eq_ok_iff.mp hfresh
    exact ⟨_, (pure_eq_ok.mp h).symm⟩
  | some old =>
    rw [hget] at h
    obtain ⟨stored, hstored, h⟩ := bind_eq_ok.mp h
    obtain ⟨-, -, hstored⟩ := bind_eq_ok.mp hstored
    obtain ⟨-, rfl⟩ := Record.ofFetches_eq_ok_iff.mp hstored
    exact ⟨_, (pure_eq_ok.mp h).symm⟩

/-- Every record of a built classification counts its own fetches. -/
theorem Built.counted (hk : k.Built) {place : Place} (hr : k.get? place = some r) :
    .counted k.config place.context r.fetches = r := by
  -- records are counted when they are stored, and again when they are weakened
  induction hk generalizing r with
  | empty => cases hr
  | @record k k' q fetches _ hrecord ih =>
    obtain ⟨stored, rfl⟩ := exists_counted_of_record hrecord
    by_cases hq : place = q
    · obtain rfl := hq
      rw [Classification.get?, Table.get?_insert_self] at hr
      obtain rfl := Option.some.inj hr
      rfl
    · rw [Classification.get?, Table.get?_insert_of_ne _ hq] at hr
      exact ih hr
  | weaken _ hweaken =>
    have hweakened := weakened_of_weaken hweaken
    rw [hweakened.get?] at hr
    obtain ⟨r₀, -, rfl⟩ := Option.map_eq_some_iff.mp hr
    rw [hweakened.config]
    rfl

/-- Other tasks only take guarantees from a classification. The blocks, their lines and their costs
at best stay, costs at worst do not fall, and the same tasks take nothing more when they are counted
again. Only the lines that they use together matter, and of two groups the one with more of them
leaves every fetch as it is next to the other one or makes it unknown. -/
theorem interference_weakens (hk : k.Built) (own : Footprint) (others : List Footprint) :
    (∀ others', (∀ set line, Footprint.Any others' set line ↔ Footprint.Any others set line) →
      k.weaken own others' = k.weaken own others) ∧
    Ensures (fun cause => cause = .overflow ∧ ∃ place r, k.get? place = some r ∧
        (Word.limit ≤ r.fetches.length * max k.config.hitLatency k.config.missLatency ∨
          ∃ line age, ⟨line, .alwaysHit age⟩ ∈ r.fetches ∧
            Word.limit ≤ age + own.foreignLines (k.config.setOf line) others))
      (k.weaken own others) fun k' =>
        k'.config = k.config ∧ k'.records.keys = k.records.keys ∧
        (∀ place r r', k.get? place = some r → k'.get? place = some r' →
          r'.fetches.map (·.line) = r.fetches.map (·.line) ∧ r'.bcost = r.bcost ∧
          (k.config.hitLatency ≤ k.config.missLatency → r.wcost ≤ r'.wcost)) ∧
        k'.weaken own others = .ok k' ∧
        ∀ fewer, (∀ set line, Footprint.Any fewer set line → Footprint.Any others set line) →
          ∃ k₀, k.weaken own fewer = .ok k₀ ∧
            ∀ place r₀ r', k₀.get? place = some r₀ → k'.get? place = some r' →
              List.Forall₂ (fun f g => g = f ∨ g = { f with access := .unknown })
                r₀.fetches r'.fetches := by
  refine ⟨fun others' hsame => weaken_congr (fun set line => (hsame set line).mp)
    fun set line => (hsame set line).mpr, ?_⟩
  cases hweaken : k.weaken own others with
  | error cause =>
    obtain ⟨rfl, place, r, hr, hfs⟩ := weaken_eq_error hweaken
    exact ⟨rfl, place, r, hr, strain_of_not_endures hfs⟩
  | ok k' =>
    have h := weakened_of_weaken hweaken
    refine ⟨h.config, keys_of_weaken hweaken, ?_, weaken_eq_ok_iff.mpr h.again, ?_⟩
    · intro place r r' hr hr'
      rw [h.get?, hr] at hr'
      obtain rfl := Option.some.inj hr'
      have hcounted := hk.counted hr
      refine ⟨lines_disturbAll _ _ _ _,
        (cost_best_disturbAll _ _ _ _).trans (congrArg Record.bcost hcounted), fun hle => ?_⟩
      calc r.wcost
        _ = Record.cost k.config place.context .worst r.fetches :=
          (congrArg Record.wcost hcounted).symm
        _ ≤ _ := Record.cost_worst_le (weaker_disturbAll _ _ _ _) hle
    · intro fewer hfewer
      obtain ⟨k₀, hk₀⟩ := h.exists_of_within hfewer
      refine ⟨k₀, hk₀, fun place r₀ r' hr₀ hr' => ?_⟩
      rw [(weakened_of_weaken hk₀).get?] at hr₀
      rw [h.get?] at hr'
      obtain ⟨r, hr, rfl⟩ := Option.map_eq_some_iff.mp hr₀
      rw [hr] at hr'
      obtain rfl := Option.some.inj hr'
      exact disturbAll_of_within hfewer r.fetches

/-- Another task has one line in the first set, and two ways leave room for it only behind a line
that was used last. -/
theorem interference_weakens_crowded :
    let c : Config := ⟨1, 2, 4, 5, 50, Nat.two_pos⟩
    let place : Place := ⟨0, 0, .root⟩
    let fetches : List Fetch := [⟨4, .alwaysHit 0⟩, ⟨6, .alwaysHit 1⟩, ⟨5, .firstMiss⟩]
    let own := Footprint.empty.record 0 4
    let other := Footprint.empty.record 0 10
    ∃ k k', (empty c).record place fetches = .ok k ∧ k.Built ∧
      k.weaken own [other] = .ok k' ∧ k'.weaken own [other] = .ok k' ∧
      k.weaken own [other, other] = .ok k' ∧
      (k'.get? place).map (·.fetches) =
        some [⟨4, .alwaysHit 0⟩, ⟨6, .unknown⟩, ⟨5, .firstMiss⟩] ∧
      ∀ r r', k.get? place = some r → k'.get? place = some r' →
        r'.bcost = r.bcost ∧ r.wcost ≤ r'.wcost := by
  intro c place fetches own other
  have hrun : ((do
      let k ← (empty c).record place fetches
      let k' ← k.weaken own [other]
      return (k'.get? place).map (·.fetches)) : Except Fault _) =
        .ok (some [⟨4, .alwaysHit 0⟩, ⟨6, .unknown⟩, ⟨5, .firstMiss⟩]) := by
    decide +kernel
  obtain ⟨k, hk, hrun⟩ := bind_eq_ok.mp hrun
  obtain ⟨k', hk', hrun⟩ := bind_eq_ok.mp hrun
  have hbuilt : k.Built := .record (.empty c) hk
  have hconfig : k.config = c := by
    obtain ⟨stored, rfl⟩ := exists_counted_of_record hk
    rfl
  obtain ⟨hsame, hend⟩ := interference_weakens hbuilt own [other]
  obtain ⟨-, -, hrecords, hagain, -⟩ := hend.result hk'
  refine ⟨k, k', hk, hbuilt, hk', hagain, (hsame _ ?_).trans hk', pure_eq_ok.mp hrun, ?_⟩
  · intro set line
    simp [Footprint.Any]
  · intro r r' hr hr'
    obtain ⟨-, hbest, hworst⟩ := hrecords place r r' hr hr'
    exact ⟨hbest, hworst (by rw [hconfig]; decide)⟩

end Classification

end CycleBounds.Cache
