import CycleBounds.Proofs.Cache.Lines
import Mathlib.Data.List.Perm.Subperm

/-!
# Interference at a shared level

Tasks on other cores fetch lines of their footprints at any time, and push the lines of a task back
in the second level that they share with it. How far a line is pushed back is bounded by the number
of lines that the others use in its set. A classification that is weakened by other tasks counts
only those of them that the task does not use itself, which is enough unless the others also fetch
lines of the task (*contested* lines), apart from the fetched line itself.

* `Interleaved`: the shared level after some fetches of a task and of others, in any order.
* `Interleaved.pushed`: what the others have done to a line that is cached for the task alone.
* `shared_hit`: a guaranteed hit stays one if its age leaves room for contested lines.
* `contested_evicted`: without that room it may miss.
-/

namespace CycleBounds.Cache

open Code (Program Procedure Draft)
open Run (History Issue Execution Walk)

/-! ### Weakened classes -/

/-- Lines of others may take what the class guarantees. -/
def Access.Disturbed (c : Config) (foreign : Nat) : Access → Prop
  | .alwaysHit age => c.ways ≤ age + foreign
  | .firstMiss => 0 < foreign
  | _ => False

instance {c : Config} (foreign : Nat) : (a : Access) → Decidable (a.Disturbed c foreign)
  | .alwaysHit _ => inferInstanceAs (Decidable (_ ≤ _))
  | .firstMiss => inferInstanceAs (Decidable (_ < _))
  | .hitUpper => .isFalse id
  | .alwaysMiss => .isFalse id
  | .unknown => .isFalse id

def Fetch.disturb (c : Config) (foreign : Nat) (f : Fetch) : Fetch :=
  if f.access.Disturbed c foreign then { f with access := .unknown } else f

/-- The age of a line that is pushed back by others is in range. -/
def Fetch.InRange (foreign : Nat) (f : Fetch) : Prop :=
  ∀ age, f.access = .alwaysHit age → age + foreign < Word.limit

section Weakening

variable {c : Config} {k k' : Classification} {own : Footprint} {others : List Footprint}
  {foreign : Nat} {f g : Fetch}

theorem Fetch.access_weakens_disturb (f : Fetch) :
    f.access.Weakens (f.disturb c foreign).access := by
  unfold disturb
  split
  · exact .unknown _
  · exact .refl _

/-- Weakening a fetch fails only if an age gets out of range. -/
theorem Classification.weakenFetch_eq_ok_iff :
    weakenFetch c foreign f = .ok g ↔ f.InRange foreign ∧ f.disturb c foreign = g := by
  obtain ⟨line, a⟩ := f
  cases a with
  | alwaysHit age =>
    have hrange : Fetch.InRange foreign ⟨line, .alwaysHit age⟩ ↔ age + foreign < Word.limit :=
      ⟨fun h => h age rfl, fun h _ hage => Access.alwaysHit.inj hage ▸ h⟩
    rw [hrange]
    constructor
    · intro h
      obtain ⟨hlt, h⟩ := Word.add_bind_eq_ok.mp h
      exact ⟨hlt, pure_eq_ok.mp h⟩
    · rintro ⟨hlt, rfl⟩
      exact Word.add_bind_eq_ok.mpr ⟨hlt, rfl⟩
  | firstMiss => exact ⟨fun h => ⟨nofun, pure_eq_ok.mp h⟩, fun h => pure_eq_ok.mpr h.2⟩
  | hitUpper => exact ⟨fun h => ⟨nofun, pure_eq_ok.mp h⟩, fun h => pure_eq_ok.mpr h.2⟩
  | alwaysMiss => exact ⟨fun h => ⟨nofun, pure_eq_ok.mp h⟩, fun h => pure_eq_ok.mpr h.2⟩
  | unknown => exact ⟨fun h => ⟨nofun, pure_eq_ok.mp h⟩, fun h => pure_eq_ok.mpr h.2⟩

/-- A hit that is left after weakening has room for foreign lines. -/
theorem Classification.weakenFetch_hit {age : Nat} (h : weakenFetch c foreign f = .ok g)
    (hg : g.access = .alwaysHit age) : f.access = .alwaysHit age ∧ age + foreign < c.ways := by
  obtain ⟨-, rfl⟩ := weakenFetch_eq_ok_iff.mp h
  unfold Fetch.disturb at hg
  split at hg
  · cases hg
  · rename_i hkept
    rw [hg] at hkept
    exact ⟨hg, Nat.lt_of_not_le hkept⟩

/-- Every fetch of a block is weakened by the lines that others use in its set. -/
theorem Classification.weaken_eq_ok (h : k.weaken own others = .ok k') {place : Place} {r : Record}
    {n : Nat} {f : Fetch} (hr : k.get? place = some r) (hf : r.fetches[n]? = some f) :
    ∃ g, k'.access? place n = some g.access ∧
      weakenFetch k.config (own.foreignLines (k.config.setOf f.line) others) f = .ok g := by
  obtain ⟨records, hrecords, h⟩ := bind_eq_ok.mp h
  obtain rfl := pure_eq_ok.mp h
  obtain ⟨r', hr', hget⟩ := Table.get?_traverse hrecords hr
  obtain ⟨fetches, hfetches, hr'⟩ := bind_eq_ok.mp hr'
  rcases mapM_getElem? hfetches n with ⟨-, hnone⟩ | ⟨f', g, hf', hg, hweaken⟩
  · rw [hf] at hnone
    cases hnone
  · obtain rfl := Option.some.inj (hf.symm.trans hf')
    refine ⟨g, ?_, hweaken⟩
    rw [access?, get?, hget, Option.bind_some, Record.ofFetches_eq_ok hr', hg]
    rfl

theorem Analysis.weaken_eq_ok {a a' : Analysis} (h : a.weaken others = .ok a')
    (hk : a.l2 = some k) :
    ∃ k', a'.l2 = some k' ∧ k.weaken a.footprint others = .ok k' := by
  unfold Analysis.weaken at h
  rw [hk] at h
  obtain ⟨k', hweaken, h⟩ := bind_eq_ok.mp h
  obtain rfl := pure_eq_ok.mp h
  exact ⟨k', rfl, hweaken⟩

end Weakening

/-! ### Shared levels -/

def Footprint.Any (others : List Footprint) (set line : Nat) : Prop :=
  ∃ f ∈ others, f.Contains set line

/-- The second level after an execution of a task, whose first level is `c₁`, and after any fetches
of other tasks in between, which have the given footprints. All caches are empty at the start. -/
inductive Interleaved (c₁ c₂ : Config) (others : List Footprint) : History → Lru c₂ → Prop
  | start : Interleaved c₁ c₂ others [] (.empty c₂)
  | above {h m i} : Interleaved c₁ c₂ others h m →
      (firstLevel c₁ h).Holds (c₁.line i.address) → Interleaved c₁ c₂ others (i :: h) m
  | own {h m i} : Interleaved c₁ c₂ others h m →
      ¬ (firstLevel c₁ h).Holds (c₁.line i.address) →
      Interleaved c₁ c₂ others (i :: h) (m.access (c₂.line i.address))
  | other {h m line} : Interleaved c₁ c₂ others h m →
      Footprint.Any others (c₂.setOf line) line → Interleaved c₁ c₂ others h (m.access line)

/-- What other tasks have done to a line: those used since are used since by the task itself or by
others, and the line is evicted only for want of room. -/
structure Pushed {c : Config} (others : List Footprint) (own shared : Lru c) (x : Nat) : Prop where
  recent : ∀ y ∈ shared.before x, y ∈ own.before x ∨ Footprint.Any others (c.setOf x) y
  evicted : shared.Holds x ∨ shared.Full x

section Sharing

variable {c c₁ c₂ : Config} {others : List Footprint} {own shared : Lru c} {x y : Nat}

/-- Fetches of the task itself keep the account of what others have done to a line. -/
theorem Pushed.fetch_own (h : Pushed others own shared x) (hne : y ≠ x)
    (hholds : (own.access y).Holds x) : Pushed others (own.access y) (shared.access y) x where
  recent := by
    intro z hz
    rcases Lru.mem_of_mem_before_access hz with hz | hz
    · rcases h.recent z hz with hz | hother
      · exact .inl (Lru.mem_before_access hne hholds (.inl hz))
      · exact .inr hother
    · exact .inl (Lru.mem_before_access hne hholds (.inr hz))
  evicted := Lru.holds_or_full_access h.evicted

theorem Pushed.fetch_other (h : Pushed others own shared x)
    (hy : Footprint.Any others (c.setOf y) y) : Pushed others own (shared.access y) x where
  recent := by
    intro z hz
    rcases Lru.mem_of_mem_before_access hz with hz | ⟨rfl, hset⟩
    · exact h.recent z hz
    · exact .inr (hset ▸ hy)
  evicted := Lru.holds_or_full_access h.evicted

theorem pushed_access_self (x : Nat) : Pushed others (own.access x) (shared.access x) x where
  recent := by
    intro z hz
    rw [Lru.before_access_self] at hz
    cases hz
  evicted := .inl (Lru.holds_iff.mpr ⟨0, shared.holdsAt_access_self x⟩)

/-- The lines that the second level would hold for a task alone are pushed back by others, at
most. -/
theorem Interleaved.pushed {h : History} {shared : Lru c₂}
    (hshared : Interleaved c₁ c₂ others h shared) {x : Nat}
    (hx : (secondLevel c₁ c₂ h).Holds x) : Pushed others (secondLevel c₁ c₂ h) shared x := by
  -- by induction on how the tasks were interleaved
  induction hshared with
  | start => cases hx
  | @above h m i _ hhit ih =>
    rw [secondLevel_of_hit hhit] at hx ⊢
    exact ih hx
  | @own h m i _ hmiss ih =>
    rw [secondLevel_of_miss hmiss] at hx ⊢
    by_cases hne : c₂.line i.address = x
    · rw [hne]
      exact pushed_access_self x
    · exact (ih (hx.of_access hne)).fetch_own hne hx
  | other _ hother ih => exact (ih hx).fetch_other hother

end Sharing

/-! ### How far lines are pushed back -/

namespace Footprint

variable {f : Footprint} {others : List Footprint} {set line x : Nat}

theorem mem_lines : line ∈ f.lines set ↔ f.Contains set line := by
  rw [lines, Table.mem_keys_iff]
  rfl

theorem mem_flatMap_lines : line ∈ others.flatMap (·.lines set) ↔ Any others set line := by
  simp only [List.mem_flatMap, mem_lines]
  rfl

/-- How many lines the others use in a set that `f` uses, too, apart from one line. -/
def contestedLines (f : Footprint) (set line : Nat) (others : List Footprint) : Nat :=
  let lines := others.flatMap (·.lines set)
  (lines.filter fun l => (f.inSet set).contains l && l != line).eraseDups.length

/-- Other lines that others use are foreign or contested. -/
theorem exists_other_lines (f : Footprint) (set line : Nat) (others : List Footprint) :
    ∃ lines : List Nat,
      lines.length = f.foreignLines set others + f.contestedLines set line others ∧
      ∀ x, x ≠ line → Any others set x → x ∈ lines := by
  refine ⟨_ ++ _, List.length_append, ?_⟩
  intro x hne hx
  simp only [List.mem_append, List.mem_eraseDups, List.mem_filter, mem_flatMap_lines, hx, true_and]
  cases (f.inSet set).contains x with
  | true => simpa using hne
  | false => simp

end Footprint

/-- Others push a line back by as many places at most as they use lines in its set. -/
theorem Pushed.length_before_le {c : Config} {others : List Footprint} {own shared : Lru c}
    {x : Nat} (h : Pushed others own shared x) (f : Footprint) :
    (shared.before x).length ≤ (own.before x).length +
      (f.foreignLines (c.setOf x) others + f.contestedLines (c.setOf x) x others) := by
  obtain ⟨lines, hlength, hlines⟩ := f.exists_other_lines (c.setOf x) x others
  rw [← hlength, ← List.length_append]
  refine (List.subperm_of_subset (shared.nodup_before x) ?_).length_le
  intro y hy
  rcases h.recent y hy with hown | hother
  · exact List.mem_append_left _ hown
  · have hne : y ≠ x := by simpa using List.mem_takeWhile_imp hy
    exact List.mem_append_right _ (hlines y hne hother)

/-- A line is pushed back by at most as many places as the others have lines besides it. -/
theorem Pushed.holdsAt {c : Config} {others : List Footprint} {own shared : Lru c} {x age : Nat}
    (h : Pushed others own shared x) (f : Footprint) (hage : (own.before x).length ≤ age)
    (hroom : age + f.foreignLines (c.setOf x) others + f.contestedLines (c.setOf x) x others <
      c.ways) :
    ∃ position ≤ age + f.foreignLines (c.setOf x) others + f.contestedLines (c.setOf x) x others,
      shared.HoldsAt x position := by
  have hle := h.length_before_le f
  by_cases hholds : shared.Holds x
  · exact ⟨_, by omega, hholds.holdsAt_before⟩
  · have hfull : shared.Full x := h.evicted.resolve_left hholds
    rw [Lru.before_of_not_holds hholds, hfull] at hle
    omega

/-! ### Guaranteed hits -/

section Hits

variable {program : Program} {entry : Nat} {levels : Hierarchy} {a a' : Analysis} {c₂ : Config}
  {p : Procedure} {h past : History} {i : Issue} {others : List Footprint} {shared : Lru c₂}

/-- A recorded fetch of an execution, at the second level, with the line that is fetched. -/
theorem Hierarchy.exists_fetch (hprogram : program.Accepted)
    (hentry : program.procedures[entry]? = some p) (hl₂ : levels.l2 = some c₂)
    (hresult : (levels.analyze program entry).result = .ok a)
    (hexec : Execution .free program p [] h) (hfetch : i :: past <:+ h) :
    ∃ k r f, a.l2 = some k ∧ k.config = c₂ ∧ k.get? i.place = some r ∧
      r.fetches[i.index]? = some f ∧ f.line = c₂.line i.address ∧
      f.access.Describes (¬ (firstLevel levels.l1 past).Holds (levels.l1.line i.address))
        (secondLevel levels.l1 c₂ past) (c₂.line i.address) := by
  obtain ⟨-, hsecond⟩ := Hierarchy.all_sound hprogram hentry hresult hexec
  obtain ⟨k, hk, hsound⟩ := hsecond c₂ hl₂
  obtain ⟨⟨access, hget, hdescribes⟩, -⟩ := hsound.of_suffix hfetch
  obtain ⟨r, hr, haccess⟩ := Option.bind_eq_some_iff.mp hget
  obtain ⟨f, hf, rfl⟩ := Option.map_eq_some_iff.mp haccess
  obtain ⟨first, -, -, hlevel⟩ := Hierarchy.analyze_eq_ok hresult
  rw [hl₂] at hlevel
  obtain ⟨second, hlevel, hk', -⟩ := hlevel
  obtain rfl := Option.some.inj (hk.symm.trans hk')
  -- the fetch is recorded with its own line, as the records keep the lines of their blocks
  have hlocated := Level.analyze_located hprogram hlevel
  have hp : program.procedures[p.id]? = some p := by rwa [hprogram.id_eq hentry]
  have hissued := (hexec.issued hprogram hp trivial).of_suffix hfetch
  exact ⟨_, r, f, hk, hlocated.config, hr, hf, hlocated.line_eq hissued hr hf, hdescribes⟩

/-- Guaranteed hits next to other tasks. A fetch that reaches the second level and is still recorded
as a hit has room for the foreign lines of its set. If it has room for the contested ones, too, then
it hits the shared level, in which the others have pushed its line back by no more than that. -/
theorem shared_hit (hprogram : program.Accepted) (hentry : program.procedures[entry]? = some p)
    (hl₂ : levels.l2 = some c₂) (hresult : (levels.analyze program entry).result = .ok a)
    (hweaken : a.weaken others = .ok a') (hexec : Execution .free program p [] h)
    (hfetch : i :: past <:+ h) (hshared : Interleaved levels.l1 c₂ others past shared) :
    let line := c₂.line i.address
    let foreign := a.footprint.foreignLines (c₂.setOf line) others
    let contested := a.footprint.contestedLines (c₂.setOf line) line others
    ∃ k access, a'.l2 = some k ∧ k.access? i.place i.index = some access ∧
      (¬ (firstLevel levels.l1 past).Holds (levels.l1.line i.address) →
        ∀ age, access = .alwaysHit age → age + foreign < c₂.ways ∧
          (age + foreign + contested < c₂.ways →
            ∃ position ≤ age + foreign + contested, shared.HoldsAt line position)) := by
  intro line foreign contested
  obtain ⟨k, r, f, hk, rfl, hr, hf, hline, hdescribes⟩ :=
    Hierarchy.exists_fetch hprogram hentry hl₂ hresult hexec hfetch
  obtain ⟨k', hk', hweaken⟩ := Analysis.weaken_eq_ok hweaken hk
  obtain ⟨g, hg, hweaken⟩ := Classification.weaken_eq_ok hweaken hr hf
  refine ⟨k', g.access, hk', hg, ?_⟩
  intro hmiss age hage
  rw [hline] at hweaken
  obtain ⟨hhit, hroom⟩ := Classification.weakenFetch_hit hweaken hage
  refine ⟨hroom, ?_⟩
  intro hroom
  rw [hhit] at hdescribes
  obtain ⟨position, hle, hat⟩ := hdescribes hmiss
  have hpushed := hshared.pushed (Lru.holds_iff.mpr ⟨position, hat⟩)
  exact hpushed.holdsAt a.footprint (hat.length_before ▸ hle) hroom

end Hits

/-- In the second round of the loop, another task has pushed the line of the header back. -/
theorem shared_hit_alternating :
    let c₁ := smallHierarchy.l1
    let c₂ : Config := ⟨1, 2, 4, 5, 50, by decide⟩
    let others := [Footprint.empty.record 0 2]
    ∃ a a', (smallHierarchy.analyze ⟨[alternating]⟩ 0).result = .ok a ∧
      a.weaken others = .ok a' ∧
      (a'.l2.bind fun k => k.access? ⟨0, 0, Context.root.nest .steady⟩ 0) = some (.alwaysHit 0) ∧
      ∃ shared, Interleaved c₁ c₂ others alternatingHistory.tail shared ∧
        ¬ shared.HoldsAt (c₂.line 0) 0 ∧
        ∃ position ≤ 1, shared.HoldsAt (c₂.line 0) position := by
  intro c₁ c₂ others
  have hentry : (Program.mk [alternating]).procedures[0]? = some alternating := rfl
  have hlevels : smallHierarchy.l2 = some c₂ := rfl
  have hmiss : ¬ (firstLevel c₁ alternatingHistory.tail).Holds (c₁.line 0) := by decide
  obtain ⟨a, a', hresult, hweaken, hclass, hforeign, hcontested⟩ : ∃ a a',
      (smallHierarchy.analyze ⟨[alternating]⟩ 0).result = .ok a ∧ a.weaken others = .ok a' ∧
      (a'.l2.bind fun k => k.access? ⟨0, 0, Context.root.nest .steady⟩ 0) =
        some (.alwaysHit 0) ∧
      a.footprint.foreignLines (c₂.setOf (c₂.line 0)) others = 1 ∧
      a.footprint.contestedLines (c₂.setOf (c₂.line 0)) (c₂.line 0) others = 0 := by
    refine ⟨_, _, rfl, rfl, ?_⟩
    decide +kernel
  have hline : Footprint.Any others (c₂.setOf 2) 2 :=
    ⟨_, List.mem_cons_self, Footprint.contains_record.mpr (.inl ⟨by decide, rfl⟩)⟩
  have hshared : Interleaved c₁ c₂ others alternatingHistory.tail _ :=
    .other (.own (.own .start (by decide)) (by decide)) hline
  obtain ⟨k, access, hk, hget, hhit⟩ := shared_hit alternating_accepted hentry hlevels hresult
    hweaken alternating_execution (List.suffix_refl _) hshared
  refine ⟨a, a', hresult, hweaken, hclass, _, hshared, by decide, ?_⟩
  rw [hk] at hclass
  obtain ⟨-, hheld⟩ := hhit hmiss 0 (Option.some.inj (hget.symm.trans hclass))
  rw [hforeign, hcontested] at hheld
  exact hheld (by decide)

/-! ### Contested lines -/

def returningDraft : Draft where
  id := 0
  name := "returning"
  blocks := [[⟨32, none⟩, ⟨0, none⟩, ⟨16, none⟩, ⟨0, none⟩]]
  edges := []
  loops := []

def returning : Procedure where
  id := 0
  name := "returning"
  blocks := [⟨[⟨32, none⟩, ⟨0, none⟩, ⟨16, none⟩, ⟨0, none⟩], [], [], none, none⟩]
  loops := []
  order := [0]
  sinks := [0]

theorem returning_accepted : Program.Accepted ⟨[returning]⟩ :=
  ⟨[returningDraft], [returning], rfl, rfl⟩

def returningHistory : History :=
  [⟨⟨0, 0, .root⟩, 3, 0⟩, ⟨⟨0, 0, .root⟩, 2, 16⟩, ⟨⟨0, 0, .root⟩, 1, 0⟩, ⟨⟨0, 0, .root⟩, 0, 32⟩]

theorem returning_execution :
    Execution .free ⟨[returning]⟩ returning [] returningHistory := by
  have harrive : Walk .free ⟨[returning]⟩ returning [] ⟨0, [], 0⟩ [] := .arrive (.block rfl)
  have hfirst := harrive.fetch (i := ⟨32, none⟩) rfl rfl
  have hsecond := hfirst.fetch (i := ⟨0, none⟩) rfl rfl
  have hthird := hsecond.fetch (i := ⟨16, none⟩) rfl rfl
  exact .here (hthird.fetch (i := ⟨0, none⟩) rfl rfl)

def tightHierarchy : Hierarchy where
  l1 := ⟨0, 1, 4, 1, 5, Nat.one_pos⟩
  l2 := some ⟨0, 2, 4, 5, 50, Nat.two_pos⟩

/-- A line that another task uses, too, is no foreign line. Fetched by the other task at the right
time, it evicts a line whose fetch is still recorded as a hit. -/
theorem contested_evicted :
    let c₁ := tightHierarchy.l1
    let c₂ : Config := ⟨0, 2, 4, 5, 50, by decide⟩
    let others := [Footprint.empty.record 0 2]
    Program.Accepted ⟨[returning]⟩ ∧
    Execution .free ⟨[returning]⟩ returning [] returningHistory ∧
    ∃ a a', (tightHierarchy.analyze ⟨[returning]⟩ 0).result = .ok a ∧ a.weaken others = .ok a' ∧
      (a'.l2.bind fun k => k.access? ⟨0, 0, .root⟩ 3) = some (.alwaysHit 1) ∧
      ¬ (firstLevel c₁ returningHistory.tail).Holds (c₁.line 0) ∧
      ∃ shared, Interleaved c₁ c₂ others returningHistory.tail shared ∧
        ¬ shared.Holds (c₂.line 0) := by
  intro c₁ c₂ others
  have hline : Footprint.Any others (c₂.setOf 2) 2 :=
    ⟨_, List.mem_cons_self, Footprint.contains_record.mpr (.inl ⟨by decide, rfl⟩)⟩
  have hshared : Interleaved c₁ c₂ others returningHistory.tail _ :=
    .other (.own (.own (.own .start (by decide)) (by decide)) (by decide)) hline
  refine ⟨returning_accepted, returning_execution, _, _, rfl, rfl, ?_, by decide, _, hshared,
    by decide⟩
  decide +kernel

end CycleBounds.Cache
