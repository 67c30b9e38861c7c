import CycleBounds.Proofs.Bound.Best
import CycleBounds.Proofs.Cache.Interference

/-!
# Misses at a shared level

Tasks on other cores also load lines into the second level that they share with a task. They load
lines of their footprints only. A line that none of them has used is in the shared level only if the
task has it there by itself, so a guaranteed miss of such a line stays one, and at best only those
fetches are charged an access to the memory that need it. Weakening a classification leaves
guaranteed misses as they are, whether or not others use their lines.

* `Interleaved.kept`: what the shared level knows about a line that nobody else uses.
* `shared_miss`: a guaranteed miss hits only lines that others use.
* `shared_miss_loaded`: such lines it may hit.
-/

namespace CycleBounds.Cache

open Run (History)

/-- The second class of a fetch that is weakened says no more than the first one. -/
theorem Classification.weakens_weakenFetch {c : Config} {foreign : Nat} {f g : Fetch}
    (h : weakenFetch c foreign f = .ok g) : f.access.Weakens g.access := by
  obtain ⟨-, rfl⟩ := weakenFetch_eq_ok_iff.mp h
  exact f.access_weakens_disturb

theorem Analysis.weaken_l1 {a a' : Analysis} {others : List Footprint}
    (h : a.weaken others = .ok a') : a'.l1 = a.l1 := by
  unfold Analysis.weaken at h
  split at h
  · obtain rfl := pure_eq_ok.mp h
    rfl
  · obtain ⟨k, -, h⟩ := bind_eq_ok.mp h
    obtain rfl := pure_eq_ok.mp h
    rfl

/-! ### Lines of one task -/

/-- A line is cached for a task alone, and whatever was used since by the task alone was used since
in the shared level, too. -/
structure Kept {c : Config} (own shared : Lru c) (x : Nat) : Prop where
  held : own.Holds x
  recent : ∀ y ∈ own.before x, y ∈ shared.before x

section Sharing

variable {c c₁ c₂ : Config} {used : List Footprint} {own shared : Lru c} {x y : Nat}

/-- A fetch of the task itself keeps a line as long as the shared level holds it. -/
theorem Kept.fetch_own (h : Kept own shared x) (hne : y ≠ x) (hholds : (shared.access y).Holds x) :
    Kept (own.access y) (shared.access y) x := by
  have hrecent : ∀ z ∈ (own.access y).before x, z ∈ (shared.access y).before x := by
    intro z hz
    apply Lru.mem_before_access hne hholds
    exact (Lru.mem_of_mem_before_access hz).imp_left (h.recent z)
  refine ⟨?_, hrecent⟩
  -- a line is evicted from a full set only, whose lines would all be before it in the shared level
  by_contra hevicted
  have hfull : (own.access y).Full x :=
    (Lru.holds_or_full_access (.inl h.held)).resolve_left hevicted
  have hle := (List.subperm_of_subset (Lru.nodup_before _ x) hrecent).length_le
  rw [Lru.before_of_not_holds hevicted, hfull] at hle
  have hlt := hholds.holdsAt_before.lt_ways
  omega

theorem Kept.fetch_other (h : Kept own shared x) (hne : y ≠ x)
    (hholds : (shared.access y).Holds x) : Kept own (shared.access y) x :=
  ⟨h.held, fun z hz => Lru.mem_before_access hne hholds (.inl (h.recent z hz))⟩

theorem kept_access_self (x : Nat) : Kept (own.access x) (shared.access x) x where
  held := Lru.holds_iff.mpr ⟨0, own.holdsAt_access_self x⟩
  recent := by
    intro z hz
    rw [Lru.before_access_self] at hz
    cases hz

/-- A line that the others do not use is in the shared level only if the task has loaded it. -/
theorem Interleaved.kept {h : History} {shared : Lru c₂}
    (hshared : Interleaved c₁ c₂ used h shared) {x : Nat}
    (hunused : ¬ Footprint.Any used (c₂.setOf x) x) (hx : shared.Holds x) :
    Kept (secondLevel c₁ c₂ h) shared x := by
  induction hshared with
  | start => cases hx
  | @above h m i _ hhit ih =>
    rw [secondLevel_of_hit hhit]
    exact ih hx
  | @own h m i _ hmiss ih =>
    rw [secondLevel_of_miss hmiss]
    -- the task has loaded the line now, or it had before
    by_cases hne : c₂.line i.address = x
    · rw [hne]
      exact kept_access_self x
    · exact (ih (hx.of_access hne)).fetch_own hne hx
  | @other h m line _ hother ih =>
    have hne : line ≠ x := by
      rintro rfl
      exact hunused hother
    exact (ih (hx.of_access hne)).fetch_other hne hx

end Sharing

end CycleBounds.Cache

namespace CycleBounds.Bound

open Code (Program Procedure)
open Cache (Access Analysis Classification Config Footprint Hierarchy Interleaved Lru firstLevel
  secondLevel)
open Run (History Issue Execution)

/-! ### Guaranteed misses -/

section Misses

variable {e : Engine} {entry : Nat} {a : Analysis} {c₂ : Config} {p : Procedure}
  {h past : History} {i : Issue} {others used : List Footprint} {shared : Lru c₂}

/-- Weakened classes are still right about a task by itself. -/
theorem informed_of_weaken (hprogram : e.program.Accepted)
    (hentry : e.program.procedures[entry]? = some p) (hl₂ : e.platform.hierarchy.l2 = some c₂)
    (hresult : (e.platform.hierarchy.analyze e.program entry).result = .ok a)
    (hweaken : a.weaken others = .ok e.analysis) (hexec : Execution .free e.program p [] h)
    (hfetch : i :: past <:+ h) : Informed e past i := by
  constructor
  · rw [Analysis.weaken_l1 hweaken]
    exact (Hierarchy.all_sound hprogram hentry hresult hexec).1.of_suffix hfetch
  · intro c hc
    obtain rfl := Option.some.inj (hl₂.symm.trans hc)
    obtain ⟨k, r, f, hk, rfl, hr, hf, -, hdescribes⟩ :=
      Hierarchy.exists_fetch hprogram hentry hl₂ hresult hexec hfetch
    obtain ⟨k', hk', hweaken⟩ := Analysis.weaken_eq_ok hweaken hk
    obtain ⟨g, hg, hweaken⟩ := Classification.weaken_eq_ok hweaken hr hf
    have hweakens := Classification.weakens_weakenFetch hweaken
    exact ⟨k', hk', g.access, hg, hweakens.describes hdescribes⟩

/-- Guaranteed misses next to other tasks, of which `used` are the lines that they have fetched so
far. A fetch that reaches the second level and is recorded as a miss after weakening misses the
shared level, unless another task has used its line. So does every fetch that is charged an access
to the memory at best, and it misses the first level. -/
theorem shared_miss (hprogram : e.program.Accepted)
    (hentry : e.program.procedures[entry]? = some p) (hl₂ : e.platform.hierarchy.l2 = some c₂)
    (hresult : (e.platform.hierarchy.analyze e.program entry).result = .ok a)
    (hweaken : a.weaken others = .ok e.analysis) (hexec : Execution .free e.program p [] h)
    (hfetch : i :: past <:+ h)
    (hshared : Interleaved e.platform.hierarchy.l1 c₂ used past shared) :
    let hits₁ :=
      (firstLevel e.platform.hierarchy.l1 past).Holds (e.platform.hierarchy.l1.line i.address)
    let line := c₂.line i.address
    ∃ k access, e.analysis.l2 = some k ∧ k.access? i.place i.index = some access ∧
      (¬ hits₁ → access = .alwaysMiss → ¬ Footprint.Any used (c₂.setOf line) line →
        ¬ shared.Holds line) ∧
      (e.sourceAt .best i.place i.index = .memory → ¬ hits₁ ∧
        (¬ Footprint.Any used (c₂.setOf line) line → ¬ shared.Holds line)) := by
  intro hits₁ line
  have hinformed := informed_of_weaken hprogram hentry hl₂ hresult hweaken hexec hfetch
  obtain ⟨k, hk, access, hget, hdescribes⟩ := hinformed.second c₂ hl₂
  have hmisses : ¬ hits₁ → access = .alwaysMiss → ¬ Footprint.Any used (c₂.setOf line) line →
      ¬ shared.Holds line := by
    rintro hmiss rfl hunused hholds
    exact hdescribes hmiss (hshared.kept hunused hholds).held
  refine ⟨k, access, hk, hget, hmisses, ?_⟩
  intro hmemory
  have hmiss : ¬ hits₁ := by
    intro hholds
    rw [sourceAt_of_holds hinformed hholds] at hmemory
    cases hmemory
  exact ⟨hmiss, hmisses hmiss (alwaysMiss_of_memory hk hget hmemory)⟩

end Misses

/-! A block that fetches three lines, next to a task that uses one of them. -/

def tightPlatform : Platform where
  hierarchy := Cache.tightHierarchy
  bus := .unshared
  instrBcet := 0
  instrWcet := 0
  loops := .unroll
  independent := false
  transfers_fit := nofun
  instr_ordered := Nat.le_refl .zero

/-- The other task has fetched the first line again when the block fetches the second one, which
nobody else uses. -/
theorem shared_miss_returning :
    let c₁ := Cache.tightHierarchy.l1
    let c₂ : Config := ⟨0, 2, 4, 5, 50, by decide⟩
    let others := [Footprint.empty.record 0 2]
    ∃ a a', (Cache.tightHierarchy.analyze ⟨[Cache.returning]⟩ 0).result = .ok a ∧
      a.weaken others = .ok a' ∧
      (Engine.mk ⟨[Cache.returning]⟩ a' tightPlatform .embedded 0).sourceAt .best ⟨0, 0, .root⟩ 1 =
        .memory ∧
      ∃ shared, Interleaved c₁ c₂ others (Cache.returningHistory.drop 3) shared ∧
        shared.Holds (c₂.line 32) ∧ ¬ shared.Holds (c₂.line 0) := by
  intro c₁ c₂ others
  obtain ⟨a, a', hresult, hweaken, hmemory⟩ : ∃ a a',
      (Cache.tightHierarchy.analyze ⟨[Cache.returning]⟩ 0).result = .ok a ∧
      a.weaken others = .ok a' ∧
      (Engine.mk ⟨[Cache.returning]⟩ a' tightPlatform .embedded 0).sourceAt .best ⟨0, 0, .root⟩ 1 =
        .memory := by
    refine ⟨_, _, rfl, rfl, ?_⟩
    decide +kernel
  have hline : Footprint.Any others (c₂.setOf 2) 2 :=
    ⟨_, List.mem_cons_self, Footprint.contains_record.mpr (.inl ⟨by decide, rfl⟩)⟩
  have hshared : Interleaved c₁ c₂ others (Cache.returningHistory.drop 3) _ :=
    .other (.own .start (by decide)) hline
  have hunused : ¬ Footprint.Any others (c₂.setOf (c₂.line 0)) (c₂.line 0) := by
    rintro ⟨f, hf, hcontains⟩
    obtain rfl := List.mem_singleton.mp hf
    rcases Footprint.contains_record.mp hcontains with ⟨-, hline⟩ | hempty
    · exact absurd hline (by decide)
    · cases hempty
  have hentry : (Program.mk [Cache.returning]).procedures[0]? = some Cache.returning := rfl
  obtain ⟨k, access, -, -, -, hcharged⟩ := shared_miss
    (e := Engine.mk ⟨[Cache.returning]⟩ a' tightPlatform .embedded 0)
    (i := ⟨⟨0, 0, .root⟩, 1, 0⟩) Cache.returning_accepted hentry rfl hresult hweaken
    Cache.returning_execution ⟨Cache.returningHistory.take 2, rfl⟩ hshared
  obtain ⟨-, hmisses⟩ := hcharged hmemory
  exact ⟨a, a', hresult, hweaken, hmemory, _, hshared, by decide, hmisses hunused⟩

/-- The other task has loaded the second line already. Its fetch is still recorded as a miss, and
charged as one at best. -/
theorem shared_miss_loaded :
    let c₁ := Cache.tightHierarchy.l1
    let c₂ : Config := ⟨0, 2, 4, 5, 50, by decide⟩
    let others := [Footprint.empty.record 0 0]
    Program.Accepted ⟨[Cache.returning]⟩ ∧
    Execution .free ⟨[Cache.returning]⟩ Cache.returning [] Cache.returningHistory ∧
    ∃ a a', (Cache.tightHierarchy.analyze ⟨[Cache.returning]⟩ 0).result = .ok a ∧
      a.weaken others = .ok a' ∧
      (a'.l2.bind fun k => k.access? ⟨0, 0, .root⟩ 1) = some .alwaysMiss ∧
      (Engine.mk ⟨[Cache.returning]⟩ a' tightPlatform .embedded 0).sourceAt .best ⟨0, 0, .root⟩ 1 =
        .memory ∧
      ¬ (firstLevel c₁ (Cache.returningHistory.drop 3)).Holds (c₁.line 0) ∧
      ∃ shared, Interleaved c₁ c₂ others (Cache.returningHistory.drop 3) shared ∧
        shared.Holds (c₂.line 0) := by
  intro c₁ c₂ others
  have hline : Footprint.Any others (c₂.setOf 0) 0 :=
    ⟨_, List.mem_cons_self, Footprint.contains_record.mpr (.inl ⟨by decide, rfl⟩)⟩
  have hshared : Interleaved c₁ c₂ others (Cache.returningHistory.drop 3) _ :=
    .other (.own .start (by decide)) hline
  refine ⟨Cache.returning_accepted, Cache.returning_execution, _, _, rfl, rfl, ?_, ?_, by decide,
    _, hshared, by decide⟩
  · decide +kernel
  · decide +kernel

end CycleBounds.Bound
