import CycleBounds.Cache.Hierarchy
import CycleBounds.Proofs.Cache.Loops

/-!
# Soundness of cache analyses

What an analysis says about a fetch is true of least-recently-used caches, in every execution of the
program that starts with empty caches and however often its loops repeat.

* `Level.all_sound`: all fetches of an execution are recorded, and rightly so, at a level whose
  fetches the level above admits.
* `firstLevel_sound`: the classes at the first level.
* `secondLevel_sound`: the classes and the footprint at a second level, which is reached by the
  fetches that miss the first.
-/

namespace CycleBounds.Cache

open Code (Program Procedure Draft Loop)
open Run (History Issue Frame Execution Policy Walk Contract)

/-! ### One level -/

namespace Level

variable {program : Program} {entry : Nat} {config : Config} {upper : Option Classification}
  {r : Result}

/-- An analysis follows a call of the entry procedure with an empty cache. -/
theorem analyze_eq_ok (h : (analyze program entry config upper).result = .ok r) :
    (procedureAt ⟨program, config, upper⟩ (program.procedures.length + 1) true entry .empty
      ⟨.empty config, .empty⟩).result = .ok (r.exit, ⟨r.classification, r.footprint⟩) := by
  simp only [analyze, Traced.result_bind, Traced.result_liftM, Traced.result_emit,
    Traced.result_pure] at h
  obtain ⟨⟨exit, findings⟩, hcall, h⟩ := bind_eq_ok.mp h
  obtain ⟨p, -, h⟩ := bind_eq_ok.mp h
  obtain ⟨⟨⟩, -, h⟩ := bind_eq_ok.mp h
  obtain rfl := Except.ok.inj h
  exact hcall

/-- What an analysis says about runs of the entry procedure. -/
theorem analyze_contract (hprogram : program.Accepted)
    (hresult : (analyze program entry config upper).result = .ok r) (feed : Feed config) :
    Contract .free program
      (Right ⟨program, config, upper⟩ ⟨r.classification, r.footprint⟩ feed true) entry
      (Tracks ⟨program, config, upper⟩ ⟨r.classification, r.footprint⟩ feed true .empty)
      (Tracks ⟨program, config, upper⟩ ⟨r.classification, r.footprint⟩ feed true r.exit) := by
  have hcall : CallSound ⟨program, config, upper⟩ ⟨r.classification, r.footprint⟩ feed
      (procedureAt ⟨program, config, upper⟩ (program.procedures.length + 1)) :=
    callSound_procedureAt hprogram _
  exact hcall.contract (analyze_eq_ok hresult) (.refl _) State.fits_empty

/-- The empty state tracks the start of an execution. -/
theorem tracks_start {subject : Subject} {final : Findings} {feed : Feed subject.config}
    (hempty : feed.cache [] = .empty subject.config) :
    Tracks subject final feed true .empty [] := by
  refine ⟨fun _ => ?_, fun _ _ => trivial⟩
  rw [hempty]
  exact State.covers_empty

/-- All fetches of an execution are recorded, and rightly so. -/
theorem all_sound (hprogram : program.Accepted)
    (hresult : (analyze program entry config upper).result = .ok r) {p : Procedure}
    (hentry : program.procedures[entry]? = some p) (feed : Feed config)
    (hempty : feed.cache [] = .empty config) {h : History}
    (hexec : Execution .free program p [] h)
    (hadmitted : h.All (Admitted ⟨program, config, upper⟩ feed)) :
    h.All (Sound ⟨program, config, upper⟩ ⟨r.classification, r.footprint⟩ feed) :=
  (analyze_contract hprogram hresult feed).safe hentry (tracks_start hempty) hexec rfl hadmitted

end Level

/-! ### The first level -/

def firstLevel (c : Config) : History → Lru c
  | [] => .empty c
  | i :: h => (firstLevel c h).access (c.line i.address)

def firstFeed (c : Config) : Level.Feed c where
  reaches _ _ := True
  cache := firstLevel c
  cache_of_reaches _ := rfl
  cache_of_not_reaches h := absurd trivial h

section FirstLevel

variable {program : Program} {entry : Nat} {c : Config} {r : Level.Result} {p : Procedure}
  {h past : History} {i : Issue}

/-- Without a level above, every fetch is admitted. -/
theorem admitted_firstFeed (program : Program) (c : Config) (h : History) :
    h.All (Level.Admitted ⟨program, c, none⟩ (firstFeed c)) := by
  induction h with
  | nil => trivial
  | cons i h ih => exact ⟨trivial, ih⟩

/-- All fetches of an execution are recorded rightly at the first level. -/
theorem all_sound_firstFeed (hprogram : program.Accepted)
    (hentry : program.procedures[entry]? = some p)
    (hresult : (Level.analyze program entry c none).result = .ok r)
    (hexec : Execution .free program p [] h) :
    h.All (Level.Sound ⟨program, c, none⟩ ⟨r.classification, r.footprint⟩ (firstFeed c)) :=
  Level.all_sound hprogram hresult hentry (firstFeed c) rfl hexec (admitted_firstFeed program c h)

/-- The classes of the first level are sound: a fetch of an execution is recorded under its block,
its context and its number in the block. If it is recorded as a hit of some age, then its line is
cached at a position of at most this age, and if it is recorded as a miss, then it is not cached. -/
theorem firstLevel_sound (hprogram : program.Accepted)
    (hentry : program.procedures[entry]? = some p)
    (hresult : (Level.analyze program entry c none).result = .ok r)
    (hexec : Execution .free program p [] h) (hfetch : i :: past <:+ h) :
    ∃ a, r.classification.access? i.place i.index = some a ∧
      (∀ age, a = .alwaysHit age →
        ∃ position ≤ age, (firstLevel c past).HoldsAt (c.line i.address) position) ∧
      (a = .alwaysMiss → ¬ (firstLevel c past).Holds (c.line i.address)) := by
  have hsound := (all_sound_firstFeed hprogram hentry hresult hexec).of_suffix hfetch
  obtain ⟨⟨a, hget, hdescribes⟩, -⟩ := hsound
  refine ⟨a, hget, ?_, ?_⟩
  · rintro age rfl
    exact hdescribes trivial
  · rintro rfl
    exact hdescribes trivial

end FirstLevel

/-! A loop that fetches two lines in turn. -/

def alternatingDraft : Draft where
  id := 0
  name := "alternating"
  blocks := [[⟨0, none⟩], [⟨16, none⟩], []]
  edges := [(0, 1), (0, 2)]
  loops := [{ header := 0, sink := 1, members := [], bound := 2, naturalExit := false }]

def alternating : Procedure where
  id := 0
  name := "alternating"
  blocks := [⟨[⟨0, none⟩], [], [1, 2], some 0, some 0⟩, ⟨[⟨16, none⟩], [0], [], none, some 0⟩,
    ⟨[], [0], [], none, none⟩]
  loops := [⟨0, 1, 2, false, none, 0, [0, 1], [0, 1]⟩]
  order := [0, 2]
  sinks := [2]

theorem alternating_accepted : Program.Accepted ⟨[alternating]⟩ :=
  ⟨[alternatingDraft], [alternating], rfl, rfl⟩

def alternatingHistory : History :=
  [⟨⟨0, 0, Context.root.nest .steady⟩, 0, 0⟩, ⟨⟨0, 1, Context.root.nest .first⟩, 0, 16⟩,
    ⟨⟨0, 0, Context.root.nest .first⟩, 0, 0⟩]

theorem alternating_loop {l : Nat} {loop : Loop} (h : alternating.loops[l]? = some loop) :
    loop = ⟨0, 1, 2, false, none, 0, [0, 1], [0, 1]⟩ := by
  cases l with
  | zero => exact (Option.some.inj h).symm
  | succ l => cases h

theorem alternating_header {policy : Policy} :
    Walk policy ⟨[alternating]⟩ alternating [] ⟨0, [(0, 0)], 1⟩
      [⟨⟨0, 0, Context.root.nest .first⟩, 0, 0⟩] := by
  have harrive : Walk policy ⟨[alternating]⟩ alternating [] ⟨0, [(0, 0)], 0⟩ [] :=
    .arrive (.enter rfl rfl (by decide))
  exact harrive.fetch (i := ⟨0, none⟩) rfl rfl

/-- From the header of one round to the header of the next. -/
theorem alternating_round {policy : Policy} {round : Nat} {h : History}
    (hwalk : Walk policy ⟨[alternating]⟩ alternating [] ⟨0, [(0, round)], 1⟩ h)
    (hagain : ∀ loop, policy.again loop (round + 1)) :
    Walk policy ⟨[alternating]⟩ alternating [] ⟨0, [(0, round + 1)], 1⟩
      (⟨⟨0, 0, Context.root.nest .steady⟩, 0, 0⟩ ::
        ⟨⟨0, 1, Run.Laps.context [(0, round)]⟩, 0, 16⟩ :: h) := by
  have hfollows : Run.Follows policy alternating ⟨0, [(0, round)], 1⟩ 1 ⟨1, [(0, round)], 0⟩ := by
    refine ⟨⟨_, rfl, rfl⟩, ⟨_, rfl, by decide⟩, fun l loop hl hzero => ?_,
      fun _ _ loop hl hout => ?_, .block rfl⟩
    · obtain rfl := alternating_loop hl
      cases hzero
    · obtain rfl := alternating_loop hl
      exact absurd (by decide) hout
  have hsink := (hwalk.follow hfollows).fetch (i := ⟨16, none⟩) rfl rfl
  have hnext := hsink.again ⟨⟨_, rfl, rfl⟩, rfl, _, rfl, rfl, hagain _, rfl⟩
  exact hnext.fetch (i := ⟨0, none⟩) rfl rfl

theorem alternating_execution :
    Execution .free ⟨[alternating]⟩ alternating [] alternatingHistory :=
  .here (alternating_round alternating_header fun _ => trivial)

def twoLines : Config := ⟨0, 2, 4, 1, 10, Nat.two_pos⟩

/-- In the second round, the line of the header is the older one of two. -/
theorem firstLevel_sound_alternating :
    ∃ r, (Level.analyze ⟨[alternating]⟩ 0 twoLines none).result = .ok r ∧
      r.classification.access? ⟨0, 0, Context.root.nest .steady⟩ 0 = some (.alwaysHit 1) ∧
      ∃ position ≤ 1,
        (firstLevel twoLines alternatingHistory.tail).HoldsAt (twoLines.line 0) position := by
  have hentry : (Program.mk [alternating]).procedures[0]? = some alternating := rfl
  obtain ⟨r, hresult, hclass⟩ : ∃ r,
      (Level.analyze ⟨[alternating]⟩ 0 twoLines none).result = .ok r ∧
      r.classification.access? ⟨0, 0, Context.root.nest .steady⟩ 0 = some (.alwaysHit 1) := by
    refine ⟨_, rfl, ?_⟩
    rfl
  obtain ⟨a, hget, hhit, -⟩ := firstLevel_sound alternating_accepted hentry hresult
    alternating_execution (List.suffix_refl _)
  exact ⟨r, hresult, hclass, hhit 1 (Option.some.inj (hget.symm.trans hclass))⟩

/-! ### The second level -/

/-- The second level after an execution that starts with empty caches. Fetches that hit the first
level `c₁` do not reach it. -/
def secondLevel (c₁ c₂ : Config) : History → Lru c₂
  | [] => .empty c₂
  | i :: h =>
    if (firstLevel c₁ h).Holds (c₁.line i.address) then secondLevel c₁ c₂ h
    else (secondLevel c₁ c₂ h).access (c₂.line i.address)

section Cases

variable {c₁ c₂ : Config} {i : Issue} {h : History}

theorem secondLevel_of_hit (hhit : (firstLevel c₁ h).Holds (c₁.line i.address)) :
    secondLevel c₁ c₂ (i :: h) = secondLevel c₁ c₂ h :=
  if_pos hhit

theorem secondLevel_of_miss (hmiss : ¬ (firstLevel c₁ h).Holds (c₁.line i.address)) :
    secondLevel c₁ c₂ (i :: h) = (secondLevel c₁ c₂ h).access (c₂.line i.address) :=
  if_neg hmiss

end Cases

def secondFeed (c₁ c₂ : Config) : Level.Feed c₂ where
  reaches h i := ¬ (firstLevel c₁ h).Holds (c₁.line i.address)
  cache := secondLevel c₁ c₂
  cache_of_reaches h := secondLevel_of_miss h
  cache_of_not_reaches h := secondLevel_of_hit (Decidable.not_not.mp h)

/-- A class that is right about a fetch admits it to the next level. -/
theorem Access.Describes.admits {c : Config} {a : Access} {m : Lru c} {line : Nat}
    (h : a.Describes True m line) : Level.Admits (some a) (¬ m.Holds line) := by
  cases a with
  | hitUpper => exact absurd trivial h
  | alwaysHit age =>
    obtain ⟨position, -, hat⟩ := h trivial
    exact not_not_intro (Lru.holds_iff.mpr ⟨position, hat⟩)
  | alwaysMiss => exact h trivial
  | firstMiss | unknown => trivial

/-- The classes of the first level agree with which fetches reach the second one. -/
theorem admitted_secondFeed {program : Program} {c₁ : Config} (c₂ : Config) {k : Classification}
    {f : Footprint} {h : History}
    (hsound : h.All (Level.Sound ⟨program, c₁, none⟩ ⟨k, f⟩ (firstFeed c₁))) :
    h.All (Level.Admitted ⟨program, c₂, some k⟩ (secondFeed c₁ c₂)) := by
  apply hsound.imp
  rintro h i ⟨⟨a, hget, hdescribes⟩, -⟩
  have habove : (Level.Subject.mk program c₂ (some k)).above i.place i.index = some a := by
    show some ((k.access? i.place i.index).getD .unknown) = some a
    rw [show k.access? i.place i.index = some a from hget]
    rfl
  unfold Level.Admitted
  rw [habove]
  exact hdescribes.admits

section Hierarchies

variable {program : Program} {entry : Nat} {levels : Hierarchy} {a : Analysis} {c₂ : Config}
  {p : Procedure} {h past : History} {i : Issue}

/-- The levels of a hierarchy are analysed one after the other. -/
theorem Hierarchy.analyze_eq_ok (h : (levels.analyze program entry).result = .ok a) :
    ∃ first, (Level.analyze program entry levels.l1 none).result = .ok first ∧
      a.l1 = first.classification ∧
      match levels.l2 with
      | none => a.l2 = none ∧ a.footprint = first.footprint
      | some c => ∃ second,
        (Level.analyze program entry c (some first.classification)).result = .ok second ∧
        a.l2 = some second.classification ∧ a.footprint = second.footprint := by
  simp only [Hierarchy.analyze, Traced.result_bind] at h
  obtain ⟨first, hfirst, h⟩ := bind_eq_ok.mp h
  refine ⟨first, hfirst, ?_⟩
  cases hl₂ : levels.l2 with
  | none =>
    rw [hl₂, Traced.result_pure] at h
    obtain rfl := Except.ok.inj h
    exact ⟨rfl, rfl, rfl⟩
  | some c =>
    rw [hl₂, Traced.result_bind] at h
    obtain ⟨second, hsecond, h⟩ := bind_eq_ok.mp h
    rw [Traced.result_pure] at h
    obtain rfl := Except.ok.inj h
    exact ⟨rfl, second, hsecond, rfl, rfl⟩

/-- All fetches of an execution are recorded rightly at both levels. -/
theorem Hierarchy.all_sound (hprogram : program.Accepted)
    (hentry : program.procedures[entry]? = some p)
    (hresult : (levels.analyze program entry).result = .ok a)
    (hexec : Execution .free program p [] h) :
    h.All (Level.Classified a.l1 (firstFeed levels.l1)) ∧
      ∀ c₂, levels.l2 = some c₂ → ∃ k, a.l2 = some k ∧
        h.All (Level.Sound ⟨program, c₂, some a.l1⟩ ⟨k, a.footprint⟩
          (secondFeed levels.l1 c₂)) := by
  obtain ⟨first, hfirst, hl₁, hsecond⟩ := Hierarchy.analyze_eq_ok hresult
  have hsound := all_sound_firstFeed hprogram hentry hfirst hexec
  rw [hl₁]
  refine ⟨hsound.imp fun _ _ h => h.1, fun c₂ hl₂ => ?_⟩
  rw [hl₂] at hsecond
  obtain ⟨second, hsecond, hk, hfoot⟩ := hsecond
  refine ⟨second.classification, hk, ?_⟩
  rw [hfoot]
  -- what is right about the first level admits fetches to the second
  exact Level.all_sound hprogram hsecond hentry (secondFeed levels.l1 c₂) rfl hexec
    (admitted_secondFeed c₂ hsound)

/-- The classes and the footprint of the second level are sound: a fetch of an execution is recorded
there, too. If it is recorded as served above, it hits the first level. If it reaches the second
level, then a recorded hit is one, at a position of at most the recorded age, a recorded miss is
one, and its line is in the footprint. -/
theorem secondLevel_sound (hprogram : program.Accepted)
    (hentry : program.procedures[entry]? = some p) (hl₂ : levels.l2 = some c₂)
    (hresult : (levels.analyze program entry).result = .ok a)
    (hexec : Execution .free program p [] h) (hfetch : i :: past <:+ h) :
    let hits₁ := (firstLevel levels.l1 past).Holds (levels.l1.line i.address)
    let cache₂ := secondLevel levels.l1 c₂ past
    let line₂ := c₂.line i.address
    ∃ k access, a.l2 = some k ∧ k.access? i.place i.index = some access ∧
      (access = .hitUpper → hits₁) ∧
      (¬ hits₁ → ∀ age, access = .alwaysHit age → ∃ position ≤ age, cache₂.HoldsAt line₂ position) ∧
      (¬ hits₁ → access = .alwaysMiss → ¬ cache₂.Holds line₂) ∧
      (¬ hits₁ → a.footprint.Contains (c₂.setOf line₂) line₂) := by
  intro hits₁ cache₂ line₂
  obtain ⟨-, hsecond⟩ := Hierarchy.all_sound hprogram hentry hresult hexec
  obtain ⟨k, hk, hsound⟩ := hsecond c₂ hl₂
  obtain ⟨⟨access, hget, hdescribes⟩, hcontains⟩ := hsound.of_suffix hfetch
  refine ⟨k, access, hk, hget, ?_, ?_, ?_, ?_⟩
  · rintro rfl
    exact Decidable.not_not.mp hdescribes
  · rintro hmiss age rfl
    exact hdescribes hmiss
  · rintro hmiss rfl
    exact hdescribes hmiss
  · exact hcontains

end Hierarchies

def smallHierarchy : Hierarchy where
  l1 := ⟨0, 1, 4, 1, 5, Nat.one_pos⟩
  l2 := some ⟨1, 2, 4, 5, 50, Nat.two_pos⟩

/-- If the first level has room for one line only, then the second one serves the header in the
second round. -/
theorem secondLevel_sound_alternating :
    let c₁ := smallHierarchy.l1
    let c₂ : Config := ⟨1, 2, 4, 5, 50, by decide⟩
    ∃ a, (smallHierarchy.analyze ⟨[alternating]⟩ 0).result = .ok a ∧
      (a.l2.bind fun k => k.access? ⟨0, 0, Context.root.nest .steady⟩ 0) = some (.alwaysHit 0) ∧
      ¬ (firstLevel c₁ alternatingHistory.tail).Holds (c₁.line 0) ∧
      (∃ position ≤ 0, (secondLevel c₁ c₂ alternatingHistory.tail).HoldsAt (c₂.line 0) position) ∧
      a.footprint.Contains (c₂.setOf (c₂.line 0)) (c₂.line 0) := by
  intro c₁ c₂
  have hentry : (Program.mk [alternating]).procedures[0]? = some alternating := rfl
  have hlevels : smallHierarchy.l2 = some c₂ := rfl
  have hmiss : ¬ (firstLevel c₁ alternatingHistory.tail).Holds (c₁.line 0) := by decide
  obtain ⟨a, hresult, hclass⟩ : ∃ a, (smallHierarchy.analyze ⟨[alternating]⟩ 0).result = .ok a ∧
      (a.l2.bind fun k => k.access? ⟨0, 0, Context.root.nest .steady⟩ 0) =
        some (.alwaysHit 0) := by
    refine ⟨_, rfl, ?_⟩
    rfl
  obtain ⟨k, access, hk, hget, -, hhit, -, hfoot⟩ := secondLevel_sound alternating_accepted hentry
    hlevels hresult alternating_execution (List.suffix_refl _)
  refine ⟨a, hresult, hclass, hmiss, hhit hmiss 0 ?_, hfoot hmiss⟩
  rw [hk] at hclass
  exact Option.some.inj (hget.symm.trans hclass)

end CycleBounds.Cache
