import CycleBounds.Proofs.Cache.Soundness
import CycleBounds.Proofs.Code.Passable
import Mathlib.Data.List.Perm.Subperm

/-!
# The state in which a procedure returns

A procedure that ends in a loop, which no edge leaves, is left through the header of the loop: the
exit state is the one with which the header ends. A run that is at the end of a round, after the
sink of the loop, has gone on since. What it has fetched after the header in that round is not in
the exit state.

* `Walk.exists_header`: a run in a round of a loop has run the header in this round.
* `exit_at_sink`: what the exit state says about the cache after the sink, given the fetches since
  the header.
* `exit_misses_sink`: a line that the exit state guarantees may be gone by then.
-/

namespace CycleBounds.Run

open Code (Program Procedure Loop)

section Headers

variable {policy : Policy} {program : Program} {p : Procedure} {start : History} {l : Nat}
  {loop : Loop}

/-- The header of a loop has run to its end in a round, and `later` has been fetched since. -/
def HeaderRan (policy : Policy) (program : Program) (p : Procedure) (start : History)
    (l header round : Nat) (later h : History) : Prop :=
  ∃ past g, h = later ++ past ∧ Walk policy program p start g past ∧ g.block = header ∧
    (l, round) ∈ g.laps ∧ g.Ended p

theorem HeaderRan.append {header round : Nat} {later h : History}
    (hran : HeaderRan policy program p start l header round later h) (more : History) :
    HeaderRan policy program p start l header round (more ++ later) (more ++ h) := by
  obtain ⟨past, g, rfl, hg⟩ := hran
  exact ⟨past, g, (List.append_assoc _ _ _).symm, hg⟩

/-- A loop whose round control is in when it arrives at a block other than its header is one that
control was in before. -/
theorem Arrives.mem_laps (hp : p.WellFormed) (hl : p.loops[l]? = some loop) {laps : Laps}
    {b round : Nat} {g : Frame} (h : Arrives p laps b g) (hlap : (l, round) ∈ g.laps)
    (hne : g.block ≠ loop.header) : (l, round) ∈ laps := by
  cases h with
  | block => exact hlap
  | enter hb hl' =>
    rcases List.mem_cons.mp hlap with heq | hlap
    · obtain ⟨rfl, -⟩ := Prod.mk.inj heq
      obtain ⟨loop', hl'', rfl⟩ := hp.headerOf_iff.mp hb
      exact absurd (congrArg Loop.header (Option.some.inj (hl''.symm.trans hl))) hne
    · exact hlap
  | pass _ _ _ _ hlaps => exact hlaps ▸ hlap

/-- In each round of the loop that control is in, it is at the header or has run it. -/
def PastHeader (policy : Policy) (program : Program) (p : Procedure) (start : History)
    (l header : Nat) (f : Frame) (h : History) : Prop :=
  ∀ round, (l, round) ∈ f.laps → f.block ≠ header →
    ∃ later, HeaderRan policy program p start l header round later h

/-- Control that leaves a block in a round of the loop has run the header by then. -/
theorem PastHeader.ended {f : Frame} {h : History} {header round : Nat}
    (hpast : PastHeader policy program p start l header f h)
    (hw : Walk policy program p start f h) (hend : f.Ended p) (hlap : (l, round) ∈ f.laps) :
    ∃ later, HeaderRan policy program p start l header round later h := by
  by_cases hheader : f.block = header
  · exact ⟨[], h, f, rfl, hw, hheader, hlap, hend⟩
  · exact hpast round hlap hheader

theorem PastHeader.append {f g : Frame} {h : History} {header : Nat}
    (hpast : PastHeader policy program p start l header f h) (hblock : g.block = f.block)
    (hlaps : g.laps = f.laps) (more : History) :
    PastHeader policy program p start l header g (more ++ h) := by
  intro round hlap hne
  obtain ⟨later, hran⟩ := hpast round (hlaps ▸ hlap) (hblock ▸ hne)
  exact ⟨more ++ later, hran.append more⟩

/-- A run that is in a round of a loop, at another block than its header, has run the header in this
round. -/
theorem Walk.exists_header (hp : p.WellFormed) (hl : p.loops[l]? = some loop) {f : Frame}
    {h : History} (hw : Walk policy program p start f h) {round : Nat}
    (hlap : (l, round) ∈ f.laps) (hne : f.block ≠ loop.header) :
    ∃ later, HeaderRan policy program p start l loop.header round later h := by
  have hinvariant : Walk policy program p start f h ∧
      PastHeader policy program p start l loop.header f h := by
    -- the walk so far belongs to the invariant, since `HeaderRan` names a walk that ends at the
    -- header
    refine hw.invariant (I := fun f h => Walk policy program p start f h ∧
      PastHeader policy program p start l loop.header f h) ?arrive ?fetch ?call ?follow ?again
    case arrive =>
      intro f harrive
      refine ⟨.arrive harrive, ?_⟩
      intro round hlap hne
      cases harrive.mem_laps hp hl hlap hne
    case fetch =>
      rintro f h i ⟨hw, hpast⟩ hi hc
      exact ⟨hw.fetch hi hc, hpast.append rfl rfl [f.issue p i]⟩
    case call =>
      rintro f h i q callee h' ⟨hw, hpast⟩ hi hc hq ⟨g, hg, hleave⟩
      obtain ⟨more, rfl⟩ := hg.suffix
      exact ⟨hw.call hi hc hq hg hleave, (hpast.append rfl rfl [f.issue p i]).append rfl rfl more⟩
    case follow =>
      rintro f h b g ⟨hw, hpast⟩ hfollow
      refine ⟨hw.follow hfollow, ?_⟩
      intro round hlap hne
      have hbefore := hfollow.arrives.mem_laps hp hl hlap hne
      exact hpast.ended hw hfollow.ended (List.mem_filter.mp hbefore).1
    case again =>
      rintro f h k turn outer g ⟨hw, hpast⟩ hrepeat
      refine ⟨hw.again hrepeat, ?_⟩
      intro round hlap hne
      obtain ⟨loop', hl', -, -, rfl⟩ := hrepeat.loop
      rcases List.mem_cons.mp hlap with heq | hlap
      · -- a new round of the loop starts at its header
        obtain ⟨rfl, -⟩ := Prod.mk.inj heq
        exact absurd (congrArg Loop.header (Option.some.inj (hl'.symm.trans hl))) hne
      · exact hpast.ended hw hrepeat.ended (hrepeat.laps ▸ List.mem_cons_of_mem _ hlap)
  exact hinvariant.2 round hlap hne

end Headers

end CycleBounds.Run

namespace CycleBounds.Cache

open Code (Program Procedure Draft Loop)
open Run (History Issue Frame Walk Policy HeaderRan)

/-! ### Caches after further fetches -/

section Further

variable {c : Config} {later past : History} {x y : Nat}

def fetchedLines (c : Config) (h : History) : List Nat :=
  h.map fun i => c.line i.address

/-- How many other lines of the set of a line are fetched. -/
def rivals (c : Config) (h : History) (x : Nat) : Nat :=
  ((fetchedLines c h).filter fun y => c.setOf y = c.setOf x ∧ y ≠ x).eraseDups.length

/-- The lines used since a line was are those used since before, and those fetched. -/
theorem mem_before_firstLevel (hy : y ∈ (firstLevel c (later ++ past)).before x) :
    y ∈ (firstLevel c past).before x ∨ y ∈ fetchedLines c later ∧ c.setOf y = c.setOf x := by
  induction later with
  | nil => exact .inl hy
  | cons i later ih =>
    rcases Lru.mem_of_mem_before_access hy with hy | ⟨rfl, hset⟩
    · rcases ih hy with hy | ⟨hy, hset⟩
      · exact .inl hy
      · exact .inr ⟨List.mem_cons_of_mem _ hy, hset⟩
    · exact .inr ⟨List.mem_cons_self, hset.symm⟩

theorem holds_or_full_firstLevel (hx : (firstLevel c past).Holds x) (later : History) :
    (firstLevel c (later ++ past)).Holds x ∨ (firstLevel c (later ++ past)).Full x := by
  induction later with
  | nil => exact .inl hx
  | cons i later ih => exact Lru.holds_or_full_access ih

/-- Later fetches push a line back by one for each other line of its set at most. -/
theorem length_before_firstLevel_le (c : Config) (later past : History) (x : Nat) :
    ((firstLevel c (later ++ past)).before x).length ≤
      ((firstLevel c past).before x).length + rivals c later x := by
  rw [rivals, ← List.length_append]
  refine (List.subperm_of_subset (Lru.nodup_before _ x) ?_).length_le
  intro y hy
  have hne : y ≠ x := by simpa using List.mem_takeWhile_imp hy
  rcases mem_before_firstLevel hy with hbefore | ⟨hfetched, hset⟩
  · exact List.mem_append_left _ hbefore
  · refine List.mem_append_right _ (List.mem_eraseDups.mpr ?_)
    exact List.mem_filter.mpr ⟨hfetched, by simpa using ⟨hset, hne⟩⟩

/-- Further fetches move a line back by as many places as they have other lines in its set. -/
theorem holdsAt_firstLevel_append {a position : Nat} (hx : (firstLevel c past).HoldsAt x position)
    (hle : position ≤ a) (hroom : a + rivals c later x < c.ways) :
    ∃ position ≤ a + rivals c later x, (firstLevel c (later ++ past)).HoldsAt x position := by
  have hlength := length_before_firstLevel_le c later past x
  rw [hx.length_before] at hlength
  by_cases hholds : (firstLevel c (later ++ past)).Holds x
  · exact ⟨_, by omega, hholds.holdsAt_before⟩
  · have hfull := (holds_or_full_firstLevel (Lru.holds_iff.mpr ⟨_, hx⟩) later).resolve_left hholds
    rw [Lru.before_of_not_holds hholds, hfull] at hlength
    omega

/-- A line that is not among further fetches was no further back before them. -/
theorem holdsAt_of_firstLevel_append {position : Nat}
    (hx : (firstLevel c (later ++ past)).HoldsAt x position) (hnot : x ∉ fetchedLines c later) :
    ∃ before ≤ position, (firstLevel c past).HoldsAt x before := by
  induction later generalizing position with
  | nil => exact ⟨position, Nat.le_refl _, hx⟩
  | cons i later ih =>
    obtain ⟨hne, hnot⟩ := not_or.mp (List.mem_cons.not.mp hnot)
    by_cases hset : c.setOf x = c.setOf (c.line i.address)
    · obtain ⟨-, j, hj, hpos⟩ := (Lru.holdsAt_access_iff hne hset).mp hx
      obtain ⟨before, hle, hbefore⟩ := ih hj hnot
      rcases hpos with ⟨-, rfl⟩ | ⟨-, rfl⟩
      · exact ⟨before, hle, hbefore⟩
      · exact ⟨before, Nat.le_succ_of_le hle, hbefore⟩
    · exact ih ((Lru.holdsAt_access_of_ne hset).mp hx) hnot

end Further

/-! ### Exit states -/

section Exits

variable {program : Program} {entry l round : Nat} {c : Config} {r : Level.Result} {p : Procedure}
  {loop : Loop} {f : Frame} {h : History}

/-- The exit state covers the cache after every complete run. -/
theorem exit_covers (hprogram : program.Accepted) (hentry : program.procedures[entry]? = some p)
    (hresult : (Level.analyze program entry c none).result = .ok r)
    (hcompletes : Run.Completes .free program p [] h) : r.exit.Covers (firstLevel c h) := by
  have hcontract := Level.analyze_contract hprogram hresult (firstFeed c)
  have htracks := hcontract.returns hentry (Level.tracks_start rfl) hcompletes
  exact htracks.1 (admitted_firstFeed program c h)

/-- A procedure that ends in a loop, at the end of a round, after the sink of the loop. The header
of the loop has run in this round, and `later` was fetched since. A line of the must domain of the
exit state is cached, no further back than its age and the number of other lines of its set in
`later`, if that is less than the number of ways; and a cached line that is not in `later` is in the
may domain, no older than it is. If the header is the sink, then nothing was fetched since. -/
theorem exit_at_sink (hprogram : program.Accepted) (hentry : program.procedures[entry]? = some p)
    (hresult : (Level.analyze program entry c none).result = .ok r)
    (hl : p.loops[l]? = some loop) (houter : loop.parent = none)
    (hclosed : ∀ u ∈ loop.blocks, ∀ v, p.Edge u v → v ∈ loop.blocks)
    (hw : Walk .free program p [] f h) (hlap : (l, round) ∈ f.laps) (hsink : f.block = loop.sink)
    (hend : f.Ended p) :
    ∃ later, HeaderRan .free program p [] l loop.header round later h ∧
      (loop.sink = loop.header → later = []) ∧
      (∀ x a, r.exit.must.get? x = some a → a + rivals c later x < c.ways →
        ∃ position ≤ a + rivals c later x, (firstLevel c h).HoldsAt x position) ∧
      (∀ x position, (firstLevel c h).HoldsAt x position → x ∉ fetchedLines c later →
        ∃ a ≤ position, r.exit.may.get? x = some a) := by
  have hp := hprogram.wellFormed hentry
  obtain ⟨later, hran, hsame⟩ : ∃ later,
      HeaderRan .free program p [] l loop.header round later h ∧
      (loop.sink = loop.header → later = []) := by
    by_cases hheader : loop.sink = loop.header
    · exact ⟨[], ⟨h, f, rfl, hw, hsink.trans hheader, hlap, hend⟩, fun _ => rfl⟩
    · obtain ⟨later, hran⟩ := hw.exists_header hp hl hlap (hsink ▸ hheader)
      exact ⟨later, hran, fun heq => absurd heq hheader⟩
  refine ⟨later, hran, hsame, ?_⟩
  obtain ⟨past, g, rfl, hg, hblock, -, hended⟩ := hran
  have hleaves : Run.Leaves .free p g :=
    ⟨hended, hblock ▸ hprogram.header_mem_sinks hentry hl houter hclosed, fun _ _ _ _ => trivial⟩
  have hcovers := exit_covers hprogram hentry hresult ⟨g, hg, hleaves⟩
  constructor
  · intro x a ha hroom
    obtain ⟨position, hle, hat⟩ := hcovers.must ha
    exact holdsAt_firstLevel_append hat hle hroom
  · intro x position hat hnot
    obtain ⟨before, hle, hat⟩ := holdsAt_of_firstLevel_append hat hnot
    obtain ⟨a, ha, hget⟩ := hcovers.may hat
    exact ⟨a, Nat.le_trans ha hle, hget⟩

end Exits

/-! A loop of two blocks, with which a procedure ends. -/

def closingDraft : Draft where
  id := 0
  name := "closing"
  blocks := [[⟨0, none⟩], [⟨16, none⟩]]
  edges := [(0, 1)]
  loops := [{ header := 0, sink := 1, members := [], bound := 1, naturalExit := true }]

def closingLoop : Loop := ⟨0, 1, 1, true, none, 0, [0, 1], [0, 1]⟩

def closing : Procedure where
  id := 0
  name := "closing"
  blocks := [⟨[⟨0, none⟩], [], [1], some 0, some 0⟩, ⟨[⟨16, none⟩], [0], [], none, some 0⟩]
  loops := [closingLoop]
  order := [0]
  sinks := [0]

theorem closing_accepted : Program.Accepted ⟨[closing]⟩ :=
  ⟨[closingDraft], [closing], rfl, rfl⟩

theorem closing_closed {u v : Nat} (hedge : closing.Edge u v) : v ∈ closingLoop.blocks := by
  obtain ⟨block, hblock, hv⟩ := hedge
  match u, hblock with
  | 0, rfl => exact List.mem_cons_of_mem 0 hv
  | 1, rfl => cases hv

def closingHistory : History :=
  [⟨⟨0, 1, Context.root.nest .first⟩, 0, 16⟩, ⟨⟨0, 0, Context.root.nest .first⟩, 0, 0⟩]

/-- The history is that of a walk through both blocks in the first round. -/
theorem closing_walk : Walk .free ⟨[closing]⟩ closing [] ⟨1, [(0, 0)], 1⟩ closingHistory := by
  have harrive : Walk .free ⟨[closing]⟩ closing [] ⟨0, [(0, 0)], 0⟩ [] :=
    .arrive (.enter rfl rfl (by decide))
  have hheader := harrive.fetch (i := ⟨0, none⟩) rfl rfl
  have hfollows : Run.Follows .free closing ⟨0, [(0, 0)], 1⟩ 1 ⟨1, [(0, 0)], 0⟩ := by
    refine ⟨⟨_, rfl, rfl⟩, ⟨_, rfl, by decide⟩, fun l loop hl hzero => ?_,
      fun _ _ _ _ _ => trivial, .block rfl⟩
    match l, hl with
    | 0, rfl => cases hzero
  exact (hheader.follow hfollows).fetch (i := ⟨16, none⟩) rfl rfl

/-- At most the line of the sink comes after the header. -/
theorem rivals_closing {later past : History} (h : closingHistory = later ++ past) :
    rivals twoLines later 0 ≤ 1 := by
  match later, h with
  | [], _ => decide
  | [i], h =>
    obtain ⟨rfl, -⟩ := List.cons.inj h
    decide
  | [i, j], h =>
    obtain ⟨rfl, htail⟩ := List.cons.inj h
    obtain ⟨rfl, -⟩ := List.cons.inj htail
    decide

/-- With room for two lines, the line of the header is cached after the sink, one place further back
than in the exit state. -/
theorem exit_at_sink_closing :
    ∃ r, (Level.analyze ⟨[closing]⟩ 0 twoLines none).result = .ok r ∧
      r.exit.must.get? 0 = some 0 ∧ ¬ (firstLevel twoLines closingHistory).HoldsAt 0 0 ∧
      ∃ position ≤ 1, (firstLevel twoLines closingHistory).HoldsAt 0 position := by
  have hentry : (Program.mk [closing]).procedures[0]? = some closing := rfl
  have hloop : closing.loops[0]? = some closingLoop := rfl
  obtain ⟨r, hresult, hage⟩ : ∃ r, (Level.analyze ⟨[closing]⟩ 0 twoLines none).result = .ok r ∧
      r.exit.must.get? 0 = some 0 := ⟨_, rfl, rfl⟩
  obtain ⟨later, ⟨past, -, happend, -⟩, -, hheld, -⟩ := exit_at_sink closing_accepted hentry
    hresult hloop rfl (fun u _ v hedge => closing_closed hedge) closing_walk List.mem_cons_self rfl
    ⟨_, rfl, rfl⟩
  have hone := rivals_closing happend
  obtain ⟨position, hle, hat⟩ := hheld 0 0 hage (Nat.lt_succ_of_le (by omega))
  exact ⟨r, hresult, hage, by decide, position, by omega, hat⟩

/-- With room for one line, the exit state guarantees the line of the header, although the sink has
evicted it, and does not have the line of the sink. -/
theorem exit_misses_sink :
    let c : Config := ⟨0, 1, 4, 1, 10, by decide⟩
    Program.Accepted ⟨[closing]⟩ ∧
    closing.loops[0]? = some closingLoop ∧ closingLoop.parent = none ∧
    (∀ u ∈ closingLoop.blocks, ∀ v, closing.Edge u v → v ∈ closingLoop.blocks) ∧
    Walk .free ⟨[closing]⟩ closing [] ⟨closingLoop.sink, [(0, 0)], 1⟩ closingHistory ∧
    ∃ r, (Level.analyze ⟨[closing]⟩ 0 c none).result = .ok r ∧
      r.exit.must.get? 0 = some 0 ∧ ¬ (firstLevel c closingHistory).Holds 0 ∧
      r.exit.may.get? 1 = none ∧ (firstLevel c closingHistory).HoldsAt 1 0 := by
  refine ⟨closing_accepted, rfl, rfl, fun u _ v hedge => closing_closed hedge, closing_walk, _,
    rfl, rfl, by decide, rfl, by decide⟩

end CycleBounds.Cache
