import CycleBounds.Proofs.Bound.Alignment
import CycleBounds.Proofs.Bound.Estimates

/-!
# Summarised loops

A summary has the costs of a first and of a steady round of a loop, found without knowing where the
slots of the bus lie. Suppose that the rounds do take no longer from *some* time on. Then this is
enough for the loop, whenever it is entered: it takes less than a period of the bus to wait for such
a time before the first round, and as much before the second one. A steady round that is rounded up
to whole periods ends just where the next one finds the slots in the same place again.

The costs that are found are not always enough. They are where at most one fetch of a loop goes over
the bus, and where every transfer fills its slot and the loop is regular.

* `covers_of_priced`: relative runs find costs that are enough in these cases.
* `boundsLoops_summarize`: the cost of a summarised loop bounds all paths through its rounds.
* `unrolled_le_summarized`: so the bound is not below the one with unrolled loops.
* `summarized_lt_unrolled`: otherwise it may be.
-/

namespace CycleBounds.Bound

namespace Engine

open Code (Procedure Loop)
open Run (Issue Part Path roundContext)

variable {e : Engine} {s : Bus.Schedule} {p : Procedure} {l t t' cost : Nat} {loop : Loop}
  {context : Context} {path : List Issue}

/-! ### Waiting for a time -/

/-- A path takes as long at all times that lie alike to the slots of the bus. -/
theorem clock_le_of_mod_eq (hs : e.platform.bus.timed? = some s) {scenario : Scenario}
    (hmod : t % s.interval = t' % s.interval) (h : e.clock scenario path t' ≤ t' + cost) :
    e.clock scenario path t ≤ t + cost := by
  have hclock : ∀ t, e.clock scenario path t =
      e.clock scenario path (t % s.interval) + t / s.interval * s.interval := by
    intro t
    rw [← clock_add_rounds hs, Nat.mod_add_div']
  have hsplit := Nat.mod_add_div' t s.interval
  have hsplit' := Nat.mod_add_div' t' s.interval
  rw [hclock t'] at h
  rw [hclock t, hmod]
  omega

/-- A round that is rounded up takes a whole number of periods. -/
theorem add_restOfRound_mod {interval : Nat} (hpos : 0 < interval) (time : Nat) :
    (time + restOfRound time interval) % interval = 0 := by
  unfold restOfRound
  split
  · rename_i hrest
    rcases hrest with hzero | hrest
    · omega
    · simpa using hrest
  · have hlt := Nat.mod_lt time hpos
    have hsplit := Nat.mod_add_div time interval
    have hsum : time + (interval - time % interval) = interval * (time / interval + 1) := by
      rw [Nat.mul_succ]
      omega
    rw [hsum, Nat.mul_mod_right]

/-- All paths through a round of a loop take at most so long at worst, if they start at the right
time. -/
def RoundWithin (e : Engine) (p : Procedure) (l : Nat) (loop : Loop) (context : Context)
    (cost : Nat) : Prop :=
  ∃ t, ∀ path, Path e.program Scenario.worst.rounds (.body p (some l) context loop.sink) path →
    e.clock .worst path t ≤ t + cost

/-- There is always a right time to come, before a period of the bus is over. -/
theorem RoundWithin.exists_start (hs : e.platform.bus.timed? = some s)
    (h : e.RoundWithin p l loop context cost) (t : Nat) :
    ∃ start, t ≤ start ∧ start ≤ t + s.interval ∧
      ∀ time, time % s.interval = start % s.interval → ∀ path,
        Path e.program Scenario.worst.rounds (.body p (some l) context loop.sink) path →
        e.clock .worst path time ≤ time + cost := by
  obtain ⟨right, hright⟩ := h
  obtain ⟨wait, hwait, hmod⟩ := s.exists_aligned t right
  refine ⟨t + wait, Nat.le_add_right t wait, by omega, ?_⟩
  intro time htime path hpath
  exact clock_le_of_mod_eq hs (htime.trans hmod) (hright path hpath)

/-! ### Loops -/

/-- The summaries of all loops in a context have costs with a property. -/
def AllSummaries (e : Engine) (context : Context)
    (P : Procedure → Nat → Loop → Nat × Nat → Prop) (ledger : Ledger) : Prop :=
  ∀ p l loop costs, e.program.procedures[p.id]? = some p → p.loops[l]? = some loop →
    ledger.summaries.get? ⟨p.id, loop.header, context⟩ = some costs → P p l loop costs

/-- What all summaries have, those of an earlier ledger have. -/
theorem AllSummaries.of_within {P : Procedure → Nat → Loop → Nat × Nat → Prop}
    {ledger final : Ledger} (h : e.AllSummaries context P final) (hwithin : ledger.Within final) :
    e.AllSummaries context P ledger := by
  intro p l loop costs hp hl hget
  exact h p l loop costs hp hl (hwithin _ _ hget)

/-- What all summaries have after a run, those before it have. -/
theorem keeps_allSummaries (hloops : e.platform.loops = .summarize) (scenario : Scenario)
    (context : Context) (P : Procedure → Nat → Loop → Nat × Nat → Prop) :
    Keeps e scenario (e.AllSummaries context P) where
  stamps h heq := h.of_within (ofSummaries_within.of_eq heq)
  call hcall h := h.of_within (procedureAt_within hloops hcall)
  inner hinner h := h.of_within (loopAt_within hloops hinner)

/-- The summaries of outermost loops are enough for a first round, and for a steady one once it is
rounded up. -/
def Covers (e : Engine) (interval : Nat) : Ledger → Prop :=
  e.AllSummaries .root fun p l loop costs =>
    e.RoundWithin p l loop (Context.root.nest .first) costs.1 ∧
      e.RoundWithin p l loop (Context.root.nest .steady) (costs.2 + restOfRound costs.2 interval)

/-- A round of a loop can be timed without knowing where the slots lie: at most one fetch of the
loop goes over the bus, or transfers fill their slots and the loop is regular. -/
def Alignable (e : Engine) (s : Bus.Schedule) (p : Procedure) (l : Nat) (loop : Loop)
    (context : Context) : Prop :=
  e.Solitary p l loop context ∨ e.FullSlots s ∧ e.Regular p l loop context

/-- First and steady rounds of all loops of the program have a property, where these are not within
other loops. -/
def AllRounds (e : Engine) (P : Procedure → Nat → Loop → Context → Prop) : Prop :=
  ∀ p ∈ e.program.procedures, ∀ l < p.loops.length, ∀ loop ∈ p.loops[l]?,
    P p l loop (Context.root.nest .first) ∧ P p l loop (Context.root.nest .steady)

instance {P : Procedure → Nat → Loop → Context → Prop} [∀ p l loop context,
    Decidable (P p l loop context)] : Decidable (e.AllRounds P) :=
  inferInstanceAs (Decidable (∀ p ∈ e.program.procedures, ∀ l < p.loops.length,
    ∀ loop ∈ p.loops[l]?, P p l loop (Context.root.nest .first) ∧
      P p l loop (Context.root.nest .steady)))

theorem AllRounds.imp {P Q : Procedure → Nat → Loop → Context → Prop} (h : e.AllRounds P)
    (himp : ∀ {p l loop context}, P p l loop context → Q p l loop context) : e.AllRounds Q := by
  intro p hp l hl loop hloop
  exact (h p hp l hl loop hloop).imp himp himp

/-- A relative run finds a cost that is enough for a round, if that can be timed by one. -/
theorem roundWithin_of_priced (hloops : e.platform.loops = .summarize)
    (hbus : e.platform.bus = .scheduled s) (hp : p.WellFormed) (hl : p.loops[l]? = some loop)
    (halignable : e.Alignable s p l loop context) (h : Priced e .worst p l loop context cost) :
    e.RoundWithin p l loop context cost := by
  obtain ⟨m, n, ledger, ledger', hcost⟩ := h
  obtain ⟨progress, hrun, -, hlast : cost = _⟩ := relativeCost_eq_ok hcost
  rw [bodyOf, ← Procedure.orderOf_loop hl] at hrun
  have hinner : InnerStamps .worst true p (e.loopAt (e.procedureAt m) p n) :=
    innerStamps_summarize hloops n
  obtain ⟨t, hround⟩ : ∃ t, ∀ u path,
      Path e.program Scenario.worst.rounds (.body p (some l) context u) path →
      ∃ o, progress.times.get? u = some o ∧ e.clock .worst path t ≤ t + o.finish := by
    rcases halignable with hsolitary | ⟨hslots, hregular⟩
    · exact bounded_of_solitary hbus hp hl hsolitary hinner hrun
    · exact bounded_of_regular hslots hp hl hregular hinner hrun
  refine ⟨t, fun path hpath => ?_⟩
  obtain ⟨o, ho, hle⟩ := hround loop.sink path hpath
  have hfinish : o.finish ≤ cost := by
    rw [hlast]
    exact le_latest ho
  omega

/-- A block is the header of one loop at most. -/
theorem loop_unique (hprogram : e.program.Accepted) {p' : Procedure} {l' : Nat} {loop' : Loop}
    (hp' : e.program.procedures[p'.id]? = some p') (hp : e.program.procedures[p.id]? = some p)
    (hl' : p'.loops[l']? = some loop') (hl : p.loops[l]? = some loop) (hid : p'.id = p.id)
    (hheader : loop'.header = loop.header) : p' = p ∧ l' = l ∧ loop' = loop := by
  obtain rfl : p' = p := by
    rw [hid] at hp'
    exact Option.some.inj (hp'.symm.trans hp)
  have hwell := hprogram.wellFormed hp
  obtain rfl : l' = l := by
    have h₁ := hwell.headerOf_iff.mpr ⟨loop', hl', rfl⟩
    have h₂ := hwell.headerOf_iff.mpr ⟨loop, hl, rfl⟩
    rw [hheader] at h₁
    exact Option.some.inj (h₁.symm.trans h₂)
  exact ⟨rfl, rfl, Option.some.inj (hl'.symm.trans hl)⟩

/-- The costs of relative runs are enough for all loops whose rounds can be timed by one. -/
theorem covers_of_priced (hloops : e.platform.loops = .summarize)
    (hbus : e.platform.bus = .scheduled s) (hprogram : e.program.Accepted)
    (halignable : e.AllRounds (e.Alignable s)) {ledger : Ledger} (h : AllPriced e .worst ledger)
    (interval : Nat) : e.Covers interval ledger := by
  intro p l loop costs hp hl hget
  obtain ⟨p', l', loop', hp', hl', hid, hheader, hfirst, hsteady⟩ := h _ _ hget
  obtain ⟨rfl, rfl, rfl⟩ := loop_unique hprogram hp' hp hl' hl hid hheader
  have hwell := hprogram.wellFormed hp
  obtain ⟨hlt, -⟩ := List.getElem?_eq_some_iff.mp hl
  have hall := halignable p' (List.mem_of_getElem? hp) l' hlt loop' hl
  have hround : e.RoundWithin p' l' loop' (Context.root.nest .steady) costs.2 :=
    roundWithin_of_priced hloops hbus hwell hl hall.2 hsteady
  refine ⟨roundWithin_of_priced hloops hbus hwell hl hall.1 hfirst, ?_⟩
  obtain ⟨t, ht⟩ := hround
  refine ⟨t, fun path hpath => ?_⟩
  have hle := ht path hpath
  omega

/-- A loop waits for a period before its first two rounds, and rounds up all but the first one. -/
theorem extrapolate_worst {interval first steady rest : Nat}
    (h : extrapolate .worst interval first steady rest = .ok cost) :
    cost = interval + first + interval + (steady + restOfRound steady interval) * rest := by
  obtain ⟨-, h⟩ := Word.add_bind_eq_ok.mp h
  obtain ⟨-, h⟩ := Word.add_bind_eq_ok.mp h
  obtain ⟨-, h⟩ := Word.add_bind_eq_ok.mp h
  obtain ⟨-, h⟩ := Word.mul_bind_eq_ok.mp h
  exact (Word.add_eq_ok_iff.mp h).2

/-- The cost of a summarised loop bounds all paths through its rounds. -/
theorem boundsLoops_summarize (hloops : e.platform.loops = .summarize)
    (hs : e.platform.bus.timed? = some s) : BoundsLoops e .worst .worst (e.Covers s.interval) := by
  intro p l loop m n context entry progress progress' path u hp hl hbound hpaths _ hloop hcovers hu
  simp only [Engine.loop, hloops] at hloop
  obtain ⟨costs, ledger, k, cost, hsummary, hcount, hcost, rfl⟩ := summarize_eq_ok hloop
  have hpos := iterations_pos hbound hcount
  obtain rfl := iterations_eq_ok hcount
  obtain rfl := hp.context hloops
  rw [get?_spread, if_pos (hp.wellFormed.end_mem hl hu)]
  refine ⟨_, rfl, ?_⟩
  obtain ⟨hfirst, hsteady⟩ := hcovers p l loop costs hp.procedure hl (by
    rw [summaries_spread]
    exact get?_summary hsummary)
  rw [hs] at hcost
  have hcost := extrapolate_worst hcost
  simp only [Option.map_some, Option.getD_some] at hcost
  obtain ⟨period, hperiod⟩ :=
    Nat.dvd_of_mod_eq_zero (add_restOfRound_mod s.interval_pos costs.2)
  rw [hperiod] at hcost hsteady
  -- wait for the first round and for the second one, and then start whenever a round is over
  obtain ⟨start, hle, hlt, hround⟩ := hfirst.exists_start hs entry.finish
  obtain ⟨second, hle', hlt', hround'⟩ := hsteady.exists_start hs (start + costs.1)
  obtain ⟨z, hentry, hz⟩ : ∃ z : Nat → Nat, z 0 = entry.finish ∧
      ∀ k, z (k + 1) = second + s.interval * period * k :=
    ⟨fun k => k.casesOn entry.finish fun k => second + s.interval * period * k, rfl, fun _ => rfl⟩
  have hstep : ∀ k < Scenario.worst.rounds loop,
      e.clock .worst (path k) (z k) ≤ z (k + 1) := by
    intro k hk
    cases k with
    | zero =>
      have hwait : e.clock .worst (path 0) entry.finish ≤ e.clock .worst (path 0) start :=
        clock_mono hle
      have htime := hround start rfl (path 0) (hpaths 0 hk)
      rw [hentry, hz]
      omega
    | succ k =>
      have hmod : (second + s.interval * period * k) % s.interval = second % s.interval := by
        rw [Nat.mul_assoc, Nat.add_mul_mod_self_left]
      have htime := hround' _ hmod (path (k + 1)) (hpaths (k + 1) hk)
      rw [hz, hz, Nat.mul_succ]
      omega
  have hmono : ∀ k < Scenario.worst.rounds loop, z k ≤ z (k + 1) :=
    fun k hk => Nat.le_trans le_clock (hstep k hk)
  have hall := bounds_rounds z (.refl .worst _) hmono fun k hk _ => hstep k hk
  obtain ⟨rest, hrest⟩ := Nat.exists_eq_succ_of_ne_zero (Nat.ne_of_gt hpos)
  rw [hrest, Nat.succ_sub_one] at hcost
  rw [hentry, hrest, hz] at hall
  rw [hrest]
  refine Scenario.Bounds.trans ?_ hall
  show second + s.interval * period * rest ≤ entry.finish + cost
  omega

end Engine

/-! ### Estimates -/

open Code (Draft Program Procedure)
open Engine (Exhausts Ordered)

variable {program : Program} {analysis : Cache.Analysis} {platform : Platform}
  {schedule : Bus.Schedule} {core entry start : Nat}

/-- A procedure can be timed with summarised loops, and with unrolled ones, unless numbers overflow
or loops are nested too deep. Where the summaries cover the rounds of the outermost loops, the bound
with unrolled loops is not above the one with summarised loops. They do for loops of which at most
one fetch goes over the bus, and for regular ones if all transfers fill their slots. -/
theorem unrolled_le_summarized (hprogram : program.Accepted)
    (hexits : ∀ p ∈ program.procedures, p.ExitsAtEnds)
    (hentry : entry < program.procedures.length) (hbus : platform.bus = .scheduled schedule)
    (hcore : core < schedule.cores) :
    let e := Engine.mk program analysis (platform.withLoops .summarize) .embedded core
    Ensures (Exhausts program) (e.trace entry start .worst).result fun summarized =>
      (e.AllRounds (e.Alignable schedule) → e.Covers schedule.interval summarized.2) ∧
      (e.Covers schedule.interval summarized.2 →
        Ensures (Exhausts program)
          (estimate program analysis platform core entry start .unroll .worst)
          fun unrolled => unrolled.finish ≤ summarized.1.finish) := by
  intro e
  have hscheduled : e.Scheduled := scheduled_of_bus hbus hcore .summarize
  refine (Engine.ensures_trace hprogram hscheduled (fun _ => rfl) hentry).imp ?_
  intro ⟨timing, ledger⟩ htrace _
  constructor
  · intro halignable
    apply Engine.covers_of_priced rfl hbus hprogram halignable
    apply Engine.procedureAt_rel rfl Engine.ofSummaries_allPriced Engine.records_allPriced _ htrace
      Engine.allPriced_empty
    intro q p hp
    show e.program.procedures[p.id]? = some p
    rwa [hprogram.id_eq hp]
  intro hcovers
  refine (ensures_estimate hprogram hentry hbus hcore).imp ?_
  intro timing' hunrolled _
  -- the longest path of the unrolled program is one that the summaries bound
  obtain ⟨path, hpath, hclock⟩ :
      (Engine.mk program analysis (platform.withLoops .unroll) .embedded core).Attains .worst
        (.procedure entry) start timing'.finish :=
    Engine.finish_attained hprogram hexits rfl hunrolled
  have hbounded := Engine.bounded_of_path hprogram (e.charges_self .worst)
    (Engine.keeps_allSummaries rfl .worst .root _)
    (Engine.boundsLoops_summarize rfl (timed_of_bus hbus _)) hpath htrace hcovers
  rw [← hclock]
  obtain ⟨-, -, -, -, -, hfinish, -⟩ := Engine.procedureAt_eq_ok htrace
  rw [← hfinish]
  exact hbounded

/-! ### Three loops

The first one has a header that is fetched from the memory in every round, and all transfers fill
their slots. In the other two, transfers leave room in their slots. The second one makes a single
transfer, after its header. In the third one, three transfers follow each other in every round. -/

def gatedDraft : Draft where
  id := 0
  name := "gated"
  blocks := [[⟨0, none⟩], [⟨16, none⟩, ⟨20, none⟩], [⟨32, none⟩, ⟨48, none⟩], [⟨64, none⟩], []]
  edges := [(0, 1), (0, 2), (1, 3), (2, 3), (3, 4)]
  loops := [{ header := 0, sink := 3, members := [1, 2], bound := 3, naturalExit := true }]

def gated : Procedure where
  id := 0
  name := "gated"
  blocks := [⟨[⟨0, none⟩], [], [1, 2], some 0, some 0⟩,
    ⟨[⟨16, none⟩, ⟨20, none⟩], [0], [3], none, some 0⟩,
    ⟨[⟨32, none⟩, ⟨48, none⟩], [0], [3], none, some 0⟩, ⟨[⟨64, none⟩], [1, 2], [4], none, some 0⟩,
    ⟨[], [3], [], none, none⟩]
  loops := [⟨0, 3, 3, true, none, 0, [0, 1, 2, 3], [0, 1, 2, 3]⟩]
  order := [0, 4]
  sinks := [4]

theorem gated_accepted : Program.Accepted ⟨[gated]⟩ :=
  ⟨[gatedDraft], [gated], rfl, rfl⟩

def loneDraft : Draft where
  id := 0
  name := "lone"
  blocks := [[], [⟨0, none⟩, ⟨4, none⟩], []]
  edges := [(0, 1), (1, 2)]
  loops := [{ header := 0, sink := 1, members := [], bound := 3, naturalExit := true }]

def lone : Procedure where
  id := 0
  name := "lone"
  blocks := [⟨[], [], [1], some 0, some 0⟩, ⟨[⟨0, none⟩, ⟨4, none⟩], [0], [2], none, some 0⟩,
    ⟨[], [1], [], none, none⟩]
  loops := [⟨0, 1, 3, true, none, 0, [0, 1], [0, 1]⟩]
  order := [0, 2]
  sinks := [2]

theorem lone_accepted : Program.Accepted ⟨[lone]⟩ :=
  ⟨[loneDraft], [lone], rfl, rfl⟩

def wideSlots : Bus.Schedule where
  slot := 3
  interval := 6
  starts := [0, 3]
  slot_pos := by decide
  starts_ne_nil := by decide
  slot_fits := by decide

def widePlatform : Platform :=
  { shortPlatform with
    bus := .scheduled wideSlots
    transfers_fit := by
      intro s hs
      obtain rfl := Option.some.inj hs
      decide }

/-- The summary covers a loop whose transfers fill their slots, and a loop with one transfer. -/
theorem unrolled_le_summarized_gated :
    (∃ analysis summarized unrolled,
      (shortPlatform.hierarchy.analyze ⟨[gated]⟩ 0).result = .ok analysis ∧
      let e := Engine.mk ⟨[gated]⟩ analysis (shortPlatform.withLoops .summarize) .embedded 1
      e.FullSlots shortSlots ∧ e.AllRounds e.Regular ∧
      (e.trace 0 0 .worst).result = .ok summarized ∧
      e.Covers shortSlots.interval summarized.2 ∧
      estimate ⟨[gated]⟩ analysis shortPlatform 1 0 0 .unroll .worst = .ok unrolled ∧
      [unrolled.finish, summarized.1.finish] = [48, 54] ∧
      unrolled.finish ≤ summarized.1.finish) ∧
    ∃ analysis summarized unrolled,
      (widePlatform.hierarchy.analyze ⟨[lone]⟩ 0).result = .ok analysis ∧
      let e := Engine.mk ⟨[lone]⟩ analysis (widePlatform.withLoops .summarize) .embedded 0
      ¬ e.AllRounds e.Regular ∧ e.AllRounds e.Solitary ∧
      (e.trace 0 0 .worst).result = .ok summarized ∧
      e.Covers wideSlots.interval summarized.2 ∧
      estimate ⟨[lone]⟩ analysis widePlatform 0 0 0 .unroll .worst = .ok unrolled ∧
      [unrolled.finish, summarized.1.finish] = [7, 30] ∧
      unrolled.finish ≤ summarized.1.finish := by
  have hgated : ((shortPlatform.hierarchy.analyze ⟨[gated]⟩ 0).result.toOption.map fun a =>
      let e := Engine.mk ⟨[gated]⟩ a (shortPlatform.withLoops .summarize) .embedded 1
      (decide (e.AllRounds e.Regular), (e.trace 0 0 .worst).result.toOption.map (·.1.finish),
        finish? (estimate ⟨[gated]⟩ a shortPlatform 1 0 0 .unroll .worst))) =
      some (true, some 54, some 48) := by
    decide +kernel
  have hlone : ((widePlatform.hierarchy.analyze ⟨[lone]⟩ 0).result.toOption.map fun a =>
      let e := Engine.mk ⟨[lone]⟩ a (widePlatform.withLoops .summarize) .embedded 0
      (decide (e.AllRounds e.Regular), decide (e.AllRounds e.Solitary),
        (e.trace 0 0 .worst).result.toOption.map (·.1.finish),
        finish? (estimate ⟨[lone]⟩ a widePlatform 0 0 0 .unroll .worst))) =
      some (false, true, some 30, some 7) := by
    decide +kernel
  constructor
  · obtain ⟨analysis, hanalysis, hresults⟩ := Option.map_eq_some_iff.mp hgated
    simp only [Prod.mk.injEq, decide_eq_true_eq] at hresults
    obtain ⟨hregular, htrace, hunrolled⟩ := hresults
    obtain ⟨summarized, htrace, hfinish⟩ := Option.map_eq_some_iff.mp htrace
    obtain ⟨unrolled, hunrolled, hfinish'⟩ := finish?_eq_some hunrolled
    have htrace := toOption_eq_some.mp htrace
    have hsafe := (unrolled_le_summarized gated_accepted (by decide) (Nat.succ_pos 0) rfl
      (by decide)).result htrace
    have hslots : (Engine.mk ⟨[gated]⟩ analysis (shortPlatform.withLoops .summarize) .embedded
        1).FullSlots shortSlots := ⟨rfl, rfl, rfl, rfl⟩
    have hcovers := hsafe.1 (hregular.imp fun h => .inr ⟨hslots, h⟩)
    refine ⟨analysis, summarized, unrolled, toOption_eq_some.mp hanalysis, hslots, hregular, htrace,
      hcovers, hunrolled, ?_, (hsafe.2 hcovers).result hunrolled⟩
    rw [hfinish, hfinish']
  · obtain ⟨analysis, hanalysis, hresults⟩ := Option.map_eq_some_iff.mp hlone
    simp only [Prod.mk.injEq, decide_eq_true_eq, decide_eq_false_iff_not] at hresults
    obtain ⟨hirregular, hsolitary, htrace, hunrolled⟩ := hresults
    obtain ⟨summarized, htrace, hfinish⟩ := Option.map_eq_some_iff.mp htrace
    obtain ⟨unrolled, hunrolled, hfinish'⟩ := finish?_eq_some hunrolled
    have htrace := toOption_eq_some.mp htrace
    have hsafe := (unrolled_le_summarized lone_accepted (by decide) (Nat.succ_pos 0) rfl
      (by decide)).result htrace
    have hcovers := hsafe.1 (hsolitary.imp .inl)
    refine ⟨analysis, summarized, unrolled, toOption_eq_some.mp hanalysis, hirregular, hsolitary,
      htrace, hcovers, hunrolled, ?_, (hsafe.2 hcovers).result hunrolled⟩
    rw [hfinish, hfinish']

def tripleDraft : Draft where
  id := 0
  name := "triple"
  blocks := [[⟨0, none⟩, ⟨16, none⟩, ⟨32, none⟩], []]
  edges := [(0, 1)]
  loops := [{ header := 0, sink := 0, members := [], bound := 3, naturalExit := true }]

def triple : Procedure where
  id := 0
  name := "triple"
  blocks := [⟨[⟨0, none⟩, ⟨16, none⟩, ⟨32, none⟩], [], [1], some 0, some 0⟩,
    ⟨[], [0], [], none, none⟩]
  loops := [⟨0, 0, 3, true, none, 0, [0], [0]⟩]
  order := [0, 1]
  sinks := [1]

/-- A round takes three periods, but the tracker expects the third transfer in the slot of the
second one, and a cost of ten cycles is rounded up to two periods only. -/
theorem summarized_lt_unrolled : ∃ analysis summarized unrolled,
    Program.Accepted ⟨[triple]⟩ ∧ (∀ p ∈ [triple], p.ExitsAtEnds) ∧
    Bus.Schedule.roundRobin 2 3 = .ok wideSlots ∧ Ordered widePlatform.hierarchy ∧
    (widePlatform.hierarchy.analyze ⟨[triple]⟩ 0).result = .ok analysis ∧
    estimate ⟨[triple]⟩ analysis widePlatform 0 0 0 .summarize .worst = .ok summarized ∧
    estimate ⟨[triple]⟩ analysis widePlatform 0 0 0 .unroll .worst = .ok unrolled ∧
    summarized.finish = 46 ∧ unrolled.finish = 50 := by
  have hcomputed : ((widePlatform.hierarchy.analyze ⟨[triple]⟩ 0).result.toOption.map fun a =>
      (finish? (estimate ⟨[triple]⟩ a widePlatform 0 0 0 .summarize .worst),
        finish? (estimate ⟨[triple]⟩ a widePlatform 0 0 0 .unroll .worst))) =
      some (some 46, some 50) := by
    decide +kernel
  obtain ⟨analysis, hanalysis, hresults⟩ := Option.map_eq_some_iff.mp hcomputed
  simp only [Prod.mk.injEq] at hresults
  obtain ⟨summarized, hsummarized, hfinish⟩ := finish?_eq_some hresults.1
  obtain ⟨unrolled, hunrolled, hfinish'⟩ := finish?_eq_some hresults.2
  exact ⟨analysis, summarized, unrolled, ⟨[tripleDraft], [triple], rfl, rfl⟩, by decide, rfl,
    by decide, toOption_eq_some.mp hanalysis, hsummarized, hunrolled, hfinish, hfinish'⟩

end CycleBounds.Bound
