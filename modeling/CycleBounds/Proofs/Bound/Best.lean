import CycleBounds.Proofs.Bound.Loops
import CycleBounds.Proofs.Bus.Delay
import CycleBounds.Proofs.Cache.Soundness

/-!
# Bounds at best

How early an execution can finish. Its fetches are served by the first level that holds the line,
and those that miss the first level wait for the bus. A fetch is charged as a miss only if it always
is one, and a transfer that is issued later never completes earlier, so no execution finishes before
the bound at best.

* `Elapsed`: the time that an execution takes.
* `bound_le_finish`: it is never less than the bound at best.
-/

namespace CycleBounds.Bound

open Code (Program Procedure Loop)
open Cache (Access Analysis Classification Config Hierarchy Lru firstLevel firstFeed secondLevel
  secondFeed)
open Run (History Issue Policy Completes Execution)

/-! ### Executions in time -/

/-- Loops run through their sinks as often as their bounds say before they are left. -/
def sustained : Policy where
  again _ _ := True
  leave loop round block := loop.bound ≤ round + if block = loop.sink then 1 else 0

def servedIn (levels : Hierarchy) (h : History) (i : Issue) : Nat :=
  match levels.l2 with
  | none => levels.missPenalty
  | some c =>
    if (secondLevel levels.l1 c h).Holds (c.line i.address) then levels.l2HitLatency
    else levels.missPenalty

/-- The time after an execution that starts at a time with empty caches. A fetch that misses the
first level takes as long as the bus has it when it is issued, and every instruction takes at least
its cost at best beyond its fetch. -/
inductive Elapsed (platform : Platform) (core start : Nat) : History → Nat → Prop
  | start : Elapsed platform core start [] start
  | hit {i : Issue} {h : History} {t x : Nat} : Elapsed platform core start h t →
      (firstLevel platform.hierarchy.l1 h).Holds (platform.hierarchy.l1.line i.address) →
      platform.instrBcet ≤ x →
      Elapsed platform core start (i :: h) (t + platform.hierarchy.l1.hitLatency + x)
  | transfer {i : Issue} {h : History} {t d x : Nat} {scenario : Scenario} :
      Elapsed platform core start h t →
      ¬ (firstLevel platform.hierarchy.l1 h).Holds (platform.hierarchy.l1.line i.address) →
      platform.bus.delay scenario core t (servedIn platform.hierarchy h i) = .ok d →
      platform.instrBcet ≤ x → Elapsed platform core start (i :: h) (t + d + x)

/-! ### The charge of a fetch -/

/-- The classes of an engine are right about a fetch at all levels. -/
structure Informed (e : Engine) (h : History) (i : Issue) : Prop where
  first : Cache.Level.Classified e.analysis.l1 (firstFeed e.platform.hierarchy.l1) h i
  second : ∀ c, e.platform.hierarchy.l2 = some c → ∃ k, e.analysis.l2 = some k ∧
    Cache.Level.Classified k (secondFeed e.platform.hierarchy.l1 c) h i

section Charge

variable {e : Engine} {h : History} {i : Issue}

/-- The classes of the analysis are right about all fetches of an execution. -/
theorem all_informed {entry : Nat} {p : Procedure} (hprogram : e.program.Accepted)
    (hentry : e.program.procedures[entry]? = some p)
    (hanalysis : (e.platform.hierarchy.analyze e.program entry).result = .ok e.analysis)
    (hexec : Execution .free e.program p [] h) : h.All (Informed e) := by
  obtain ⟨hfirst, hsecond⟩ := Cache.Hierarchy.all_sound hprogram hentry hanalysis hexec
  cases hl₂ : e.platform.hierarchy.l2 with
  | none =>
    refine hfirst.imp fun _ _ hclassified => ⟨hclassified, fun c hc => ?_⟩
    rw [hl₂] at hc
    cases hc
  | some c =>
    obtain ⟨k, hk, hsound⟩ := hsecond c hl₂
    refine (hfirst.and hsound).imp fun _ _ hboth => ⟨hboth.1, fun c' hc => ?_⟩
    obtain rfl : c = c' := Option.some.inj (hl₂.symm.trans hc)
    exact ⟨k, hk, hboth.2.1⟩

/-- A fetch that hits the first level is charged such a hit. -/
theorem sourceAt_of_holds (hinformed : Informed e h i)
    (hholds : (firstLevel e.platform.hierarchy.l1 h).Holds
      (e.platform.hierarchy.l1.line i.address)) : e.sourceAt .best i.place i.index = .l1 := by
  obtain ⟨a, hget, ha⟩ := hinformed.first
  have hne : a ≠ .alwaysMiss := by
    rintro rfl
    exact ha trivial hholds
  simp [Engine.sourceAt, Engine.source, hget, Engine.hits, hne]

/-- Only guaranteed misses are charged an access to the memory. -/
theorem alwaysMiss_of_memory {k : Classification} {a : Access} (hk : e.analysis.l2 = some k)
    (hget : k.access? i.place i.index = some a)
    (hmemory : e.sourceAt .best i.place i.index = .memory) : a = .alwaysMiss := by
  simp only [Engine.sourceAt, Engine.source, hk, Option.map_some, hget, Option.getD_some,
    Option.any_some, Engine.hits] at hmemory
  by_contra hne
  simp [hne] at hmemory
  split at hmemory <;> cases hmemory

/-- A fetch that misses the first level and is charged an access to the memory is served by it. -/
theorem servedIn_of_memory (hinformed : Informed e h i)
    (hmiss : ¬ (firstLevel e.platform.hierarchy.l1 h).Holds
      (e.platform.hierarchy.l1.line i.address))
    (hmemory : e.sourceAt .best i.place i.index = .memory) :
    servedIn e.platform.hierarchy h i = e.platform.hierarchy.missPenalty := by
  unfold servedIn
  cases hl₂ : e.platform.hierarchy.l2 with
  | none => rfl
  | some c =>
    obtain ⟨k, hk, a, hget, ha⟩ := hinformed.second c hl₂
    obtain rfl := alwaysMiss_of_memory hk hget hmemory
    exact if_neg (ha hmiss)

theorem l2HitLatency_le_servedIn {levels : Hierarchy}
    (hlatency : levels.l2HitLatency ≤ levels.missPenalty) :
    levels.l2HitLatency ≤ servedIn levels h i := by
  unfold servedIn
  split
  · exact hlatency
  · split
    · exact Nat.le_refl _
    · exact hlatency

end Charge

/-! ### The bound -/

/-- An execution ends no earlier than a time, if its fetches are classified rightly. -/
def EndsAfter (e : Engine) (start t : Nat) (h : History) : Prop :=
  h.All (Informed e) → ∀ t', Elapsed e.platform e.core start h t' → t ≤ t'

section Bound

variable {e : Engine} {start : Nat}

/-- What a fetch is charged is not too much. -/
theorem EndsAfter.fetch
    (hfirst : e.platform.hierarchy.l1.hitLatency ≤ e.platform.hierarchy.l2HitLatency)
    (hsecond : e.platform.hierarchy.l2HitLatency ≤ e.platform.hierarchy.missPenalty) {i : Issue}
    {h : History} {t d : Nat} {bus bus' : Bus.Tracker}
    (hd : (e.fetch .best false (e.sourceAt .best i.place i.index) t bus).result = .ok (d, bus'))
    (hh : EndsAfter e start t h) : EndsAfter e start (t + d + e.platform.instrBcet) (i :: h) := by
  rintro ⟨hinformed, hall⟩ _ (_ | ⟨helapsed, hholds, hx⟩ | ⟨helapsed, hmiss, hdelay, hx⟩)
  · -- a hit of the first level costs no less than what it is charged
    have hbefore := hh hall _ helapsed
    rw [sourceAt_of_holds hinformed hholds] at hd
    obtain ⟨rfl, -⟩ := Prod.mk.inj (Except.ok.inj hd)
    omega
  · -- a miss goes over the bus; it may be charged as a hit, and then it is charged less
    have hbefore := hh hall _ helapsed
    have hserved := l2HitLatency_le_servedIn hsecond (h := h) (i := i)
    cases hsource : e.sourceAt .best i.place i.index with
    | l1 =>
      rw [hsource] at hd
      obtain ⟨rfl, -⟩ := Prod.mk.inj (Except.ok.inj hd)
      have hle := Bus.le_delay hdelay
      omega
    | l2 =>
      rw [hsource] at hd
      have hle := Bus.finish_le hbefore hserved (Engine.transfer_eq_ok hd) hdelay
      omega
    | memory =>
      rw [hsource] at hd
      rw [servedIn_of_memory hinformed hmiss hsource] at hdelay
      have hle := Bus.finish_le hbefore (Nat.le_refl _) (Engine.transfer_eq_ok hd) hdelay
      omega

/-- Times at best are on the safe side of executions, if higher levels are faster. -/
theorem safe_endsAfter
    (hfirst : e.platform.hierarchy.l1.hitLatency ≤ e.platform.hierarchy.l2HitLatency)
    (hsecond : e.platform.hierarchy.l2HitLatency ≤ e.platform.hierarchy.missPenalty) :
    e.Safe .best sustained (EndsAfter e start) := by
  constructor
  case mono =>
    intro t t' h hexceeds hh hall t'' helapsed
    have hle : t' ≤ t := by simpa [Scenario.exceeds] using hexceeds
    exact Nat.le_trans hle (hh hall t'' helapsed)
  case fetch => exact fun hd => EndsAfter.fetch hfirst hsecond hd
  case rounds =>
    -- a further round only takes longer
    intro loop n k _ _
    right
    rintro t h i hh ⟨-, hall⟩ _ (_ | ⟨helapsed, -, -⟩ | ⟨helapsed, -, -, -⟩)
    · have hbefore := hh hall _ helapsed
      omega
    · have hbefore := hh hall _ helapsed
      omega
  case leave =>
    intro loop n k b hn hleave hk
    obtain rfl : loop.bound = n := Except.ok.inj hn
    have hleave : loop.bound ≤ k + if b = loop.sink then 1 else 0 := hleave
    left
    split at hleave
    · exact ⟨by assumption, by omega⟩
    · omega

end Bound

theorem onCore_eq_ok {e e' : Engine} {core : Nat} (h : e.onCore core = .ok e') :
    e' = { e with core } :=
  (Engine.onCore_eq_ok h).1

/-- An execution that starts with empty caches, and in which loops run through their sinks as often
as their bounds say, does not finish before the bound at best. -/
theorem bound_le_finish {program : Program} {entry start core : Nat} {platform : Platform}
    {analysis : Analysis} {solver : Offset.Solver} {e : Engine} {timing : Timing} {p : Procedure}
    {h : History} {t : Nat} (hprogram : program.Accepted)
    (hexits : ∀ p ∈ program.procedures, p.ExitsAtEnds)
    (hentry : program.procedures[entry]? = some p)
    (hfirst : platform.hierarchy.l1.hitLatency ≤ platform.hierarchy.l2HitLatency)
    (hsecond : platform.hierarchy.l2HitLatency ≤ platform.hierarchy.missPenalty)
    (hloops : platform.loops = .unroll)
    (hanalysis : (platform.hierarchy.analyze program entry).result = .ok analysis)
    (hcore : (Engine.mk program analysis platform solver 0).onCore core = .ok e)
    (hresult : (e.analyze entry start .best).result = .ok timing)
    (hrun : Completes sustained program p [] h) (helapsed : Elapsed platform core start h t) :
    timing.finish ≤ t := by
  obtain rfl := onCore_eq_ok hcore
  have hsafe : (Engine.mk program analysis platform solver core).Safe .best sustained
      (EndsAfter _ start) := safe_endsAfter hfirst hsecond
  have hstart : EndsAfter (Engine.mk program analysis platform solver core) start start [] := by
    rintro - _ ⟨⟩
    exact Nat.le_refl start
  obtain ⟨hends, -⟩ := Engine.finish_safe hprogram hexits hloops hsafe hresult hentry hstart hrun
  exact hends (all_informed hprogram hentry hanalysis hrun.free) t helapsed

/-! A loop that fetches two lines in turn, on the second one of two cores. -/

def twoSlots : Bus.Schedule where
  slot := 50
  interval := 100
  starts := [0, 50]
  slot_pos := by decide
  starts_ne_nil := by decide
  slot_fits := by decide

def sharedPlatform : Platform where
  hierarchy := Cache.smallHierarchy
  bus := .scheduled twoSlots
  instrBcet := 1
  instrWcet := 1
  loops := .unroll
  independent := false
  transfers_fit := by
    intro s hs
    obtain rfl := Option.some.inj hs
    decide
  instr_ordered := Nat.le_refl 1

theorem alternating_exits : ∀ p ∈ (Program.mk [Cache.alternating]).procedures, p.ExitsAtEnds := by
  intro p hp
  obtain rfl := List.mem_singleton.mp hp
  intro l loop u v hl hu _ _
  obtain rfl := Cache.alternating_loop hl
  simpa using hu

def twoRounds : History :=
  ⟨⟨0, 0, Context.root.nest .steady⟩, 0, 0⟩ :: ⟨⟨0, 1, Context.root.nest .steady⟩, 0, 16⟩ ::
    Cache.alternatingHistory

/-- The history is that of a complete run. -/
theorem twoRounds_completes :
    Completes sustained ⟨[Cache.alternating]⟩ Cache.alternating [] twoRounds := by
  have hheader : Run.Walk sustained ⟨[Cache.alternating]⟩ Cache.alternating [] ⟨0, [(0, 0)], 1⟩
      [⟨⟨0, 0, Context.root.nest .first⟩, 0, 0⟩] := Cache.alternating_header
  have hrounds := Cache.alternating_round (Cache.alternating_round hheader fun _ => trivial)
    fun _ => trivial
  have hfollows : Run.Follows sustained Cache.alternating ⟨0, [(0, 2)], 1⟩ 2 ⟨2, [], 0⟩ := by
    refine ⟨⟨_, rfl, rfl⟩, ⟨_, rfl, by decide⟩, fun l loop hl hzero => ?_,
      fun lap hlap loop hl _ => ?_, .block rfl⟩
    · obtain rfl := Cache.alternating_loop hl
      cases hzero
    · obtain rfl := Cache.alternating_loop hl
      obtain rfl := List.mem_singleton.mp hlap
      exact Nat.le_refl 2
  exact ⟨_, hrounds.follow hfollows, ⟨_, rfl, rfl⟩, by decide, nofun⟩

/-- Every fetch misses the first level. The first two are served by the memory, and all but the last
two wait for the next slot. -/
theorem twoRounds_elapsed : Elapsed sharedPlatform 1 0 twoRounds 268 := by
  have hstart : Elapsed sharedPlatform 1 0 [] 0 := .start
  have h₁ := hstart.transfer (i := ⟨⟨0, 0, Context.root.nest .first⟩, 0, 0⟩) (x := 1) (by decide)
    (rfl : sharedPlatform.bus.delay .best 1 0 50 = .ok 100) (Nat.le_refl 1)
  have h₂ := h₁.transfer (i := ⟨⟨0, 1, Context.root.nest .first⟩, 0, 16⟩) (x := 1) (by decide)
    (rfl : sharedPlatform.bus.delay .best 1 101 50 = .ok 99) (Nat.le_refl 1)
  have h₃ := h₂.transfer (i := ⟨⟨0, 0, Context.root.nest .steady⟩, 0, 0⟩) (x := 1) (by decide)
    (rfl : sharedPlatform.bus.delay .best 1 201 5 = .ok 54) (Nat.le_refl 1)
  have h₄ := h₃.transfer (i := ⟨⟨0, 1, Context.root.nest .steady⟩, 0, 16⟩) (x := 1) (by decide)
    (rfl : sharedPlatform.bus.delay .best 1 256 5 = .ok 5) (Nat.le_refl 1)
  exact h₄.transfer (i := ⟨⟨0, 0, Context.root.nest .steady⟩, 0, 0⟩) (x := 1) (by decide)
    (rfl : sharedPlatform.bus.delay .best 1 262 5 = .ok 5) (Nat.le_refl 1)

/-- The last fetch of the execution is not part of the bound. -/
theorem bound_le_finish_alternating : ∃ a e timing,
    (sharedPlatform.hierarchy.analyze ⟨[Cache.alternating]⟩ 0).result = .ok a ∧
    (Engine.mk ⟨[Cache.alternating]⟩ a sharedPlatform .embedded 0).onCore 1 = .ok e ∧
    (e.analyze 0 0 .best).result = .ok timing ∧ timing.finish = 262 ∧
    Completes sustained ⟨[Cache.alternating]⟩ Cache.alternating [] twoRounds ∧
    Elapsed sharedPlatform 1 0 twoRounds 268 ∧ timing.finish ≤ 268 := by
  have hcomputed : ((sharedPlatform.hierarchy.analyze ⟨[Cache.alternating]⟩ 0).result.toOption.bind
      fun a => (Engine.mk ⟨[Cache.alternating]⟩ a sharedPlatform .embedded 0).onCore 1
        |>.toOption.bind fun e => (e.analyze 0 0 .best).result.toOption.map (·.finish)) =
      some 262 := by decide +kernel
  obtain ⟨a, ha, he⟩ := Option.bind_eq_some_iff.mp hcomputed
  obtain ⟨e, he, htiming⟩ := Option.bind_eq_some_iff.mp he
  obtain ⟨timing, htiming, hfinish⟩ := Option.map_eq_some_iff.mp htiming
  have hentry : (Program.mk [Cache.alternating]).procedures[0]? = some Cache.alternating := rfl
  have hanalysis := toOption_eq_some.mp ha
  have hcore := toOption_eq_some.mp he
  have hresult := toOption_eq_some.mp htiming
  refine ⟨a, e, timing, hanalysis, hcore, hresult, hfinish, twoRounds_completes,
    twoRounds_elapsed, ?_⟩
  exact bound_le_finish Cache.alternating_accepted alternating_exits hentry (by decide) (by decide)
    rfl hanalysis hcore hresult twoRounds_completes twoRounds_elapsed

end CycleBounds.Bound
