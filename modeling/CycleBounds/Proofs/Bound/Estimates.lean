import CycleBounds.Proofs.Bound.Progress
import Mathlib.Order.Bounds.Defs

/-!
# Estimates of the time of a procedure

Unrolling all loops gives the exact optimum over all complete paths, and offsets give an estimate on
the safe side of it, which takes one round after another from every offset that it may start at.

* `finish_isOptimum`: the bound with unrolled loops is the longest path at worst, and the shortest
  one at best.
* `estimates_ordered`: the bounds by offsets enclose those with unrolled loops.
-/

namespace CycleBounds.Bound

open Code (Draft Program Procedure Loop)
open Engine (Exhausts Ordered)

/-- The optimum of some times: the earliest at best, the latest at worst. -/
def IsOptimum (scenario : Scenario) (times : Set Nat) (t : Nat) : Prop :=
  match scenario with
  | .best => IsLeast times t
  | .worst => IsGreatest times t

theorem isOptimum_of_bounds {scenario : Scenario} {times : Set Nat} {t : Nat} (ht : t ∈ times)
    (hbounds : ∀ t' ∈ times, scenario.Bounds t t') : IsOptimum scenario times t := by
  cases scenario with
  | best => exact ⟨ht, hbounds⟩
  | worst => exact ⟨ht, hbounds⟩

variable {program : Program} {analysis : Cache.Analysis} {platform : Platform}
  {solver : Offset.Solver} {core entry start : Nat} {scenario : Scenario}

/-- With unrolled loops, a procedure can be timed unless numbers overflow or loops are nested too
deep, and then its bound is the optimum over all complete paths. -/
theorem finish_isOptimum {e : Engine} (hprogram : program.Accepted)
    (hexits : ∀ p ∈ program.procedures, p.ExitsAtEnds)
    (hentry : entry < program.procedures.length) (hloops : platform.loops = .unroll)
    (hcore : (Engine.mk program analysis platform solver 0).onCore core = .ok e) :
    Ensures (Exhausts program) (e.analyze entry start scenario).result fun timing =>
      IsOptimum scenario {t | e.Attains scenario (.procedure entry) start t} timing.finish := by
  obtain ⟨rfl, hscheduled⟩ := Engine.onCore_eq_ok hcore
  have hunaided : (Engine.mk program analysis platform solver core).Unaided := by
    intro hoffsets
    cases hloops.symm.trans hoffsets
  refine (Engine.ensures_analyze hprogram hscheduled hunaided hentry).imp ?_
  intro timing hresult _
  apply isOptimum_of_bounds
  · exact Engine.finish_attained hprogram hexits hloops hresult
  · intro t ht
    have hcharges := Engine.charges_self
      (Engine.mk program analysis platform solver core) scenario
    exact Engine.finish_bounds hprogram hcharges (Engine.boundsLoops_unroll hloops hcharges)
      hresult ht

def estimate (program : Program) (analysis : Cache.Analysis) (platform : Platform)
    (core entry start : Nat) (loops : LoopTreatment) (scenario : Scenario) :
    Except (Failure TimingError) Timing :=
  ((Engine.mk program analysis (platform.withLoops loops) .embedded core).analyze entry start
    scenario).result

section Estimates

variable {schedule : Bus.Schedule} {actual : Scenario} {timing timing' : Timing}

/-- A core with a slot of its own, whatever the treatment of loops. -/
theorem scheduled_of_bus (hbus : platform.bus = .scheduled schedule) (hcore : core < schedule.cores)
    (loops : LoopTreatment) :
    (Engine.mk program analysis (platform.withLoops loops) solver core).Scheduled := by
  intro s hs
  have heq : platform.bus.schedule? = some schedule := by
    rw [hbus]
    rfl
  obtain rfl := Option.some.inj (heq.symm.trans hs)
  exact hcore

theorem timed_of_bus (hbus : platform.bus = .scheduled schedule) (loops : LoopTreatment) :
    (platform.withLoops loops).bus.timed? = some schedule := by
  show platform.bus.timed? = some schedule
  rw [hbus]
  rfl

theorem ensures_estimate (hprogram : program.Accepted)
    (hentry : entry < program.procedures.length) (hbus : platform.bus = .scheduled schedule)
    (hcore : core < schedule.cores) {loops : LoopTreatment} :
    Ensures (Exhausts program)
      (estimate program analysis platform core entry start loops scenario) fun _ => True :=
  Engine.ensures_analyze hprogram (scheduled_of_bus hbus hcore loops) (fun _ => rfl) hentry

/-- Bounds by offsets are on the safe side of those with unrolled loops. Paths take the same time
whatever the treatment of loops. -/
theorem offsets_bounds_unrolled (hprogram : program.Accepted)
    (hexits : ∀ p ∈ program.procedures, p.ExitsAtEnds) (hbus : platform.bus = .scheduled schedule)
    (h : estimate program analysis platform core entry start .offsets scenario = .ok timing)
    (h' : estimate program analysis platform core entry start .unroll scenario = .ok timing') :
    scenario.Bounds timing.finish timing'.finish := by
  have hcharges := Engine.charges_self
    (Engine.mk program analysis (platform.withLoops .offsets) .embedded core) scenario
  have hattained : (Engine.mk program analysis (platform.withLoops .unroll) .embedded core).Attains
      scenario (.procedure entry) start timing'.finish :=
    Engine.finish_attained hprogram hexits rfl h'
  exact Engine.finish_bounds hprogram hcharges
    (Engine.boundsLoops_offsets rfl (timed_of_bus hbus _) rfl hcharges) h hattained

/-- With unrolled loops, the bound at best is not above the one at worst. -/
theorem best_le_worst (hprogram : program.Accepted)
    (hexits : ∀ p ∈ program.procedures, p.ExitsAtEnds) (hordered : Ordered platform.hierarchy)
    (h : estimate program analysis platform core entry start .unroll .best = .ok timing)
    (h' : estimate program analysis platform core entry start .unroll .worst = .ok timing') :
    timing.finish ≤ timing'.finish := by
  have hcharges : Engine.Charges
      (Engine.mk program analysis (platform.withLoops .unroll) .embedded core) .best .worst :=
    Engine.charges_worst hordered
  exact Engine.finish_bounds hprogram hcharges (Engine.boundsLoops_unroll rfl hcharges) h'
    (Engine.finish_attained hprogram hexits rfl h)

/-- A procedure can be timed unless numbers overflow or loops are nested too deep. The bounds by
offsets enclose those with unrolled loops, of which the one at best is not above the one at
worst. -/
theorem estimates_ordered (hprogram : program.Accepted)
    (hexits : ∀ p ∈ program.procedures, p.ExitsAtEnds)
    (hentry : entry < program.procedures.length) (hordered : Ordered platform.hierarchy)
    (hbus : platform.bus = .scheduled schedule) (hcore : core < schedule.cores) :
    let estimate := estimate program analysis platform core entry start
    (∀ loops scenario, Ensures (Exhausts program) (estimate loops scenario) fun _ => True) ∧
    ∀ a b c d, estimate .offsets .best = .ok a → estimate .unroll .best = .ok b →
      estimate .unroll .worst = .ok c → estimate .offsets .worst = .ok d →
      a.finish ≤ b.finish ∧ b.finish ≤ c.finish ∧ c.finish ≤ d.finish := by
  intro estimate
  constructor
  · intro loops scenario
    exact ensures_estimate hprogram hentry hbus hcore
  · intro a b c d ha hb hc hd
    refine ⟨?_, best_le_worst hprogram hexits hordered hb hc, ?_⟩
    · exact offsets_bounds_unrolled hprogram hexits hbus ha hb
    · exact offsets_bounds_unrolled hprogram hexits hbus hd hc

end Estimates

/-! ### A loop with two branches

The branches fetch different numbers of lines, all of which miss, and take turns with the slots of
two cores. -/

def forkedDraft : Draft where
  id := 0
  name := "forked"
  blocks := [[], [⟨0, none⟩], [⟨16, none⟩, ⟨32, none⟩], [⟨48, none⟩], []]
  edges := [(0, 1), (0, 2), (1, 3), (2, 3), (3, 4)]
  loops := [{ header := 0, sink := 3, members := [1, 2], bound := 3, naturalExit := true }]

def forked : Procedure where
  id := 0
  name := "forked"
  blocks := [⟨[], [], [1, 2], some 0, some 0⟩, ⟨[⟨0, none⟩], [0], [3], none, some 0⟩,
    ⟨[⟨16, none⟩, ⟨32, none⟩], [0], [3], none, some 0⟩, ⟨[⟨48, none⟩], [1, 2], [4], none, some 0⟩,
    ⟨[], [3], [], none, none⟩]
  loops := [⟨0, 3, 3, true, none, 0, [0, 1, 2, 3], [0, 1, 2, 3]⟩]
  order := [0, 4]
  sinks := [4]

theorem forked_accepted : Program.Accepted ⟨[forked]⟩ :=
  ⟨[forkedDraft], [forked], rfl, rfl⟩

theorem forked_exits : ∀ p ∈ (Program.mk [forked]).procedures, p.ExitsAtEnds := by
  decide

def shortSlots : Bus.Schedule where
  slot := 2
  interval := 4
  starts := [0, 2]
  slot_pos := by decide
  starts_ne_nil := by decide
  slot_fits := by decide

def shortPlatform : Platform where
  hierarchy := ⟨⟨0, 1, 4, 1, 2, Nat.one_pos⟩, none⟩
  bus := .scheduled shortSlots
  instrBcet := 0
  instrWcet := 0
  loops := .unroll
  independent := false
  transfers_fit := by
    intro s hs
    obtain rfl := Option.some.inj hs
    decide
  instr_ordered := Nat.le_refl .zero

/-- The longest path always takes the second branch. -/
theorem finish_isOptimum_forked : ∃ a e timing,
    (shortPlatform.hierarchy.analyze ⟨[forked]⟩ 0).result = .ok a ∧
    (Engine.mk ⟨[forked]⟩ a shortPlatform .embedded 0).onCore 1 = .ok e ∧
    (e.analyze 0 0 .worst).result = .ok timing ∧ timing.finish = 36 ∧
    IsOptimum .worst {t | e.Attains .worst (.procedure 0) 0 t} 36 := by
  have hcomputed : ((shortPlatform.hierarchy.analyze ⟨[forked]⟩ 0).result.toOption.bind
      fun a => ((Engine.mk ⟨[forked]⟩ a shortPlatform .embedded 0).onCore 1).toOption.bind
        fun e => (e.analyze 0 0 .worst).result.toOption.map (·.finish)) = some 36 := by
    decide +kernel
  obtain ⟨a, ha, he⟩ := Option.bind_eq_some_iff.mp hcomputed
  obtain ⟨e, he, htiming⟩ := Option.bind_eq_some_iff.mp he
  obtain ⟨timing, htiming, hfinish⟩ := Option.map_eq_some_iff.mp htiming
  have hcore := toOption_eq_some.mp he
  have hresult := toOption_eq_some.mp htiming
  refine ⟨a, e, timing, toOption_eq_some.mp ha, hcore, hresult, hfinish, ?_⟩
  have hoptimum : Ensures (Exhausts ⟨[forked]⟩) (e.analyze 0 0 .worst).result _ :=
    finish_isOptimum forked_accepted forked_exits (Nat.succ_pos 0) rfl hcore
  exact hfinish ▸ hoptimum.result hresult

def finish? (x : Except (Failure TimingError) Timing) : Option Nat :=
  x.toOption.map (·.finish)

theorem finish?_eq_some {x : Except (Failure TimingError) Timing} {t : Nat}
    (h : finish? x = some t) : ∃ timing, x = .ok timing ∧ timing.finish = t := by
  obtain ⟨timing, htiming, hfinish⟩ := Option.map_eq_some_iff.mp h
  exact ⟨timing, toOption_eq_some.mp htiming, hfinish⟩

/-- All estimates differ. -/
theorem estimates_ordered_forked : ∃ analysis a b c d,
    (shortPlatform.hierarchy.analyze ⟨[forked]⟩ 0).result = .ok analysis ∧
    estimate ⟨[forked]⟩ analysis shortPlatform 0 0 0 .offsets .best = .ok a ∧
    estimate ⟨[forked]⟩ analysis shortPlatform 0 0 0 .unroll .best = .ok b ∧
    estimate ⟨[forked]⟩ analysis shortPlatform 0 0 0 .unroll .worst = .ok c ∧
    estimate ⟨[forked]⟩ analysis shortPlatform 0 0 0 .offsets .worst = .ok d ∧
    [a.finish, b.finish, c.finish, d.finish] = [20, 22, 34, 35] ∧
    a.finish ≤ b.finish ∧ b.finish ≤ c.finish ∧ c.finish ≤ d.finish := by
  have hcomputed : ((shortPlatform.hierarchy.analyze ⟨[forked]⟩ 0).result.toOption.map fun a =>
      let estimate := estimate ⟨[forked]⟩ a shortPlatform 0 0 0
      (finish? (estimate .offsets .best), finish? (estimate .unroll .best),
        finish? (estimate .unroll .worst), finish? (estimate .offsets .worst))) =
      some (some 20, some 22, some 34, some 35) := by
    decide +kernel
  obtain ⟨analysis, hanalysis, hfinishes⟩ := Option.map_eq_some_iff.mp hcomputed
  simp only [Prod.mk.injEq] at hfinishes
  obtain ⟨ha, hb, hc, hd⟩ := hfinishes
  obtain ⟨a, ha, hfinish₁⟩ := finish?_eq_some ha
  obtain ⟨b, hb, hfinish₂⟩ := finish?_eq_some hb
  obtain ⟨c, hc, hfinish₃⟩ := finish?_eq_some hc
  obtain ⟨d, hd, hfinish₄⟩ := finish?_eq_some hd
  refine ⟨analysis, a, b, c, d, toOption_eq_some.mp hanalysis, ha, hb, hc, hd, ?_, ?_⟩
  · rw [hfinish₁, hfinish₂, hfinish₃, hfinish₄]
  · exact (estimates_ordered forked_accepted forked_exits (Nat.succ_pos 0) (by decide) rfl
      (by decide)).2 a b c d ha hb hc hd

end CycleBounds.Bound
