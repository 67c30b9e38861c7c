import CycleBounds.Proofs.Bound.Estimates
import CycleBounds.Task.Placement

/-!
# Schedules at best and at worst

Tasks are placed one after another, each from the start that the board of the scenario gives. Two
schedules of the same tasks, one at best and one at worst, stay in order: whatever the board at best
says about a task or a core, it is no later than what the board at worst says.

* `Engine.finish_le_of_start_le`: a procedure that starts no later at best than at worst finishes no
  later. The best path, followed from the later start, is one of those that the bound at worst
  covers.
* `Placement.Board.Behind` compares two boards; `Behind.startOf` and `Behind.place` say what a step
  does to it.
* `TaskGraph.schedules_ordered`: no task starts or finishes later at best than at worst.
-/

namespace CycleBounds

namespace Bound.Engine

/-- A procedure that starts no later at best than at worst finishes no later. -/
theorem finish_le_of_start_le {e : Engine} (hprogram : e.program.Accepted)
    (hexits : ∀ p ∈ e.program.procedures, p.ExitsAtEnds)
    (hordered : Ordered e.platform.hierarchy) (hloops : e.platform.loops = .unroll)
    {entry start start' : Nat} {timing timing' : Timing} (hstart : start ≤ start')
    (h : (e.analyze entry start .best).result = .ok timing)
    (h' : (e.analyze entry start' .worst).result = .ok timing') :
    timing.finish ≤ timing'.finish := by
  obtain ⟨path, hpath, hfinish⟩ := finish_attained hprogram hexits hloops h
  have hcharges : Charges e .best .worst := charges_worst hordered
  have hlater : e.Attains .best (.procedure entry) start' (e.clock .best path start') :=
    ⟨path, hpath, rfl⟩
  calc timing.finish = e.clock .best path start := hfinish.symm
    _ ≤ e.clock .best path start' := clock_mono hstart
    _ ≤ timing'.finish :=
      finish_bounds hprogram hcharges (boundsLoops_unroll hloops hcharges) h' hlater

end Bound.Engine

namespace Placement

/-! ### Boards -/

namespace Board

/-- A board says no later times than another, of tasks and of cores. -/
structure Behind (b b' : Board) : Prop where
  ready : ∀ id, (b.ready.get? id).getD 0 ≤ (b'.ready.get? id).getD 0
  free : ∀ core, (b.free.get? core).getD 0 ≤ (b'.free.get? core).getD 0

variable {b b' : Board} {t : Task}

theorem Behind.refl (b : Board) : b.Behind b :=
  ⟨fun _ => Nat.le_refl _, fun _ => Nat.le_refl _⟩

theorem Behind.startOf (h : b.Behind b') (hrelease : t.earliest ≤ t.latest) (id : Nat) :
    b.startOf .best id t ≤ b'.startOf .worst id t := by
  have hready := h.ready id
  have hfree := h.free t.core
  show max (max t.earliest _) _ ≤ max (max t.latest _) _
  omega

/-- When a task is ready after others have delayed some tasks up to a time. -/
theorem getD_delayed (tasks : List Nat) (finish : Nat) (ready : Table Nat Nat) (id : Nat) :
    ((tasks.foldl (fun ready s => ready.insert s (max ((ready.get? s).getD 0) finish))
      ready).get? id).getD 0 =
      if id ∈ tasks then max ((ready.get? id).getD 0) finish else (ready.get? id).getD 0 := by
  induction tasks generalizing ready with
  | nil => rfl
  | cons s tasks ih =>
    rw [List.foldl_cons, ih, Table.get?_insert]
    by_cases hs : id = s
    · subst hs
      simp
    · simp [hs]

/-- A board is still behind once a task has been placed that finishes no later on it. -/
theorem Behind.place (h : b.Behind b') {finish finish' : Nat} (hfinish : finish ≤ finish') :
    (b.place t finish).Behind (b'.place t finish') where
  ready := by
    intro id
    have hready := h.ready id
    rw [Board.place, Board.place, getD_delayed, getD_delayed]
    split
    · omega
    · exact hready
  free := by
    intro core
    rw [Board.place, Board.place, Table.get?_insert, Table.get?_insert]
    split
    · exact hfinish
    · exact h.free core

end Board

/-! ### Placing tasks -/

variable {platform : Bound.Platform} {solver : Offset.Solver} {scenario : Scenario}
  {id : Nat} {t : Task} {analysis : Cache.Analysis} {b b' : Board} {p : Placement}

def startOn (platform : Bound.Platform) (scenario : Scenario) (b : Board) (id : Nat) (t : Task) :
    Nat :=
  if platform.independent then 0 else b.startOf scenario id t

/-- What placing a task does: it is timed from its start, and the board takes up its finish. -/
theorem placeOne_eq_ok (h : (placeOne platform solver scenario id t analysis b).result =
    .ok (p, b')) : ∃ timing,
      ((Bound.Engine.mk t.program analysis platform solver t.core).analyze t.entry
        (startOn platform scenario b id t) scenario).result = .ok timing ∧
      p = ⟨id, startOn platform scenario b id t, timing.finish, timing.cost⟩ ∧
      b' = if platform.independent then b else b.place t timing.finish := by
  unfold placeOne at h
  split at h
  · cases h
  · rw [Traced.result_bind] at h
    obtain ⟨engine, hengine, h⟩ := bind_eq_ok.mp h
    rw [Traced.result_liftM_except, mapError_eq_ok] at hengine
    obtain ⟨rfl, -⟩ := Bound.Engine.onCore_eq_ok hengine
    rw [Traced.result_bind] at h
    obtain ⟨timing, htiming, h⟩ := bind_eq_ok.mp h
    rw [Traced.result_bind, Traced.result_emit] at h
    obtain ⟨hp, hb⟩ := Prod.mk.inj (Except.ok.inj h)
    exact ⟨timing, mapError_eq_ok.mp htiming, hp.symm, hb.symm⟩

/-- A task can be compared at best and at worst. -/
structure Comparable (t : Task) : Prop where
  program : t.program.Accepted
  exits : ∀ p ∈ t.program.procedures, p.ExitsAtEnds
  release : t.earliest ≤ t.latest

/-- A placement is that of the same task, and not later. -/
structure NotLater (p p' : Placement) : Prop where
  task : p.task = p'.task
  start : p.start ≤ p'.start
  finish : p.finish ≤ p'.finish

/-- Placing a task keeps the order of two boards, and the task is not later at best. -/
theorem placeOne_notLater (hordered : Bound.Engine.Ordered platform.hierarchy)
    (hloops : platform.loops = .unroll) (ht : Comparable t) {c c' : Board} {q : Placement}
    (hbehind : b.Behind c) (h : (placeOne platform solver .best id t analysis b).result =
      .ok (p, b')) (h' : (placeOne platform solver .worst id t analysis c).result = .ok (q, c')) :
    p.NotLater q ∧ p.task = id ∧ b'.Behind c' := by
  obtain ⟨timing, htiming, rfl, rfl⟩ := placeOne_eq_ok h
  obtain ⟨timing', htiming', rfl, rfl⟩ := placeOne_eq_ok h'
  have hstart : startOn platform .best b id t ≤ startOn platform .worst c id t := by
    unfold startOn
    split
    · exact Nat.le_refl 0
    · exact hbehind.startOf ht.release id
  have hfinish : timing.finish ≤ timing'.finish :=
    Bound.Engine.finish_le_of_start_le ht.program ht.exits hordered hloops hstart htiming htiming'
  refine ⟨⟨rfl, hstart, hfinish⟩, rfl, ?_⟩
  split
  · exact hbehind
  · exact hbehind.place hfinish

theorem placeFrom_cons_eq_ok {a : Cache.Analysis} {rest : List (Task × Cache.Analysis)}
    {ps : List Placement}
    (h : (placeFrom platform solver scenario id ((t, a) :: rest) b).result = .ok ps) :
    ∃ p b' ps', ps = p :: ps' ∧ (placeOne platform solver scenario id t a b).result = .ok (p, b') ∧
      (placeFrom platform solver scenario (id + 1) rest b').result = .ok ps' := by
  rw [placeFrom, Traced.result_bind] at h
  obtain ⟨⟨p, b'⟩, hone, h⟩ := bind_eq_ok.mp h
  rw [Traced.result_bind] at h
  obtain ⟨ps', hrest, h⟩ := bind_eq_ok.mp h
  exact ⟨p, b', ps', (Except.ok.inj h).symm, hone, hrest⟩

/-- Tasks that are placed in turn are placed no later at best than at worst. -/
theorem placeFrom_notLater (hordered : Bound.Engine.Ordered platform.hierarchy)
    (hloops : platform.loops = .unroll) {tasks : List (Task × Cache.Analysis)}
    (htasks : ∀ e ∈ tasks, Comparable e.1) {c : Board} {ps qs : List Placement}
    (hbehind : b.Behind c)
    (h : (placeFrom platform solver .best id tasks b).result = .ok ps)
    (h' : (placeFrom platform solver .worst id tasks c).result = .ok qs) :
    ps.map (·.task) = List.range' id tasks.length ∧ List.Forall₂ NotLater ps qs := by
  induction tasks generalizing id b c ps qs with
  | nil =>
    obtain rfl := Except.ok.inj h
    obtain rfl := Except.ok.inj h'
    exact ⟨rfl, .nil⟩
  | cons e rest ih =>
    obtain ⟨t, a⟩ := e
    obtain ⟨p, b', ps', rfl, hone, hrest⟩ := placeFrom_cons_eq_ok h
    obtain ⟨q, c', qs', rfl, hone', hrest'⟩ := placeFrom_cons_eq_ok h'
    -- the board at worst stays behind the one at best, task by task
    obtain ⟨hnot, rfl, hbehind'⟩ := placeOne_notLater hordered hloops
      (htasks (t, a) List.mem_cons_self) hbehind hone hone'
    obtain ⟨hnumbers, hall⟩ := ih (fun e he => htasks e (List.mem_cons_of_mem _ he)) hbehind'
      hrest hrest'
    refine ⟨?_, .cons hnot hall⟩
    rw [List.map_cons, hnumbers, List.length_cons, List.range'_succ]

end Placement

/-- All tasks of a graph are placed, and none of them starts or finishes later at best than at
worst. -/
theorem TaskGraph.schedules_ordered {graph : TaskGraph} {analyses : List Cache.Analysis}
    {platform : Bound.Platform} {solver : Offset.Solver} {best worst : List Placement}
    (hprograms : ∀ t ∈ graph.tasks, t.program.Accepted ∧
      ∀ p ∈ t.program.procedures, p.ExitsAtEnds)
    (hordered : Bound.Engine.Ordered platform.hierarchy) (hloops : platform.loops = .unroll)
    (hbest : (graph.place analyses platform solver .best).result = .ok best)
    (hworst : (graph.place analyses platform solver .worst).result = .ok worst) :
    best.map (·.task) = List.range graph.tasks.length ∧
      List.Forall₂ (fun b w => b.task = w.task ∧ b.start ≤ w.start ∧ b.finish ≤ w.finish)
        best worst := by
  rw [TaskGraph.place, Traced.result_bind, Traced.result_liftM_except] at hbest hworst
  obtain ⟨⟨⟩, hlength, hbest⟩ := bind_eq_ok.mp hbest
  obtain ⟨⟨⟩, -, hworst⟩ := bind_eq_ok.mp hworst
  rw [mapError_eq_ok, assume_eq_ok, decide_eq_true_iff] at hlength
  have htasks : ∀ e ∈ graph.tasks.zip analyses, Placement.Comparable e.1 := by
    intro e he
    have hmem : e.1 ∈ graph.tasks := (List.of_mem_zip he).1
    obtain ⟨i, hi⟩ := List.getElem?_of_mem hmem
    exact ⟨(hprograms e.1 hmem).1, (hprograms e.1 hmem).2, (graph.fits i e.1 hi).1⟩
  obtain ⟨hnumbers, hall⟩ := Placement.placeFrom_notLater hordered hloops htasks
    (Placement.Board.Behind.refl .start) hbest hworst
  constructor
  · rw [hnumbers, List.length_zip, hlength, Nat.min_self, List.range_eq_range']
  · exact hall.imp fun b w h => ⟨h.task, h.start, h.finish⟩

/-! ### Three tasks on two cores

The second task waits for the first one, and the third one for its core. -/

def waitingTasks : List Task :=
  [⟨"first", ⟨[Bound.forked]⟩, 0, 0, 0, 3, [1]⟩, ⟨"second", ⟨[Bound.forked]⟩, 0, 1, 0, 0, []⟩,
    ⟨"third", ⟨[Bound.forked]⟩, 0, 0, 5, 5, []⟩]

theorem waitingTasks_fit : ∀ (i : Nat) (t : Task), waitingTasks[i]? = some t →
    t.Fits waitingTasks.length i :=
  TaskGraph.error?_eq_none_iff.mp rfl

def waitingGraph : TaskGraph := ⟨waitingTasks, waitingTasks_fit⟩

theorem waitingTasks_forked : ∀ t ∈ waitingGraph.tasks, t.program = ⟨[Bound.forked]⟩ := by
  intro t ht
  simp only [waitingGraph, waitingTasks, List.mem_cons, List.not_mem_nil, or_false] at ht
  rcases ht with rfl | rfl | rfl
  · rfl
  · rfl
  · rfl

def Placement.times? (x : Except (Failure TaskError) (List Placement)) :
    Option (List (Nat × Nat)) :=
  x.toOption.map fun ps => ps.map fun p => (p.start, p.finish)

theorem Placement.times?_eq_some {x : Except (Failure TaskError) (List Placement)}
    {times : List (Nat × Nat)} (h : times? x = some times) :
    ∃ ps, x = .ok ps ∧ ps.map (fun p => (p.start, p.finish)) = times := by
  obtain ⟨ps, hps, htimes⟩ := Option.map_eq_some_iff.mp h
  exact ⟨ps, toOption_eq_some.mp hps, htimes⟩

/-- The later tasks start when the first one has finished, in both schedules. -/
theorem schedules_ordered_waiting : ∃ a best worst,
    (Bound.shortPlatform.hierarchy.analyze ⟨[Bound.forked]⟩ 0).result = .ok a ∧
    (waitingGraph.place [a, a, a] Bound.shortPlatform .embedded .best).result = .ok best ∧
    (waitingGraph.place [a, a, a] Bound.shortPlatform .embedded .worst).result = .ok worst ∧
    best.map (fun p => (p.start, p.finish)) = [(0, 22), (22, 44), (22, 46)] ∧
    worst.map (fun p => (p.start, p.finish)) = [(3, 38), (38, 72), (38, 74)] ∧
    best.map (·.task) = List.range 3 ∧
    List.Forall₂ (fun b w => b.task = w.task ∧ b.start ≤ w.start ∧ b.finish ≤ w.finish)
      best worst := by
  have hcomputed : ((Bound.shortPlatform.hierarchy.analyze ⟨[Bound.forked]⟩ 0).result.toOption.map
      fun a => (Placement.times?
          (waitingGraph.place [a, a, a] Bound.shortPlatform .embedded .best).result,
        Placement.times?
          (waitingGraph.place [a, a, a] Bound.shortPlatform .embedded .worst).result)) =
      some (some [(0, 22), (22, 44), (22, 46)], some [(3, 38), (38, 72), (38, 74)]) := by
    decide +kernel
  obtain ⟨a, ha, htimes⟩ := Option.map_eq_some_iff.mp hcomputed
  obtain ⟨hbest, hworst⟩ := Prod.mk.inj htimes
  obtain ⟨best, hbest, htimes⟩ := Placement.times?_eq_some hbest
  obtain ⟨worst, hworst, htimes'⟩ := Placement.times?_eq_some hworst
  refine ⟨a, best, worst, toOption_eq_some.mp ha, hbest, hworst, htimes, htimes', ?_⟩
  refine TaskGraph.schedules_ordered (fun t ht => ?_) (by decide) rfl hbest hworst
  rw [waitingTasks_forked t ht]
  exact ⟨Bound.forked_accepted, Bound.forked_exits⟩

end CycleBounds
