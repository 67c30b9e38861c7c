import CycleBounds.Proofs.Task.Schedules

/-!
# When tasks start

A board has one time per task and one per core, and both are overwritten while tasks are placed.
Nothing is lost: the times are the latest finishes of all tasks placed so far that precede the task
or have run on the core (`Board.Reflects`). For a core the last finish is the latest one, since
tasks do not finish before they start.

* `placeOne_starts`: a task starts as soon as it is released and no such task is left to wait for,
  and the board goes on to reflect what is placed.
* `placeFrom_starts`: the same for every task of a list.
* `TaskGraph.place_schedules`: the placements of a graph are a schedule without gaps.
-/

namespace CycleBounds

namespace Placement

/-! ### The latest finish -/

/-- A time is the latest finish of the placed tasks of a kind, or zero if there are none. -/
structure IsLatest (done : List (Task × Placement)) (kind : Task → Prop) (time : Nat) : Prop where
  bound : ∀ e ∈ done, kind e.1 → e.2.finish ≤ time
  attained : time = 0 ∨ ∃ e ∈ done, kind e.1 ∧ e.2.finish = time

namespace IsLatest

variable {done : List (Task × Placement)} {kind : Task → Prop} {time : Nat} {t : Task}
  {p : Placement}

theorem nil (kind : Task → Prop) : IsLatest [] kind 0 :=
  ⟨by simp, .inl rfl⟩

/-- One more task of the kind. -/
theorem append (h : IsLatest done kind time) (hkind : kind t) :
    IsLatest (done ++ [(t, p)]) kind (max time p.finish) where
  bound := by
    intro e he hk
    rcases List.mem_append.mp he with he | he
    · have := h.bound e he hk
      omega
    · rw [List.mem_singleton.mp he]
      exact Nat.le_max_right _ _
  attained := by
    rcases Nat.le_total time p.finish with hle | hle
    · rw [Nat.max_eq_right hle]
      exact .inr ⟨(t, p), by simp, hkind, rfl⟩
    · rw [Nat.max_eq_left hle]
      refine h.attained.imp_right ?_
      rintro ⟨e, he, hk, hfinish⟩
      exact ⟨e, List.mem_append_left _ he, hk, hfinish⟩

/-- One more task of another kind. -/
theorem append_other (h : IsLatest done kind time) (hkind : ¬ kind t) :
    IsLatest (done ++ [(t, p)]) kind time where
  bound := by
    intro e he hk
    rcases List.mem_append.mp he with he | he
    · exact h.bound e he hk
    · rw [List.mem_singleton.mp he] at hk
      exact absurd hk hkind
  attained := by
    refine h.attained.imp_right ?_
    rintro ⟨e, he, hk, hfinish⟩
    exact ⟨e, List.mem_append_left _ he, hk, hfinish⟩

end IsLatest

/-! ### What a board says -/

/-- The times of a board are the latest finishes of the tasks placed so far. -/
structure Board.Reflects (b : Board) (done : List (Task × Placement)) : Prop where
  ready : ∀ id, IsLatest done (fun t => id ∈ t.successors) ((b.ready.get? id).getD 0)
  free : ∀ core, IsLatest done (fun t => t.core = core) ((b.free.get? core).getD 0)

theorem Board.reflects_start : Board.start.Reflects [] :=
  ⟨fun _ => .nil _, fun _ => .nil _⟩

/-- A board goes on to reflect what is placed, if a task does not finish before its core has become
free. -/
theorem Board.Reflects.place {b : Board} {done : List (Task × Placement)} (h : b.Reflects done)
    {t : Task} {p : Placement} (hfree : (b.free.get? t.core).getD 0 ≤ p.finish) :
    (b.place t p.finish).Reflects (done ++ [(t, p)]) where
  ready := by
    intro id
    rw [Board.place, getD_delayed]
    split
    · rename_i hmem
      exact (h.ready id).append hmem
    · rename_i hmem
      exact (h.ready id).append_other hmem
  free := by
    intro core
    rw [Board.place, Table.get?_insert]
    split
    · rename_i hcore
      obtain rfl : core = t.core := by simpa using hcore
      have hlatest := (h.free t.core).append (p := p) rfl
      rwa [Nat.max_eq_right hfree] at hlatest
    · rename_i hcore
      have hother : t.core ≠ core := fun heq => hcore (by simp [heq])
      exact (h.free core).append_other hother

/-! ### Placing tasks -/

/-- One task has to wait for another: for one that precedes it, and for one that is placed before it
on the same core. -/
def Awaits (id : Nat) (t s : Task) : Prop :=
  id ∈ s.successors ∨ s.core = t.core

/-- Task `id` is placed next after others: as soon as it is released and those that it has to wait
for have finished. -/
structure Starts (scenario : Scenario) (done : List (Task × Placement)) (id : Nat) (t : Task)
    (p : Placement) : Prop where
  task : p.task = id
  cost : p.finish = p.start + p.cost
  released : t.release scenario ≤ p.start
  awaited : ∀ e ∈ done, Awaits id t e.1 → e.2.finish ≤ p.start
  tight : p.start = t.release scenario ∨ ∃ e ∈ done, Awaits id t e.1 ∧ p.start = e.2.finish

variable {platform : Bound.Platform} {solver : Offset.Solver} {scenario : Scenario}
  {id : Nat} {t : Task} {analysis : Cache.Analysis} {b b' : Board} {p : Placement}
  {done : List (Task × Placement)}

/-- The start that a reflecting board gives is the latest time that a task has to wait for. -/
theorem Board.Reflects.startOf (h : b.Reflects done) (scenario : Scenario) (id : Nat) (t : Task) :
    t.release scenario ≤ b.startOf scenario id t ∧
      (∀ e ∈ done, Awaits id t e.1 → e.2.finish ≤ b.startOf scenario id t) ∧
      (b.startOf scenario id t = t.release scenario ∨
        ∃ e ∈ done, Awaits id t e.1 ∧ b.startOf scenario id t = e.2.finish) := by
  have hready := h.ready id
  have hfree := h.free t.core
  unfold Board.startOf
  -- only what the two times reflect matters
  generalize (b.ready.get? id).getD 0 = ready at hready ⊢
  generalize (b.free.get? t.core).getD 0 = free at hfree ⊢
  refine ⟨by omega, ?_, ?_⟩
  · rintro e he (hsucc | hcore)
    · have := hready.bound e he hsucc
      omega
    · have := hfree.bound e he hcore
      omega
  · -- one of the three times is the largest, and a time of zero is no later than the release
    by_cases hrelease : max ready free ≤ t.release scenario
    · exact .inl (by omega)
    · right
      rcases Nat.le_total ready free with hle | hle
      · rcases hfree.attained with hzero | ⟨e, he, hcore, hfinish⟩
        · omega
        · exact ⟨e, he, .inr hcore, by omega⟩
      · rcases hready.attained with hzero | ⟨e, he, hsucc, hfinish⟩
        · omega
        · exact ⟨e, he, .inl hsucc, by omega⟩

/-- A task starts once its predecessors and its core are done. -/
theorem placeOne_starts (hdependent : platform.independent = false) (hb : b.Reflects done)
    (h : (placeOne platform solver scenario id t analysis b).result = .ok (p, b')) :
    Starts scenario done id t p ∧ b'.Reflects (done ++ [(t, p)]) := by
  obtain ⟨timing, htiming, rfl, rfl⟩ := placeOne_eq_ok h
  have hstart : startOn platform scenario b id t = b.startOf scenario id t := by
    simp [startOn, hdependent]
  rw [hstart] at htiming ⊢
  obtain ⟨hcost, -⟩ := Bound.Engine.analyze_eq_ok htiming
  obtain ⟨hreleased, hawaited, htight⟩ := hb.startOf scenario id t
  refine ⟨⟨rfl, hcost.symm, hreleased, hawaited, htight⟩, ?_⟩
  simp only [hdependent, Bool.false_eq_true, ↓reduceIte]
  apply hb.place (p := ⟨id, _, timing.finish, timing.cost⟩)
  show (b.free.get? t.core).getD 0 ≤ timing.finish
  calc (b.free.get? t.core).getD 0 ≤ b.startOf scenario id t := Nat.le_max_right _ _
    _ ≤ timing.finish := by omega

/-- Every task of a list starts as soon as it can, given those placed before. -/
theorem placeFrom_starts (hdependent : platform.independent = false)
    {tasks : List (Task × Cache.Analysis)} {ps : List Placement} (hb : b.Reflects done)
    (h : (placeFrom platform solver scenario id tasks b).result = .ok ps) :
    ps.length = tasks.length ∧ ∀ (i : Nat) t a p, tasks[i]? = some (t, a) → ps[i]? = some p →
      Starts scenario (done ++ ((tasks.map (·.1)).zip ps).take i) (id + i) t p := by
  induction tasks generalizing id b done ps with
  | nil =>
    obtain rfl := Except.ok.inj h
    exact ⟨rfl, by simp⟩
  | cons e rest ih =>
    obtain ⟨t, a⟩ := e
    obtain ⟨p, b', ps, rfl, hone, hrest⟩ := placeFrom_cons_eq_ok h
    obtain ⟨hstarts, hb'⟩ := placeOne_starts hdependent hb hone
    obtain ⟨hlength, hall⟩ := ih hb' hrest
    refine ⟨by simp [hlength], ?_⟩
    intro i t' a' p' ht hp
    -- the first task starts from the board at hand, the others after it
    cases i with
    | zero =>
      obtain ⟨rfl, rfl⟩ := Prod.mk.inj (Option.some.inj ht)
      obtain rfl := Option.some.inj hp
      simpa using hstarts
    | succ i =>
      have hnext := hall i t' a' p' ht hp
      rw [List.append_assoc, Nat.add_right_comm, Nat.add_assoc] at hnext
      exact hnext

end Placement

/-! ### Schedules -/

open Placement (Awaits Starts)

/-- The placements of all tasks of a graph, one per task in their order. No task starts before it is
released, before a task has finished that precedes it, or before one on the same core that is listed
before it. It starts at the latest of these times, and not later; there is always one, the
release. -/
structure TaskGraph.Schedule (graph : TaskGraph) (scenario : Scenario) (ps : List Placement) :
    Prop where
  tasks : ps.map (·.task) = List.range graph.tasks.length
  cost : ∀ p ∈ ps, p.finish = p.start + p.cost
  released : ∀ {j : Nat} {t q}, graph.tasks[j]? = some t → ps[j]? = some q →
    t.release scenario ≤ q.start
  ordered : ∀ {i j : Nat} {s p q}, graph.tasks[i]? = some s → j ∈ s.successors →
    ps[i]? = some p → ps[j]? = some q → p.finish ≤ q.start
  apart : ∀ {i j : Nat} {s t p q}, i < j → graph.tasks[i]? = some s → graph.tasks[j]? = some t →
    s.core = t.core → ps[i]? = some p → ps[j]? = some q → p.finish ≤ q.start
  tight : ∀ {j : Nat} {t q}, graph.tasks[j]? = some t → ps[j]? = some q →
    q.start = t.release scenario ∨ ∃ (i : Nat) (s : Task) (p : Placement), i < j ∧
      graph.tasks[i]? = some s ∧ ps[i]? = some p ∧ (j ∈ s.successors ∨ s.core = t.core) ∧
      q.start = p.finish

namespace TaskGraph

variable {graph : TaskGraph} {scenario : Scenario} {ps : List Placement}

/-- Tasks that all start as soon as they can are scheduled. -/
theorem schedule_of_starts (hlength : ps.length = graph.tasks.length)
    (hstarts : ∀ (j : Nat) t q, graph.tasks[j]? = some t → ps[j]? = some q →
      Starts scenario ((graph.tasks.zip ps).take j) j t q) : graph.Schedule scenario ps := by
  have htask : ∀ (j : Nat) q, ps[j]? = some q → ∃ t, graph.tasks[j]? = some t := by
    intro j q hq
    obtain ⟨hj, -⟩ := List.getElem?_eq_some_iff.mp hq
    exact ⟨_, List.getElem?_eq_getElem (hlength ▸ hj)⟩
  -- tasks of lower numbers are placed before
  have hmem : ∀ {i j : Nat} {s p}, i < j → graph.tasks[i]? = some s → ps[i]? = some p →
      (s, p) ∈ (graph.tasks.zip ps).take j := by
    intro i j s p hij hs hp
    apply List.mem_of_getElem? (i := i)
    rw [List.getElem?_take_of_lt hij]
    exact List.getElem?_zip_eq_some.mpr ⟨hs, hp⟩
  constructor
  case tasks =>
    apply List.ext_getElem?
    intro j
    rw [List.getElem?_map]
    cases hq : ps[j]? with
    | none =>
      have hj : ps.length ≤ j := List.getElem?_eq_none_iff.mp hq
      rw [List.getElem?_eq_none (by simp only [List.length_range]; omega)]
      rfl
    | some q =>
      obtain ⟨t, ht⟩ := htask j q hq
      have hj : j < graph.tasks.length := (List.getElem?_eq_some_iff.mp ht).1
      rw [List.getElem?_range hj, Option.map_some, (hstarts j t q ht hq).task]
  case cost =>
    intro p hp
    obtain ⟨j, hj⟩ := List.getElem?_of_mem hp
    obtain ⟨t, ht⟩ := htask j p hj
    exact (hstarts j t p ht hj).cost
  case released =>
    intro j t q ht hq
    exact (hstarts j t q ht hq).released
  case ordered =>
    intro i j s p q hs hsucc hp hq
    obtain ⟨t, ht⟩ := htask j q hq
    have hij : i < j := ((graph.fits i s hs).2 j hsucc).1
    exact (hstarts j t q ht hq).awaited (s, p) (hmem hij hs hp) (.inl hsucc)
  case apart =>
    intro i j s t p q hij hs ht hcore hp hq
    exact (hstarts j t q ht hq).awaited (s, p) (hmem hij hs hp) (.inr hcore)
  case tight =>
    intro j t q ht hq
    refine (hstarts j t q ht hq).tight.imp_right ?_
    rintro ⟨⟨s, p⟩, he, hawaits, hfinish⟩
    obtain ⟨i, hi⟩ := List.getElem?_of_mem he
    rw [List.getElem?_take] at hi
    split at hi
    · rename_i hij
      obtain ⟨hs, hp⟩ := List.getElem?_zip_eq_some.mp hi
      exact ⟨i, s, p, hij, hs, hp, hawaits, hfinish⟩
    · cases hi

/-- The tasks of a graph are placed without overlap and without gaps. -/
theorem place_schedules {analyses : List Cache.Analysis} {platform : Bound.Platform}
    {solver : Offset.Solver} (hdependent : platform.independent = false)
    (h : (graph.place analyses platform solver scenario).result = .ok ps) :
    graph.Schedule scenario ps := by
  rw [TaskGraph.place, Traced.result_bind, Traced.result_liftM_except] at h
  obtain ⟨⟨⟩, hanalyses, h⟩ := bind_eq_ok.mp h
  rw [mapError_eq_ok, assume_eq_ok, decide_eq_true_iff] at hanalyses
  have hfst : (graph.tasks.zip analyses).map (·.1) = graph.tasks :=
    List.map_fst_zip (Nat.le_of_eq hanalyses.symm)
  obtain ⟨hlength, hstarts⟩ :=
    Placement.placeFrom_starts hdependent Placement.Board.reflects_start h
  rw [hfst] at hstarts
  apply schedule_of_starts
  · rw [hlength, List.length_zip, hanalyses, Nat.min_self]
  · intro j t q ht hq
    have hj : j < analyses.length := hanalyses ▸ (List.getElem?_eq_some_iff.mp ht).1
    have hentry : (graph.tasks.zip analyses)[j]? = some (t, analyses[j]) :=
      List.getElem?_zip_eq_some.mpr ⟨ht, List.getElem?_eq_getElem hj⟩
    simpa using hstarts j t _ q hentry hq

end TaskGraph

/-- At worst, the second task waits for the first one on another core, and the third one for its
core, which is free only after its release. -/
theorem place_schedules_waiting : ∃ a ps,
    (Bound.shortPlatform.hierarchy.analyze ⟨[Bound.forked]⟩ 0).result = .ok a ∧
    Bound.shortPlatform.independent = false ∧
    (waitingGraph.place [a, a, a] Bound.shortPlatform .embedded .worst).result = .ok ps ∧
    ps.map (fun p => (p.start, p.finish)) = [(3, 38), (38, 72), (38, 74)] ∧
    waitingGraph.Schedule .worst ps := by
  have hcomputed : ((Bound.shortPlatform.hierarchy.analyze ⟨[Bound.forked]⟩ 0).result.toOption.map
      fun a => Placement.times?
        (waitingGraph.place [a, a, a] Bound.shortPlatform .embedded .worst).result) =
      some (some [(3, 38), (38, 72), (38, 74)]) := by
    decide +kernel
  obtain ⟨a, ha, htimes⟩ := Option.map_eq_some_iff.mp hcomputed
  obtain ⟨ps, hps, htimes⟩ := Placement.times?_eq_some htimes
  exact ⟨a, ps, toOption_eq_some.mp ha, rfl, hps, htimes, TaskGraph.place_schedules rfl hps⟩

end CycleBounds
