import CycleBounds.Proofs.Bound.Coupling
import CycleBounds.Proofs.Bound.Estimates
import CycleBounds.Proofs.Bound.Ledgers

/-!
# Timing is periodic

All rounds of a bus are alike, so a run that starts some rounds later does the same, only later. All
its stamps are later by as much, and its offset graphs are the same, since a graph knows times only
by their offsets in the round. Iterations that are summarised are timed from zero in both runs, so
their costs are the same; but blocks that they call are stamped with times that do not depend on the
start.

* `Platform.period`: after how many cycles the bus is as before.
* `Ledger.Shifted`: the results of a run that starts later.
* `calls_shift`: a call that starts some periods later ends as much later.
* `trace_periodic`: what holds of a whole run.
-/

namespace CycleBounds.Bound

open Code (Program Procedure Loop)
open Engine (Body Call Exhausts Source bodyOf recorded)

def Platform.period (platform : Platform) : Nat :=
  (platform.bus.timed?.map (·.interval)).getD 1

def Timing.shift (timing : Timing) (d : Nat) : Timing where
  start := timing.start + d
  finish := timing.finish + d
  cost := timing.cost

/-- The results of a run that starts later: all stamps are later, and the graphs are the same. -/
structure Ledger.Shifted (d : Nat) (ledger ledger' : Ledger) : Prop where
  blocks : ∀ spot, ledger'.blocks.get? spot =
    (ledger.blocks.get? spot).map fun t => (t.1 + d, t.2 + d)
  procedures : ∀ q, ledger'.procedures.get? q = (ledger.procedures.get? q).map (·.shift d)
  graphs : ledger'.graphs = ledger.graphs

/-- The second run is later by some time. In relative runs, which are not, it does the same
transfers. The results are shifted unless they have times of summarised iterations. -/
def Coupling.shift (e : Engine) (relative : Bool) (d : Nat) : Coupling where
  time t t' := t' = t + d
  bus bus bus' := relative = true → bus' = bus
  ledger ledger ledger' := ledger'.summaries = ledger.summaries ∧
    (e.platform.loops ≠ .summarize → ledger.Shifted d ledger')

/-- A run can be moved by some time: by a number of periods, and not at all if it is relative. -/
structure Engine.Moves (e : Engine) (relative : Bool) (d : Nat) : Prop where
  periods : e.platform.period ∣ d
  occurs : e.Occurs relative
  fixed : relative = true → d = 0

namespace Ledger

variable {d : Nat} {ledger ledger' : Ledger}

theorem shifted_empty (d : Nat) : Shifted d .empty .empty :=
  ⟨fun _ => rfl, fun _ => rfl, rfl⟩

theorem Shifted.insert_block (h : ledger.Shifted d ledger') (spot : Spot) (start finish : Nat) :
    Shifted d { ledger with blocks := ledger.blocks.insert spot (start, finish) }
      { ledger' with blocks := ledger'.blocks.insert spot (start + d, finish + d) } := by
  refine ⟨fun spot' => ?_, h.procedures, h.graphs⟩
  simp only [Table.get?_insert]
  split
  · rfl
  · exact h.blocks spot'

theorem Shifted.insert_procedure (h : ledger.Shifted d ledger') (q : Nat) (timing : Timing) :
    Shifted d { ledger with procedures := ledger.procedures.insert q timing }
      { ledger' with procedures := ledger'.procedures.insert q (timing.shift d) } := by
  refine ⟨h.blocks, fun q' => ?_, h.graphs⟩
  simp only [Table.get?_insert]
  split
  · rfl
  · exact h.procedures q'

theorem Shifted.append_graph (h : ledger.Shifted d ledger') (entry : Nat × Nat × Offset.Graph) :
    Shifted d { ledger with graphs := ledger.graphs ++ [entry] }
      { ledger' with graphs := ledger'.graphs ++ [entry] } :=
  ⟨h.blocks, h.procedures, congrArg (· ++ [entry]) h.graphs⟩

end Ledger

/-! ### One step -/

namespace Engine

variable {e : Engine} {scenario : Scenario} {relative : Bool} {d : Nat}

/-- A fetch takes as long some periods later. -/
theorem fetchSpan_add (hd : e.platform.period ∣ d) (source : Source) (t : Nat) :
    e.fetchSpan scenario source (t + d) = e.fetchSpan scenario source t := by
  have hspan : ∀ latency, e.platform.bus.span scenario e.core (t + d) latency =
      e.platform.bus.span scenario e.core t latency := by
    intro latency
    cases hbus : e.platform.bus with
    | unshared => rfl
    | unmodeled s => cases scenario <;> rfl
    | scheduled s =>
      -- the slots repeat after every period
      obtain ⟨k, rfl⟩ := hd
      have hperiod : e.platform.period = s.interval := by
        rw [Platform.period, hbus]
        rfl
      rw [hperiod, Nat.mul_comm]
      exact Bus.span_add_rounds rfl k
  cases source with
  | l1 => rfl
  | l2 => exact hspan _
  | memory => exact hspan _

theorem Moves.not_relative (h : e.Moves relative d) : e.Moves false d :=
  ⟨h.periods, e.occurs_false, nofun⟩

theorem moves_zero (hloops : e.platform.loops = .summarize) : e.Moves true 0 :=
  ⟨Nat.dvd_zero _, fun _ => hloops, fun _ => rfl⟩

/-- A run that is moved by whole periods does the same at the later time. -/
theorem sound_shift (h : e.Moves relative d) :
    (Coupling.shift e relative d).Sound e e scenario relative relative := by
  constructor
  case program => rfl
  case analysis => rfl
  case start => exact fun _ => rfl
  case pick =>
    intro s s' u u' hs hu
    apply Coupling.stamps_pick hs hu
    have hs : s'.finish = s.finish + d := hs.1
    have hu : u'.finish = u.finish + d := hu.1
    rw [hs, hu]
    cases scenario <;> simp [Scenario.exceeds]
  case fetch =>
    rintro source t t' bus bus' ht hbus ⟨x, next⟩ ⟨x', next'⟩ hx hx'
    cases relative with
    | true =>
      -- the same fetch at the same time
      obtain rfl : d = 0 := h.fixed rfl
      obtain rfl : t' = t := ht
      obtain rfl : bus' = bus := hbus rfl
      obtain ⟨rfl, rfl⟩ := Prod.mk.inj (Except.ok.inj (hx.symm.trans hx'))
      exact ⟨rfl, fun _ => rfl⟩
    | false =>
      -- the same fetch some periods later
      obtain rfl : t' = t + d := ht
      have hx := fetch_eq_ok hx
      have hx' := fetch_eq_ok hx'
      rw [fetchSpan_add h.periods, ← hx] at hx'
      subst hx'
      refine ⟨?_, by rintro ⟨⟩⟩
      show t + d + x' + _ = t + x' + _ + d
      omega
  case stamp =>
    rintro t t' q b s s' ⟨hsummaries, hshifted⟩ hstart hfinish
    have hstart : s'.start = s.start + d := hstart
    have hfinish : s'.finish = s.finish + d := hfinish
    cases relative with
    | true => exact ⟨hsummaries, hshifted⟩
    | false =>
      refine ⟨hsummaries, fun hloops => ?_⟩
      have hblock := (hshifted hloops).insert_block ⟨q, b⟩ s.start s.finish
      rwa [← hstart, ← hfinish] at hblock
  case record =>
    rintro ledger ledger' q t t' u u' ⟨hsummaries, hshifted⟩ rfl rfl
    cases relative with
    | true => exact ⟨hsummaries, hshifted⟩
    | false =>
      refine ⟨hsummaries, fun hloops => ?_⟩
      have hprocedure := (hshifted hloops).insert_procedure q ⟨t, u, u - t⟩
      have htiming : Timing.shift ⟨t, u, u - t⟩ d = ⟨t + d, u + d, u + d - (t + d)⟩ := by
        rw [Timing.shift, Nat.add_sub_add_right]
      rwa [htiming] at hprocedure

/-! ### Loops -/

variable {call : Call} {p : Procedure} {l : Nat} {loop : Loop} {body : Body} {context : Context}
  {s s' : Stamp} {t t' : Progress} {ledger ledger' : Ledger}

/-- The latest finish of two tables is the same if they have the same finishes. -/
theorem latest_congr {times times' : Table Nat Stamp}
    (h : ∀ b, Option.Rel (fun s s' : Stamp => s'.finish = s.finish) (times.get? b)
      (times'.get? b)) :
    (times'.values.map (·.finish)).foldl max 0 = (times.values.map (·.finish)).foldl max 0 := by
  apply Nat.le_antisymm
  · apply latest_le
    intro b o' ho'
    obtain ⟨o, ho, heq⟩ := rel_some_right (h b) ho'
    rw [heq]
    exact le_latest ho
  · apply latest_le
    intro b o ho
    obtain ⟨o', ho', heq⟩ := rel_some_left (h b) ho
    rw [← heq]
    exact le_latest ho'

/-- The cost of an iteration from zero depends on the results so far only by their summaries. -/
theorem coupled_relativeCost (hloops : e.platform.loops = .summarize)
    (hbody : (Coupling.shift e true 0).Bodies scenario true true body body)
    (hledger : ledger'.summaries = ledger.summaries) :
    Coupled (fun r r' => r'.1 = r.1 ∧ r'.2.summaries = r.2.summaries)
      (relativeCost body scenario loop context ledger).result
      (relativeCost body scenario loop context ledger').result := by
  have hsound : (Coupling.shift e true 0).Sound e e scenario true true :=
    sound_shift (moves_zero hloops)
  have hempty : (Coupling.shift e true 0).Alike ⟨∅, ledger⟩ ⟨∅, ledger'⟩ :=
    Coupling.Sound.alike_empty ⟨hledger, fun hnot => absurd hloops hnot⟩
  simp only [relativeCost, Traced.result_bind]
  refine (hbody (hsound.stamps_moment rfl) hempty).bind fun t t' ht => ?_
  cases scenario with
  | worst => exact Coupled.pure ⟨latest_congr ht.finish, ht.ledger.1⟩
  | best =>
    simp only [Traced.result_bind, Traced.result_liftM_except]
    refine (coupled_stampOf (ht.times loop.sink)).mapError.bind fun s s' hs => ?_
    exact Coupled.pure ⟨hs.1, ht.ledger.1⟩

/-- Summaries are found by relative runs and so do not depend on the time. -/
theorem coupled_summary (hloops : e.platform.loops = .summarize)
    (hbody : (Coupling.shift e true 0).Bodies scenario true true body body)
    (hledger : ledger'.summaries = ledger.summaries) :
    Coupled (fun r r' => r'.1 = r.1 ∧ r'.2.summaries = r.2.summaries)
      (summary body scenario p loop context ledger).result
      (summary body scenario p loop context ledger').result := by
  simp only [summary, hledger]
  cases ledger.summaries.get? ⟨p.id, loop.header, context⟩ with
  | some costs => exact Coupled.pure ⟨rfl, hledger⟩
  | none =>
    simp only [Traced.result_bind, Traced.result_liftM_except, Traced.result_pure]
    refine Coupled.bind_same fun context₁ _ => ?_
    refine (coupled_relativeCost hloops hbody hledger).bind ?_
    rintro ⟨first, ledger₁⟩ ⟨_, ledger₁'⟩ ⟨rfl, hledger₁⟩
    refine Coupled.bind_same fun context₂ _ => ?_
    refine (coupled_relativeCost hloops hbody hledger₁).bind ?_
    rintro ⟨steady, ledger₂⟩ ⟨_, ledger₂'⟩ ⟨rfl, hledger₂⟩
    refine Coupled.pure ⟨rfl, ?_⟩
    show ledger₂'.summaries.insert _ _ = ledger₂.summaries.insert _ _
    rw [hledger₂]

/-- Summarised loops take the same time. -/
theorem coupled_summarize (h : e.Moves relative d) (hloops : e.platform.loops = .summarize)
    (hbody : (Coupling.shift e true 0).Bodies scenario true true body body)
    (hs : (Coupling.shift e relative d).time s.finish s'.finish)
    (ht : (Coupling.shift e relative d).Alike t t') :
    Coupled (Coupling.shift e relative d).Alike
      (e.summarize body scenario relative p l loop context s.finish t).result
      (e.summarize body scenario relative p l loop context s'.finish t').result := by
  have hsound : (Coupling.shift e relative d).Sound e e scenario relative relative := sound_shift h
  simp only [summarize, Traced.result_bind, Traced.result_liftM_except, Traced.result_emit,
    Traced.result_pure]
  refine (coupled_summary hloops hbody ht.ledger.1).bind ?_
  rintro ⟨costs, ledger⟩ ⟨_, ledger'⟩ ⟨rfl, hledger⟩
  refine Coupled.bind_same fun n _ => ?_
  refine Coupled.bind_same fun rest _ => ?_
  refine Coupled.bind_same fun cost _ => ?_
  refine Coupled.bind_same fun _ _ => ?_
  refine (Word.coupled_add s.finish cost s'.finish cost).mapError.bind ?_
  rintro _ _ ⟨rfl, rfl⟩
  -- the summary is made from zero, so it does not depend on when the loop is entered
  have hnext : (Coupling.shift e relative d).Alike { t with ledger }
      { t' with ledger := ledger' } :=
    ⟨⟨hledger, fun hnot => absurd hloops hnot⟩, ht.times⟩
  refine Coupled.pure (hsound.alike_spread hnext hs ?_)
  have hs : s'.finish = s.finish + d := hs
  show s'.finish + cost = s.finish + cost + d
  omega

/-- A graph knows a time only by its offset in the round. -/
theorem addNode_add {g : Offset.Graph} (hd : g.interval ∣ d) (time : Nat) :
    g.addNode (time + d) = g.addNode time := by
  have hoffset : (time + d) % g.interval = time % g.interval := by
    obtain ⟨k, rfl⟩ := hd
    exact Nat.add_mul_mod_self_left _ _ _
  unfold Offset.Graph.addNode Offset.Graph.find?
  rw [hoffset]

theorem alike_graph (ht : (Coupling.shift e relative d).Alike t t')
    (entry : Nat × Nat × Offset.Graph) :
    (Coupling.shift e relative d).Alike
      { t with ledger := { t.ledger with graphs := t.ledger.graphs ++ [entry] } }
      { t' with ledger := { t'.ledger with graphs := t'.ledger.graphs ++ [entry] } } :=
  ⟨⟨ht.ledger.1, fun hloops => (ht.ledger.2 hloops).append_graph entry⟩, ht.times⟩

/-- Loops that are bounded by their offsets take the same time and have the same graphs. -/
theorem coupled_byOffsets (h : e.Moves false d) {schedule : Bus.Schedule}
    (hbus : e.platform.bus.timed? = some schedule)
    (hbody : (Coupling.shift e false d).Bodies scenario false false body body)
    (hs : (Coupling.shift e false d).Stamps s s') (ht : (Coupling.shift e false d).Alike t t') :
    Coupled (Coupling.shift e false d).Alike
      (e.byOffsets body schedule scenario false p l loop context s t).result
      (e.byOffsets body schedule scenario false p l loop context s' t').result := by
  have hsound : (Coupling.shift e false d).Sound e e scenario false false := sound_shift h
  have hperiod : e.platform.period = schedule.interval := by
    rw [Platform.period, hbus]
    rfl
  simp only [byOffsets, Traced.result_bind, Traced.result_liftM_except]
  refine Coupled.bind_same fun context₁ _ => ?_
  refine (hbody hs ht).bind fun t t' ht => ?_
  refine (coupled_stampOf (ht.times loop.sink)).mapError.bind fun first first' hfirst => ?_
  have hend : first'.finish = first.finish + d := hfirst.1
  refine Coupled.bind_same fun n _ => ?_
  refine Coupled.bind_same fun steady _ => ?_
  split
  · exact Coupled.pure (hsound.alike_spread ht hs.1 hfirst.1)
  · simp only [Traced.result_bind, Traced.result_liftM_except, Traced.result_emit]
    refine Coupled.bind_same fun g hg => ?_
    have hinterval : g.interval ∣ d := by
      rw [(Offset.Graph.empty_eq_ok (mapError_eq_ok.mp hg)).1, ← hperiod]
      exact h.periods
    -- from here on both runs do the same
    rw [hend, addNode_add hinterval]
    refine Coupled.bind_same fun g _ => ?_
    refine Coupled.bind_same fun g _ => ?_
    refine Coupled.bind_same fun _ _ => ?_
    refine Coupled.bind_same fun solution _ => ?_
    refine Coupled.bind_same fun _ _ => ?_
    refine (Word.coupled_add first.finish solution.value (first.finish + d)
      solution.value).mapError.bind ?_
    rintro _ _ ⟨rfl, rfl⟩
    refine Coupled.pure (alike_graph (hsound.alike_spread ht hs.1 ?_) _)
    exact Nat.add_right_comm _ _ _

/-- A loop takes the same time, however it is treated. -/
theorem coupled_loop (h : e.Moves relative d)
    (hbody : ∀ {relative d}, e.Moves relative d →
      (Coupling.shift e relative d).Bodies scenario relative relative body body)
    (hs : (Coupling.shift e relative d).Stamps s s')
    (ht : (Coupling.shift e relative d).Alike t t') :
    Coupled (Coupling.shift e relative d).Alike
      (e.loop body scenario relative p l loop context s t).result
      (e.loop body scenario relative p l loop context s' t').result := by
  unfold Engine.loop
  split
  · rename_i hloops
    exact coupled_summarize h hloops (hbody (moves_zero hloops)) hs.1 ht
  · rename_i schedule hloops hbus
    obtain rfl := h.occurs.eq_false (by simp [hloops])
    exact coupled_byOffsets h hbus (hbody h) hs ht
  · exact coupled_unroll (sound_shift h) (hbody h) hs ht

/-! ### Whole runs -/

/-- Inner loops do the same at the later time, however deep they nest. -/
theorem inners_shift
    (hcall : ∀ {relative d}, e.Moves relative d →
      (Coupling.shift e relative d).Calls scenario relative relative call call)
    (n : Nat) (h : e.Moves relative d) :
    (Coupling.shift e relative d).Inners scenario relative relative (e.loopAt call p n)
      (e.loopAt call p n) := by
  induction n generalizing relative d with
  | zero => exact fun _ _ _ _ herror => nomatch herror
  | succ n ih =>
    intro l context s s' t t' hs ht
    refine coupled_loopAt (sound_shift h) hs ht fun loop _ => ?_
    refine coupled_loop h ?_ hs ht
    intro relative d h context s s' t t' hs ht
    exact coupled_region (sound_shift h) (hcall h) (ih h) hs ht

/-- Calls that start some periods later end as much later. -/
theorem calls_shift (n : Nat) (h : e.Moves relative d) :
    (Coupling.shift e relative d).Calls scenario relative relative (e.procedureAt n)
      (e.procedureAt n) := by
  induction n generalizing relative d with
  | zero => exact fun _ _ _ _ herror => nomatch herror
  | succ n ih =>
    intro q start start' ledger ledger' hstart hledger
    refine coupled_procedureAt (sound_shift h) hstart fun p _ => ?_
    -- the body of a procedure is not relative
    have h₀ := h.not_relative
    exact coupled_body (c := Coupling.shift e false d) (sound_shift h₀) (ih h₀)
      (inners_shift ih _ h₀) hstart hledger

end Engine

/-- Timing is periodic in the start. A procedure can be timed from every start, unless numbers
overflow or loops are nested too deep, if loops are not left to another program to solve. A run that
starts some periods later takes as long, and unless loops are summarised, all its stamps are later
by as much and its offset graphs are the same. -/
theorem trace_periodic {program : Program} {analysis : Cache.Analysis} {platform : Platform}
    {solver : Offset.Solver} {core entry start : Nat} {scenario : Scenario} {e : Engine}
    (hprogram : program.Accepted) (hentry : entry < program.procedures.length)
    (hcore : (Engine.mk program analysis platform solver 0).onCore core = .ok e) (k : Nat) :
    let d := k * platform.period
    (e.Unaided → ∀ start, Ensures (Exhausts program) (e.trace entry start scenario).result
      fun _ => True) ∧
    ∀ timing ledger timing' ledger',
      (e.trace entry start scenario).result = .ok (timing, ledger) →
      (e.trace entry (start + d) scenario).result = .ok (timing', ledger') →
      timing'.cost = timing.cost ∧ timing' = timing.shift d ∧
        (platform.loops ≠ .summarize → ledger.Shifted d ledger') := by
  intro d
  obtain ⟨rfl, hscheduled⟩ := Engine.onCore_eq_ok hcore
  constructor
  · intro hunaided start
    exact Engine.ensures_trace hprogram hscheduled hunaided hentry
  · intro timing ledger timing' ledger' hrun hrun'
    have hmoves : (Engine.mk program analysis platform solver core).Moves false d :=
      ⟨Nat.dvd_mul_left _ _, Engine.occurs_false _, nofun⟩
    have hempty : (Coupling.shift ⟨program, analysis, platform, solver, core⟩ false d).ledger .empty
        .empty := ⟨rfl, fun _ => Ledger.shifted_empty d⟩
    obtain ⟨hend, -, hledger⟩ := Engine.calls_shift _ hmoves rfl hempty _ _ hrun hrun'
    have hcost : timing'.cost = timing.cost := by
      have hend : start + d + timing'.cost = start + timing.cost + d := hend
      omega
    refine ⟨hcost, ?_, hledger⟩
    rw [Engine.timing_of_trace hrun, Engine.timing_of_trace hrun', hcost, Timing.shift,
      Nat.add_right_comm]

/-- A loop with two branches, bounded by its offsets, and the same one round of the bus later. -/
theorem trace_periodic_forked : ∃ analysis e timing ledger timing' ledger',
    let platform := shortPlatform.withLoops .offsets
    (platform.hierarchy.analyze ⟨[forked]⟩ 0).result = .ok analysis ∧
    (Engine.mk ⟨[forked]⟩ analysis platform .embedded 0).onCore 1 = .ok e ∧
    platform.period = 4 ∧ (e.trace 0 3 .worst).result = .ok (timing, ledger) ∧
    (e.trace 0 7 .worst).result = .ok (timing', ledger') ∧
    (timing.cost, ledger.graphs.length) = (38, 1) ∧ timing' = timing.shift 4 ∧
    ledger.Shifted 4 ledger' := by
  have hcomputed : ((shortPlatform.hierarchy.analyze ⟨[forked]⟩ 0).result.toOption.bind fun a =>
      ((Engine.mk ⟨[forked]⟩ a (shortPlatform.withLoops .offsets) .embedded 0).onCore
        1).toOption.bind fun e =>
      (e.trace 0 3 .worst).result.toOption.bind fun r =>
      (e.trace 0 7 .worst).result.toOption.map fun _ => (r.1.cost, r.2.graphs.length)) =
      some (38, 1) := by
    decide +kernel
  obtain ⟨analysis, hanalysis, hrest⟩ := Option.bind_eq_some_iff.mp hcomputed
  obtain ⟨e, he, hrest⟩ := Option.bind_eq_some_iff.mp hrest
  obtain ⟨⟨timing, ledger⟩, hrun, hrest⟩ := Option.bind_eq_some_iff.mp hrest
  obtain ⟨⟨timing', ledger'⟩, hrun', hvalues⟩ := Option.map_eq_some_iff.mp hrest
  rw [toOption_eq_some] at hanalysis he hrun hrun'
  obtain ⟨-, hperiodic⟩ := trace_periodic forked_accepted (Nat.succ_pos 0) he 1
  obtain ⟨-, htiming, hshifted⟩ := hperiodic timing ledger timing' ledger' hrun hrun'
  exact ⟨analysis, e, timing, ledger, timing', ledger', hanalysis, he, rfl, hrun, hrun', hvalues,
    htiming, hshifted (by decide)⟩

end CycleBounds.Bound
