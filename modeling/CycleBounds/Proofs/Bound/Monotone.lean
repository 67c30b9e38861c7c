import CycleBounds.Proofs.Bound.Coupling
import CycleBounds.Proofs.Bound.Estimates

/-!
# No timing anomalies

A run that starts later, with instructions that take longer, is never ahead. Its fetches may wait
less for the bus, but no transfer completes earlier if it is issued later, and so no block of the
run finishes earlier, whichever of its predecessors counts. With unrolled loops, this carries over
to whole procedures: a delay is never made up for by more than it.

* `Coupling.behind`: the second one of two runs is never ahead.
* `calls_behind`: a call that starts later ends later.
* `finish_mono`: the bound of a procedure is monotone in its start and in the cost of instructions.
-/

namespace CycleBounds

/-- The later one of two times at worst, and the earlier one at best, is monotone in both. -/
theorem Scenario.pick_mono {scenario : Scenario} {a a' b b' : Nat} (ha : a ≤ a') (hb : b ≤ b') :
    (if scenario.exceeds b a then b else a) ≤ (if scenario.exceeds b' a' then b' else a') := by
  cases scenario with
  | best =>
    simp only [exceeds, decide_eq_true_eq]
    split <;> split <;> omega
  | worst =>
    simp only [exceeds, decide_eq_true_eq]
    split <;> split <;> omega

end CycleBounds

namespace CycleBounds.Bound

open Code (Program Procedure)
open Engine (Exhausts)

/-- The second run is not ahead of the first one. -/
def Coupling.behind : Coupling where
  time t t' := t ≤ t'
  bus _ _ := True
  ledger _ _ := True

/-- Two engines differ in the cost of instructions only, which is not less for the second one. -/
structure Engine.Slower (e e' : Engine) (scenario : Scenario) : Prop where
  program : e'.program = e.program
  analysis : e'.analysis = e.analysis
  hierarchy : e'.platform.hierarchy = e.platform.hierarchy
  bus : e'.platform.bus = e.platform.bus
  core : e'.core = e.core
  instr : e.platform.instrCost scenario ≤ e'.platform.instrCost scenario

namespace Engine

variable {e e' : Engine} {scenario : Scenario} {call call' : Call} {p : Procedure}

theorem Slower.fetchSpan_eq (h : e.Slower e' scenario) (source : Source) (t : Nat) :
    e'.fetchSpan scenario source t = e.fetchSpan scenario source t := by
  unfold fetchSpan
  rw [h.hierarchy, h.bus, h.core]

/-- Dearer instructions never let a run get ahead. -/
theorem sound_behind (h : e.Slower e' scenario) :
    Coupling.behind.Sound e e' scenario false false := by
  constructor
  case program => exact h.program
  case analysis => exact h.analysis
  case start => trivial
  case pick =>
    rintro s s' u u' ⟨hs, -⟩ ⟨hu, -⟩
    refine ⟨?_, trivial⟩
    rw [apply_ite Stamp.finish, apply_ite Stamp.finish]
    exact Scenario.pick_mono hs hu
  case fetch =>
    rintro source t t' bus bus' ht - ⟨d, _⟩ ⟨d', _⟩ hd hd'
    have hd := fetch_eq_ok hd
    have hd' := fetch_eq_ok hd'
    rw [h.fetchSpan_eq] at hd'
    subst hd hd'
    -- a fetch that starts later does not end earlier, as waiting for a slot never overtakes
    exact ⟨Nat.add_le_add (add_fetchSpan_mono ht) h.instr, trivial⟩
  case stamp => exact fun _ _ _ => trivial
  case record => exact fun _ _ _ => trivial

theorem loop_of_unroll (hloops : e.platform.loops = .unroll) {body : Body} {relative : Bool}
    {l : Nat} {loop : Code.Loop} {context : Context} {s : Stamp} {t : Progress} :
    e.loop body scenario relative p l loop context s t =
      unroll body scenario relative p l loop context s t := by
  simp only [Engine.loop, hloops]

/-- Unrolled loops that are entered later are left later. -/
theorem inners_behind (h : e.Slower e' scenario) (hloops : e.platform.loops = .unroll)
    (hloops' : e'.platform.loops = .unroll)
    (hcall : Coupling.behind.Calls scenario false false call call') (n : Nat) :
    Coupling.behind.Inners scenario false false (e.loopAt call p n) (e'.loopAt call' p n) := by
  have hsound := sound_behind h
  induction n with
  | zero => exact fun _ _ _ _ herror => nomatch herror
  | succ n ih =>
    intro l context s s' t t' hs ht
    refine coupled_loopAt hsound hs ht fun loop _ => ?_
    rw [loop_of_unroll hloops, loop_of_unroll hloops']
    refine coupled_unroll hsound (fun hs ht => ?_) hs ht
    exact coupled_region hsound hcall ih hs ht

/-- Calls that start later end later. -/
theorem calls_behind (h : e.Slower e' scenario) (hloops : e.platform.loops = .unroll)
    (hloops' : e'.platform.loops = .unroll) (n : Nat) :
    Coupling.behind.Calls scenario false false (e.procedureAt n) (e'.procedureAt n) := by
  have hsound := sound_behind h
  induction n with
  | zero => exact fun _ _ _ _ herror => nomatch herror
  | succ n ih =>
    intro q start start' ledger ledger' hstart hledger
    refine coupled_procedureAt hsound hstart fun p _ => ?_
    exact coupled_body hsound ih (inners_behind h hloops hloops' ih p.loops.length) hstart hledger

theorem Slower.finish_le (h : e.Slower e' scenario) (hloops : e.platform.loops = .unroll)
    (hloops' : e'.platform.loops = .unroll) {entry start start' : Nat} (hstart : start ≤ start')
    {timing timing' : Timing} (hrun : (e.analyze entry start scenario).result = .ok timing)
    (hrun' : (e'.analyze entry start' scenario).result = .ok timing') :
    timing.finish ≤ timing'.finish := by
  obtain ⟨ledger, htrace⟩ := trace_of_analyze hrun
  obtain ⟨ledger', htrace'⟩ := trace_of_analyze hrun'
  rw [timing_of_trace htrace, timing_of_trace htrace']
  unfold trace at htrace htrace'
  rw [h.program] at htrace'
  exact (calls_behind h hloops hloops' _ hstart trivial _ _ htrace htrace').1

end Engine

/-! ### Starts and costs -/

theorem withInstrCost_eq_ok {platform platform' : Platform} {bcet wcet : Nat}
    (h : platform.withInstrCost bcet wcet = .ok platform') :
    platform'.hierarchy = platform.hierarchy ∧ platform'.bus = platform.bus ∧
      platform'.loops = platform.loops := by
  unfold Platform.withInstrCost at h
  split at h
  · obtain rfl := Except.ok.inj h
    exact ⟨rfl, rfl, rfl⟩
  · cases h

/-- With unrolled loops, the bound of a procedure is monotone in its start and in the cost of an
instruction: the procedure can be timed both times, unless numbers overflow or loops are nested too
deep, and then it does not finish earlier for starting later with slower instructions. -/
theorem finish_mono {program : Program} {analysis : Cache.Analysis} {platform platform' : Platform}
    {solver : Offset.Solver} {core entry start start' bcet wcet : Nat} {scenario : Scenario}
    {e e' : Engine} (hprogram : program.Accepted) (hentry : entry < program.procedures.length)
    (hloops : platform.loops = .unroll) (hcosts : platform.withInstrCost bcet wcet = .ok platform')
    (hcore : (Engine.mk program analysis platform solver 0).onCore core = .ok e)
    (hcore' : (Engine.mk program analysis platform' solver 0).onCore core = .ok e')
    (hstart : start ≤ start')
    (hinstr : platform.instrCost scenario ≤ platform'.instrCost scenario) :
    Ensures (Exhausts program) (e.analyze entry start scenario).result fun timing =>
      Ensures (Exhausts program) (e'.analyze entry start' scenario).result fun timing' =>
        timing.finish ≤ timing'.finish := by
  obtain ⟨rfl, hscheduled⟩ := Engine.onCore_eq_ok hcore
  obtain ⟨rfl, hscheduled'⟩ := Engine.onCore_eq_ok hcore'
  obtain ⟨hhierarchy, hbus, hsame⟩ := withInstrCost_eq_ok hcosts
  have hloops' : platform'.loops = .unroll := hsame.trans hloops
  have hunaided : ∀ {platform : Platform}, platform.loops = .unroll →
      (Engine.mk program analysis platform solver core).Unaided := by
    intro platform hloops hoffsets
    cases hloops.symm.trans hoffsets
  have hslower : (Engine.mk program analysis platform solver core).Slower
      ⟨program, analysis, platform', solver, core⟩ scenario :=
    ⟨rfl, rfl, hhierarchy, hbus, rfl, hinstr⟩
  refine (Engine.ensures_analyze hprogram hscheduled (hunaided hloops) hentry).imp ?_
  intro timing hrun _
  refine (Engine.ensures_analyze hprogram hscheduled' (hunaided hloops') hentry).imp ?_
  intro timing' hrun' _
  exact hslower.finish_le hloops hloops' hstart hrun hrun'

/-- A loop with two branches on the second one of two cores, three cycles later and with
instructions that take a cycle longer. It waits for its slots either way. -/
theorem finish_mono_forked : ∃ analysis platform e e' timing timing',
    (shortPlatform.hierarchy.analyze ⟨[forked]⟩ 0).result = .ok analysis ∧
    shortPlatform.withInstrCost 0 1 = .ok platform ∧
    (Engine.mk ⟨[forked]⟩ analysis shortPlatform .embedded 0).onCore 1 = .ok e ∧
    (Engine.mk ⟨[forked]⟩ analysis platform .embedded 0).onCore 1 = .ok e' ∧
    (e.analyze 0 0 .worst).result = .ok timing ∧ (e'.analyze 0 3 .worst).result = .ok timing' ∧
    (timing.finish, timing'.finish) = (36, 41) ∧ timing.finish ≤ timing'.finish := by
  have hcomputed : ((shortPlatform.hierarchy.analyze ⟨[forked]⟩ 0).result.toOption.bind fun a =>
      (shortPlatform.withInstrCost 0 1).toOption.bind fun platform =>
      ((Engine.mk ⟨[forked]⟩ a shortPlatform .embedded 0).onCore 1).toOption.bind fun e =>
      ((Engine.mk ⟨[forked]⟩ a platform .embedded 0).onCore 1).toOption.map fun e' =>
        (finish? (e.analyze 0 0 .worst).result, finish? (e'.analyze 0 3 .worst).result)) =
      some (some 36, some 41) := by
    decide +kernel
  obtain ⟨analysis, hanalysis, hrest⟩ := Option.bind_eq_some_iff.mp hcomputed
  obtain ⟨platform, hplatform, hrest⟩ := Option.bind_eq_some_iff.mp hrest
  obtain ⟨e, he, hrest⟩ := Option.bind_eq_some_iff.mp hrest
  obtain ⟨e', he', hfinishes⟩ := Option.map_eq_some_iff.mp hrest
  obtain ⟨hfinish, hfinish'⟩ := Prod.mk.inj hfinishes
  obtain ⟨timing, hrun, hfinish⟩ := finish?_eq_some hfinish
  obtain ⟨timing', hrun', hfinish'⟩ := finish?_eq_some hfinish'
  rw [toOption_eq_some] at hanalysis hplatform he he'
  refine ⟨analysis, platform, e, e', timing, timing', hanalysis, hplatform, he, he', hrun, hrun',
    ?_, ?_⟩
  · rw [hfinish, hfinish']
  · have hcost : shortPlatform.instrCost .worst ≤ platform.instrCost .worst := Nat.zero_le _
    exact ((finish_mono forked_accepted (Nat.succ_pos 0) rfl hplatform he he' (Nat.zero_le 3)
      hcost).result hrun).result hrun'

end CycleBounds.Bound
