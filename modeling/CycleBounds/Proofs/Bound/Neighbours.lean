import CycleBounds.Proofs.Bound.Lookups
import CycleBounds.Proofs.Cache.Neighbours

/-!
# The timing and the order of neighbours

A block starts after the last or the first of its predecessors, and of several that finish at the
same time after the one that is listed first. Which one this is does not matter unless a run is
relative: all stamps have the same transfer that matters for what follows, so only their times of
finish count, and these do not depend on the order of the list. Loops that are unrolled or followed
by their offsets are never run relatively, so programs that are alike have the same timing.

* `stampBefore_alike`: the stamp after which a block starts.
* `region_alike`, `unroll_alike`, `byOffsets_alike`: bodies and loops.
* `trace_alike`: the whole timing.
* `results_independent_of_declarations`: results for accepted programs do not depend on the order
  and the multiplicity in which edges are declared.
-/

namespace CycleBounds.Bound

open Code (Program Procedure Loop Instruction Draft)
open Traced (Matches)

/-! ### Stamps -/

/-- Stamps after which the same follows: they finish at the same time, and no transfer matters. -/
structure Stamp.Alike (s t : Stamp) : Prop where
  finish : s.finish = t.finish
  left : s.bus = .start
  right : t.bus = .start

/-- No stamp has a transfer that matters for what follows. -/
def Progress.Quiet (progress : Progress) : Prop :=
  ∀ b s, progress.times.get? b = some s → s.bus = .start

namespace Progress

variable {progress : Progress}

theorem quiet_empty (ledger : Ledger) : (Progress.mk ∅ ledger).Quiet := by
  intro b s h
  cases h

theorem Quiet.stamp (h : progress.Quiet) {s : Stamp} (hs : s.bus = .start) (relative : Bool)
    (procedure b : Nat) : (progress.stamp relative procedure b s).Quiet := by
  intro c t ht
  rw [Progress.stamp, Table.get?_insert] at ht
  split at ht
  · exact Option.some.inj ht ▸ hs
  · exact h c t ht

theorem Quiet.spread (h : progress.Quiet) (relative : Bool) (p : Procedure) (loop : Loop)
    (start finish : Nat) : (Engine.spread relative p loop start finish progress).Quiet := by
  unfold Engine.spread
  induction loop.blocks generalizing progress with
  | nil => exact h
  | cons b rest ih => exact ih (h.stamp rfl relative p.id b)

theorem Quiet.stampOf (h : progress.Quiet) {b : Nat} {s : Stamp}
    (hs : Engine.stampOf progress.times b = .ok s) : s.bus = .start := by
  unfold Engine.stampOf at hs
  split at hs
  · rename_i t ht
    exact Except.ok.inj hs ▸ h b t ht
  · cases hs

end Progress

namespace Engine

variable {e : Engine} {program' : Program} {p q : Procedure} {call call' : Call}
  {inner inner' : Inner} {scenario : Scenario} {context : Context} {progress : Progress}
  {s t : Stamp}

def withProgram (e : Engine) (program : Program) : Engine :=
  { e with program }

@[simp] theorem withProgram_platform : (e.withProgram program').platform = e.platform := rfl

/-- A block starts after stamps that are alike, in whatever order its predecessors are listed. -/
theorem stampBefore_alike (h : p.Alike q) (hquiet : progress.Quiet) (b : Nat) :
    Matched Stamp.Alike (stampBefore scenario p progress.times b)
      (stampBefore scenario q progress.times b) := by
  refine (Matched.entryAt h.blocks b).bind fun x y hxy => ?_
  have hbus : ∀ u ∈ x.preds.filterMap progress.times.get?, u.bus = .start := by
    intro u hu
    obtain ⟨a, -, ha⟩ := List.mem_filterMap.mp hu
    exact hquiet a u ha
  -- the predecessors are the same up to their order
  obtain ⟨hx, hy⟩ | ⟨u, rest, v, rest', hx, hy, hperm⟩ :=
    perm_nil_or_cons (hxy.preds.filterMap progress.times.get?)
  · rw [hx, hy, h.name]
    exact .error _
  · rw [hx] at hbus
    rw [hx, hy]
    obtain ⟨hmem, hall⟩ := scenario.foldl_exceeds Stamp.finish u rest
    obtain ⟨hmem', hall'⟩ := scenario.foldl_exceeds Stamp.finish v rest'
    rw [← hperm.mem_iff] at hmem'
    -- neither choice exceeds the other, so both finish at the same time
    refine .ok ⟨?_, hbus _ hmem, hbus _ hmem'⟩
    apply Scenario.Bounds.antisymm
    · exact Scenario.bounds_iff_not_exceeds.mpr (hall _ hmem')
    · exact Scenario.bounds_iff_not_exceeds.mpr (hall' _ (hperm.mem_iff.mp hmem))

/-! ### Blocks -/

/-- Outside of relative runs, a fetch leaves the transfer that matters as it is. -/
theorem fetch_bus {source : Source} {time : Nat} {bus : Bus.Tracker} {r : Nat × Bus.Tracker}
    (h : (e.fetch scenario false source time bus).result = .ok r) : r.2 = bus := by
  have htransfer : ∀ latency, (e.transfer scenario false time latency bus).result = .ok r →
      r.2 = bus := by
    intro latency h
    rw [transfer_absolute, Traced.result_bind] at h
    obtain ⟨d, -, h⟩ := bind_eq_ok.mp h
    rw [← Except.ok.inj h]
  cases source with
  | l1 => rw [← Except.ok.inj h]
  | l2 => exact htransfer _ h
  | memory => exact htransfer _ h

def CallsAlike (call call' : Call) : Prop :=
  ∀ scenario procedure start ledger,
    call scenario false procedure start ledger = call' scenario false procedure start ledger

def Account.Quiet (a : Account) : Prop :=
  a.bus = .start

/-- An instruction is charged alike in programs that differ in the order of neighbours. -/
theorem charge_alike (hprogram : e.program.Alike program') (h : p.Alike q)
    (hcalls : CallsAlike call call') {b start : Nat} {a : Account} (ha : a.Quiet)
    (i : Instruction × Source) :
    Matches (Same Account.Quiet) (e.charge call scenario false p b start a i)
      ((e.withProgram program').charge call' scenario false q b start a i) := by
  unfold charge
  refine .bind_same fun time _ => ?_
  refine .bind_same fun fetched hfetched => ?_
  -- the tracker of the bus is used in relative runs only
  have hbus : fetched.2 = .start := by
    rw [Traced.result_liftM_traced, mapError_eq_ok] at hfetched
    rw [fetch_bus hfetched, ha]
  refine .bind_same fun cost _ => ?_
  refine .bind_same fun cost _ => ?_
  cases i.1.callee with
  | none => exact .pure ⟨rfl, hbus⟩
  | some callee =>
    refine .bind_same fun time _ => ?_
    dsimp only
    rw [hcalls scenario callee time a.ledger, h.name]
    refine .bind_same fun timing _ => ?_
    refine .bind_same fun cost _ => ?_
    refine (Matches.lift_fault (Matched.entryAt hprogram callee)).bind fun r r' hr => ?_
    rw [hr.name]
    refine .bind_same fun _ _ => ?_
    exact .pure ⟨rfl, hbus⟩

/-- So is a block, as its instructions are the same. -/
theorem block_alike (hprogram : e.program.Alike program') (h : p.Alike q)
    (hcalls : CallsAlike call call') (b start : Nat) (ledger : Ledger) :
    Matches (Same fun r => r.1.bus = .start)
      (e.block call scenario false p b context start .start ledger)
      ((e.withProgram program').block call' scenario false q b context start .start ledger) := by
  refine (Matches.lift_fault (Matched.entryAt h.blocks b)).bind fun x y hxy => ?_
  dsimp only
  rw [hxy.instructions, h.id]
  have hcharge : Matches (Same Account.Quiet)
      ((e.sources scenario ⟨p.id, b, context⟩ x.instructions).foldlM
        (e.charge call scenario false p b start) ⟨0, .start, ledger⟩)
      (((e.withProgram program').sources scenario ⟨p.id, b, context⟩ x.instructions).foldlM
        ((e.withProgram program').charge call' scenario false q b start) ⟨0, .start, ledger⟩) := by
    apply Matches.foldlM
    · rintro i - a _ ⟨rfl, ha⟩
      exact charge_alike hprogram h hcalls ha i
    · exact ⟨rfl, rfl⟩
  refine hcharge.bind ?_
  rintro a _ ⟨rfl, ha⟩
  rw [h.name]
  refine .bind_same fun _ _ => ?_
  refine .bind_same fun finish _ => ?_
  exact .pure ⟨rfl, ha⟩

/-! ### Bodies -/

def InnersAlike (inner inner' : Inner) : Prop :=
  ∀ scenario loop context s t progress, s.Alike t → progress.Quiet →
    Matches (Same Progress.Quiet) (inner scenario false loop context s progress)
      (inner' scenario false loop context t progress)

/-- So is what a block of an order stands for. -/
theorem visit_alike (hprogram : e.program.Alike program') (h : p.Alike q)
    (hcalls : CallsAlike call call') (hinners : InnersAlike inner inner') (current : Option Nat)
    (b : Nat) (hst : s.Alike t) (hquiet : progress.Quiet) :
    Matches (Same Progress.Quiet) (e.visit call inner scenario false p current context b s progress)
      ((e.withProgram program').visit call' inner' scenario false q current context b t
        progress) := by
  refine (Matches.lift_fault (Matched.entryAt h.blocks b)).bind fun x y hxy => ?_
  rw [hxy.headerOf]
  split
  · rename_i l _
    exact hinners scenario l context s t progress hst hquiet
  · rw [hst.left, hst.right, hst.finish, h.id]
    refine (block_alike hprogram h hcalls b t.finish progress.ledger).bind ?_
    rintro a _ ⟨rfl, ha⟩
    refine .pure ⟨rfl, ?_⟩
    apply Progress.Quiet.stamp _ ha
    exact hquiet

/-- So is a body, from stamps that are alike. -/
theorem region_alike (hprogram : e.program.Alike program') (h : p.Alike q)
    (hcalls : CallsAlike call call') (hinners : InnersAlike inner inner') (current : Option Nat)
    (order : List Nat) (hst : s.Alike t) (hquiet : progress.Quiet) :
    Matches (Same Progress.Quiet)
      (e.region call inner scenario false p current context order s progress)
      ((e.withProgram program').region call' inner' scenario false q current context order t
        progress) := by
  cases order with
  | nil => exact .pure ⟨rfl, hquiet⟩
  | cons b rest =>
    refine (visit_alike hprogram h hcalls hinners current b hst hquiet).bind ?_
    intro progress progress' hsame
    refine Matches.foldlM ?_ hsame
    rintro b - progress _ ⟨rfl, hquiet⟩
    refine (Matches.lift_fault (stampBefore_alike h hquiet b)).bind fun s t hst => ?_
    exact visit_alike hprogram h hcalls hinners current b hst hquiet

/-! ### Loops -/

def BodiesAlike (body body' : Body) : Prop :=
  ∀ scenario context s t progress, s.Alike t → progress.Quiet →
    Matches (Same Progress.Quiet) (body scenario false context s progress)
      (body' scenario false context t progress)

section Loops

variable {body body' : Body} {id : Nat} {loop : Loop}

/-- What an iteration leaves: stamps that are alike, and the same progress. -/
def Carried (a b : Stamp × Progress) : Prop :=
  a.1.Alike b.1 ∧ Same Progress.Quiet a.2 b.2

/-- One iteration leads from stamps that are alike to stamps that are alike. -/
theorem iteration_alike (h : p.Alike q) (hbodies : BodiesAlike body body') (it : Iteration)
    (hst : s.Alike t) (hquiet : progress.Quiet) :
    Matches Carried (iteration body scenario false p id loop context it (s, progress))
      (iteration body' scenario false q id loop context it (t, progress)) := by
  refine .bind_same fun context _ => ?_
  refine (hbodies scenario context s t progress hst hquiet).bind ?_
  rintro progress _ ⟨rfl, hquiet⟩
  refine .bind_same fun sink hsink => ?_
  have hbus : sink.bus = .start := by
    rw [Traced.result_liftM_except, mapError_eq_ok] at hsink
    exact hquiet.stampOf hsink
  rw [hst.finish, h.name]
  refine .bind_same fun _ _ => ?_
  exact .pure ⟨⟨rfl, hbus, hbus⟩, rfl, hquiet⟩

/-- An unrolled loop does not depend on the order of neighbours. -/
theorem unroll_alike (h : p.Alike q) (hbodies : BodiesAlike body body') (hst : s.Alike t)
    (hquiet : progress.Quiet) :
    Matches (Same Progress.Quiet) (unroll body scenario false p id loop context s progress)
      (unroll body' scenario false q id loop context t progress) := by
  unfold unroll
  refine .bind_same fun n _ => ?_
  refine (iteration_alike h hbodies .first hst hquiet).bind fun a b hab => ?_
  refine (Matches.iterate ?_ (n - 1) hab).bind ?_
  · rintro ⟨s, progress⟩ ⟨t, _⟩ ⟨hst, rfl, hquiet⟩
    exact iteration_alike h hbodies .steady hst hquiet
  · rintro ⟨last, progress⟩ ⟨last', _⟩ ⟨hlast, rfl, hquiet⟩
    dsimp only at hlast hquiet ⊢
    -- the last stamps may start at different times, but the loop is stamped from its entry on
    rw [h.name, h.id, hst.finish, hlast.finish, hlast.left, hlast.right]
    refine .bind_same fun _ _ => ?_
    exact .pure ⟨rfl, hquiet.stamp rfl _ _ _⟩

/-- A steady iteration costs the same from every offset. -/
theorem steadyCost_alike (hbodies : BodiesAlike body body') (scenario : Scenario) :
    steadyCost body scenario loop context = steadyCost body' scenario loop context := by
  funext offset
  apply Matches.eq
  refine .bind_same fun context _ => ?_
  have hmoment : (Stamp.moment offset).Alike (.moment offset) := ⟨rfl, rfl, rfl⟩
  refine (hbodies scenario context _ _ _ hmoment (Progress.quiet_empty .empty)).bind ?_
  rintro progress _ ⟨rfl, -⟩
  exact .refl fun _ _ => rfl

theorem spread_alike (h : p.Alike q) (relative : Bool) (loop : Loop) :
    spread relative q loop = spread relative p loop := by
  funext start finish progress
  rw [spread, spread, h.id]

/-- The same offsets are explored, so the same graph is solved. -/
theorem byOffsets_alike (h : p.Alike q) (hbodies : BodiesAlike body body')
    (schedule : Bus.Schedule) (hst : s.Alike t) (hquiet : progress.Quiet) :
    Matches (Same Progress.Quiet)
      (e.byOffsets body schedule scenario false p id loop context s progress)
      ((e.withProgram program').byOffsets body' schedule scenario false q id loop context t
        progress) := by
  unfold byOffsets
  rw [explore_congr_cost (steadyCost_alike hbodies)]
  refine .bind_same fun inside _ => ?_
  refine (hbodies scenario inside s t progress hst hquiet).bind ?_
  rintro progress _ ⟨rfl, hquiet⟩
  simp only [spread_alike h, h.id, h.name, hst.finish]
  -- both sides are the same by now, so it is left that the stamps stay quiet
  refine .bind_same fun sink _ => ?_
  refine .bind_same fun n _ => ?_
  refine .bind_same fun steady _ => ?_
  split
  · exact .pure ⟨rfl, hquiet.spread _ _ _ _ _⟩
  · refine .bind_same fun g _ => ?_
    refine .bind_same fun g _ => ?_
    refine .bind_same fun g _ => ?_
    refine .bind_same fun _ _ => ?_
    refine .bind_same fun solution _ => ?_
    refine .bind_same fun _ _ => ?_
    refine .bind_same fun finish _ => ?_
    exact .pure ⟨rfl, hquiet.spread _ _ _ _ _⟩

theorem loop_alike (h : p.Alike q) (hbodies : BodiesAlike body body')
    (hloops : e.platform.loops ≠ .summarize) (hst : s.Alike t) (hquiet : progress.Quiet) :
    Matches (Same Progress.Quiet) (e.loop body scenario false p id loop context s progress)
      ((e.withProgram program').loop body' scenario false q id loop context t progress) := by
  unfold Engine.loop
  rw [withProgram_platform]
  split
  · rename_i hsummarize
    exact absurd hsummarize hloops
  · exact byOffsets_alike h hbodies _ hst hquiet
  · exact unroll_alike h hbodies hst hquiet

end Loops

/-- Loops do the same in procedures that are alike, if none is summarised. -/
theorem innersAlike_loopAt (hprogram : e.program.Alike program') (h : p.Alike q)
    (hcalls : CallsAlike call call') (hloops : e.platform.loops ≠ .summarize) (n : Nat) :
    InnersAlike (e.loopAt call p n) ((e.withProgram program').loopAt call' q n) := by
  induction n with
  | zero => exact fun _ _ _ _ _ _ _ _ => .refl (by rintro _ ⟨⟩)
  | succ n ih =>
    intro scenario id context s t progress hst hquiet
    simp only [loopAt, Procedure.loop, h.loops]
    refine .bind_same fun l _ => ?_
    split
    · rw [h.name, spread_alike h, hst.finish]
      refine .bind_same fun _ _ => ?_
      exact .pure ⟨rfl, hquiet.spread _ _ _ _ _⟩
    · apply loop_alike h _ hloops hst hquiet
      intro scenario context s t progress hst hquiet
      exact region_alike hprogram h hcalls ih (some id) l.order hst hquiet

/-! ### Calls -/

/-- Calls do the same, however long the chain of calls may get. -/
theorem callsAlike_procedureAt (hprogram : e.program.Alike program')
    (hloops : e.platform.loops ≠ .summarize) (n : Nat) :
    CallsAlike (e.procedureAt n) ((e.withProgram program').procedureAt n) := by
  induction n with
  | zero => exact fun _ _ _ _ => rfl
  | succ n ih =>
    intro scenario id start ledger
    apply Matches.eq
    refine (Matches.lift_fault (Matched.entryAt hprogram id)).bind fun p q h => ?_
    dsimp only
    rw [h.loops, h.order]
    -- a call starts anew, with no stamps and no transfer
    have hinners := innersAlike_loopAt hprogram h ih hloops p.loops.length
    have hmoment : (Stamp.moment start).Alike (.moment start) := ⟨rfl, rfl, rfl⟩
    refine (region_alike hprogram h ih hinners none p.order hmoment
      (Progress.quiet_empty ledger)).bind ?_
    rintro progress _ ⟨rfl, -⟩
    simp only [exitTime, h.sinks, h.name]
    exact .refl fun _ _ => rfl

/-- Programs that are alike have the same timing, with the same reports, if no loop is
summarised. -/
theorem trace_alike (hprogram : e.program.Alike program')
    (hloops : e.platform.loops ≠ .summarize) (entry start : Nat) (scenario : Scenario) :
    e.trace entry start scenario = (e.withProgram program').trace entry start scenario := by
  have hlength : e.program.procedures.length = program'.procedures.length := hprogram.length_eq
  unfold trace
  rw [callsAlike_procedureAt hprogram hloops, hlength]
  rfl

end Engine

/-! ### Declarations -/

/-- Results depend on the edges of a program, not on the order and the multiplicity in which they
are declared: the analysis of a level has the same classes, footprint and exit state, and the timing
has the same bound, stamps and offset graphs if loops are unrolled or followed by their offsets. -/
theorem results_independent_of_declarations {program program' : Program}
    {drafts drafts' : List Draft} (h : program.MadeOf drafts) (h' : program'.MadeOf drafts')
    (hdrafts : List.Forall₂ Draft.Redeclares drafts drafts') :
    (∀ entry config upper, Cache.Level.analyze program entry config upper =
      Cache.Level.analyze program' entry config upper) ∧
    ∀ analysis platform solver core entry start scenario,
      platform.loops ≠ .summarize →
      (Engine.mk program analysis platform solver core).trace entry start scenario =
        (Engine.mk program' analysis platform solver core).trace entry start scenario := by
  have halike := h.alike h' hdrafts
  constructor
  · exact Cache.Level.analyze_alike halike
  · intro analysis platform solver core entry start scenario hloops
    exact Engine.trace_alike halike hloops entry start scenario

/-- The loop with two branches, its edges declared from the end and some of them twice. -/
def backwardDraft : Draft :=
  { forkedDraft with edges := [(3, 4), (2, 3), (1, 3), (2, 3), (0, 2), (0, 1), (3, 4)] }

def backward : Procedure :=
  { forked with
    blocks := [⟨[], [], [2, 1], some 0, some 0⟩, ⟨[⟨0, none⟩], [0], [3], none, some 0⟩,
      ⟨[⟨16, none⟩, ⟨32, none⟩], [0], [3], none, some 0⟩,
      ⟨[⟨48, none⟩], [2, 1], [4], none, some 0⟩, ⟨[], [3], [], none, none⟩] }

theorem redeclares_backward : forkedDraft.Redeclares backwardDraft := by
  refine ⟨rfl, rfl, rfl, rfl, fun edge => ?_⟩
  simp only [backwardDraft, forkedDraft, List.mem_cons, List.not_mem_nil, or_false]
  tauto

/-- On the second one of two cores, the loop being followed by its offsets. -/
theorem results_independent_backward :
    (Program.mk [forked]).MadeOf [forkedDraft] ∧ (Program.mk [backward]).MadeOf [backwardDraft] ∧
    forkedDraft.Redeclares backwardDraft ∧ forked ≠ backward ∧
    Cache.Level.analyze ⟨[forked]⟩ 0 shortPlatform.hierarchy.l1 none =
      Cache.Level.analyze ⟨[backward]⟩ 0 shortPlatform.hierarchy.l1 none ∧
    ∀ analysis, (Engine.mk ⟨[forked]⟩ analysis (shortPlatform.withLoops .offsets) .embedded
      1).trace 0 5 .worst =
      (Engine.mk ⟨[backward]⟩ analysis (shortPlatform.withLoops .offsets) .embedded
        1).trace 0 5 .worst := by
  have hforked : (Program.mk [forked]).MadeOf [forkedDraft] := ⟨[forked], rfl, rfl⟩
  have hbackward : (Program.mk [backward]).MadeOf [backwardDraft] := ⟨[backward], rfl, rfl⟩
  obtain ⟨hanalyze, htrace⟩ := results_independent_of_declarations hforked hbackward
    (.cons redeclares_backward .nil)
  refine ⟨hforked, hbackward, redeclares_backward, by decide, hanalyze _ _ _, fun analysis => ?_⟩
  exact htrace analysis _ _ _ _ _ _ (by rintro ⟨⟩)

end CycleBounds.Bound
