import CycleBounds.Proofs.Bound.Rounds
import CycleBounds.Proofs.Bound.Untimed
import CycleBounds.Proofs.Cache.Coverage
import CycleBounds.Proofs.Cache.Progress

/-!
# The classes that the timing looks up

A block is timed by the classes that an analysis has recorded for it, and a fetch without a record
counts as unknown. This never happens: the timing of an entry looks up the places from the entry
only, and the analysis has recorded these.

* `Analysis.AgreesOn`: two analyses have the same records at some places.
* `trace_congr`: analyses that agree on the places from an entry give the same timing with the same
  reports, whatever they have elsewhere. The proof follows the timing from blocks (`block_congr`) to
  bodies (`region_congr`), loops in every treatment (`loop_congr`, `sameInners_loopAt`) and calls
  (`sameCalls_procedureAt`).
* `lookups_recorded`: an analysis of all levels has recorded what the timing looks up.
-/

namespace CycleBounds

/-! ### Computations that agree -/

namespace Traced

variable {ε α β σ : Type}

/-- What follows a computation that may fail depends on its result only. -/
theorem liftM_bind_congr {x : Except Fault α} {f g : α → Traced (Failure ε) β}
    (h : ∀ a, x = .ok a → f a = g a) :
    (liftM x >>= f : Traced (Failure ε) β) = liftM x >>= g := by
  cases x with
  | error cause => rfl
  | ok a =>
    show Traced.bind ⟨.ok a, []⟩ f = Traced.bind ⟨.ok a, []⟩ g
    simp only [Traced.bind, h a rfl]

theorem foldlM_congr {f g : σ → α → Traced ε σ} {xs : List α} {s : σ}
    (h : ∀ x ∈ xs, ∀ s, f s x = g s x) : xs.foldlM f s = xs.foldlM g s := by
  induction xs generalizing s with
  | nil => rfl
  | cons x xs ih =>
    rw [List.foldlM_cons, List.foldlM_cons, h x List.mem_cons_self]
    apply bind_congr
    intro t
    exact ih fun y hy => h y (List.mem_cons_of_mem x hy)

end Traced

namespace Cache

/-- Two classifications have the same records at some places. -/
def Classification.AgreesOn (k k' : Classification) (S : Set Place) : Prop :=
  ∀ place ∈ S, k.get? place = k'.get? place

structure Analysis.AgreesOn (a a' : Analysis) (S : Set Place) : Prop where
  l1 : a.l1.AgreesOn a'.l1 S
  l2 : Option.Rel (fun k k' => k.AgreesOn k' S) a.l2 a'.l2

theorem Classification.AgreesOn.access_eq {k k' : Classification} {S : Set Place} {place : Place}
    (h : k.AgreesOn k' S) (hplace : place ∈ S) (n : Nat) :
    k.access? place n = k'.access? place n := by
  rw [Classification.access?, h place hplace, Classification.access?]

end Cache

namespace Bound.Engine

open Code (Program Procedure Loop Instruction)
open Cache (Analysis Place)
open Run (places)

variable {e : Engine} {a : Analysis} {entry : Nat} {call call' : Call} {inner inner' : Inner}
  {scenario : Scenario} {relative : Bool} {p : Procedure} {context : Context} {region : Option Nat}

def withAnalysis (e : Engine) (a : Analysis) : Engine :=
  { e with analysis := a }

theorem withAnalysis_platform : (e.withAnalysis a).platform = e.platform := rfl

/-! ### Blocks -/

/-- A fetch is served alike if the analyses have the same records of its place. -/
theorem sourceAt_congr {S : Set Place} {place : Place} (h : e.analysis.AgreesOn a S)
    (hplace : place ∈ S) (n : Nat) :
    e.sourceAt scenario place n = (e.withAnalysis a).sourceAt scenario place n := by
  have hl₂ : e.analysis.l2.map (fun k => (k.access? place n).getD .unknown) =
      a.l2.map fun k => (k.access? place n).getD .unknown := by
    have hrel := h.l2
    generalize e.analysis.l2 = l₂, a.l2 = l₂' at hrel ⊢
    cases hrel with
    | none => rfl
    | some hk => rw [Option.map_some, hk.access_eq hplace, Option.map_some]
  rw [sourceAt, h.l1.access_eq hplace, hl₂]
  rfl

theorem sources_congr {S : Set Place} {place : Place} (h : e.analysis.AgreesOn a S)
    (hplace : place ∈ S) (instructions : List Instruction) :
    e.sources scenario place instructions =
      (e.withAnalysis a).sources scenario place instructions := by
  apply List.ext_getElem?
  intro n
  rw [sources_getElem?, sources_getElem?, sourceAt_congr h hplace]

theorem fst_mem_of_mem_sources {place : Place} {instructions : List Instruction}
    {i : Instruction × Source} (h : i ∈ e.sources scenario place instructions) :
    i.1 ∈ instructions := by
  obtain ⟨n, hn⟩ := List.getElem?_of_mem h
  rw [sources_getElem?, Option.map_eq_some_iff] at hn
  obtain ⟨instruction, hinstruction, rfl⟩ := hn
  exact List.mem_of_getElem? hinstruction

/-- Calls do the same for all procedures that are included from an entry. -/
def SameCalls (program : Program) (entry : Nat) (call call' : Call) : Prop :=
  ∀ q, program.Included entry q → ∀ scenario relative,
    call scenario relative q = call' scenario relative q

/-- An instruction is charged alike if its call does the same. -/
theorem charge_congr {b start : Nat} {account : Account} {i : Instruction × Source}
    (hcall : ∀ q, i.1.callee = some q →
      call scenario relative q = call' scenario relative q) :
    e.charge call scenario relative p b start account i =
      (e.withAnalysis a).charge call' scenario relative p b start account i := by
  unfold charge
  refine bind_congr fun time => ?_
  refine bind_congr fun fetched => ?_
  refine bind_congr fun cost => ?_
  refine bind_congr fun cost => ?_
  cases hc : i.1.callee with
  | none => rfl
  | some q =>
    refine bind_congr fun time => ?_
    rw [hcall q hc]
    rfl

/-- A block that runs is timed alike, as its own place is one of those that agree. -/
theorem block_congr {b : Nat} (hagree : e.analysis.AgreesOn a (places e.program entry))
    (hcalls : SameCalls e.program entry call call') (hp : e.program.procedures[p.id]? = some p)
    (hincluded : e.program.Included entry p.id) (hruns : p.Runs b)
    (hdepth : p.depth b = .ok context.depth) :
    e.block call scenario relative p b context =
      (e.withAnalysis a).block call' scenario relative p b context := by
  funext start bus ledger
  unfold block
  apply Traced.liftM_bind_congr
  intro block hblock
  rw [Procedure.block, entryAt_eq_ok] at hblock
  have hplace : Place.mk p.id b context ∈ places e.program entry :=
    ⟨hincluded, p, hp, hruns, hdepth⟩
  -- the callees of the block are included as well, so their calls are the same
  have hcharge : ∀ i ∈ e.sources scenario ⟨p.id, b, context⟩ block.instructions, ∀ account,
      e.charge call scenario relative p b start account i =
        (e.withAnalysis a).charge call' scenario relative p b start account i := by
    intro i hi account
    apply charge_congr
    intro q hq
    have hinstruction := fst_mem_of_mem_sources hi
    exact hcalls q (hincluded.call ⟨p, b, block, i.1, hp, hruns, hblock, hinstruction, hq⟩) _ _
  show List.foldlM _ _ _ >>= _ = List.foldlM _ _ _ >>= _
  rw [Traced.foldlM_congr hcharge, sources_congr hagree hplace]

/-! ### Bodies -/

def SameInners (p : Procedure) (region : Option Nat) (context : Context) (inner inner' : Inner) :
    Prop :=
  ∀ r l, r ∈ p.orderOf region → p.headerOf? r = some l → some l ≠ region →
    ∀ scenario relative, inner scenario relative l context = inner' scenario relative l context

/-- Blocks of a body are visited alike, and so are the inner loops that they stand for. -/
theorem visit_congr {r : Nat} (hprogram : e.program.Accepted)
    (hagree : e.analysis.AgreesOn a (places e.program entry))
    (hcalls : SameCalls e.program entry call call') (hp : e.program.procedures[p.id]? = some p)
    (hincluded : e.program.Included entry p.id) (hlive : p.Live region context)
    (hinner : SameInners p region context inner inner') (hr : r ∈ p.orderOf region) :
    e.visit call inner scenario relative p region context r =
      (e.withAnalysis a).visit call' inner' scenario relative p region context r := by
  funext before progress
  unfold visit
  apply Traced.liftM_bind_congr
  intro block hblock
  have hcases := Procedure.headerOf?_cases (entryAt_eq_ok.mp hblock) region
  cases hfilter : block.headerOf.filter fun l => some l ≠ region with
  | some l =>
    rw [hfilter] at hcases
    show inner scenario relative l context before progress = _
    rw [hinner r l hr hcases.1 hcases.2]
  | none =>
    rw [hfilter] at hcases
    obtain ⟨hruns, hdepth⟩ := hlive.block (hprogram.shaped hp) (hprogram.wellFormed hp) hr hcases
    show e.block call _ _ p r context _ _ _ >>= _ = _
    rw [block_congr hagree hcalls hp hincluded hruns hdepth]

/-- A body is timed alike if its inner loops are. -/
theorem region_congr (hprogram : e.program.Accepted)
    (hagree : e.analysis.AgreesOn a (places e.program entry))
    (hcalls : SameCalls e.program entry call call') (hp : e.program.procedures[p.id]? = some p)
    (hincluded : e.program.Included entry p.id) (hlive : p.Live region context)
    (hinner : SameInners p region context inner inner') :
    e.region call inner scenario relative p region context (p.orderOf region) =
      (e.withAnalysis a).region call' inner' scenario relative p region context
        (p.orderOf region) := by
  have hvisit : ∀ r ∈ p.orderOf region,
      e.visit call inner scenario relative p region context r =
        (e.withAnalysis a).visit call' inner' scenario relative p region context r := by
    intro r hr
    exact visit_congr hprogram hagree hcalls hp hincluded hlive hinner hr
  funext before progress
  cases horder : p.orderOf region with
  | nil => rfl
  | cons r rest =>
    rw [horder] at hvisit
    rw [Engine.region, Engine.region, hvisit r List.mem_cons_self]
    refine bind_congr fun progress => ?_
    apply Traced.foldlM_congr
    intro x hx progress
    rw [hvisit x (List.mem_cons_of_mem r hx)]

/-! ### Loops -/

def SameBodies (context : Context) (body body' : Body) : Prop :=
  ∀ it scenario relative,
    body scenario relative (context.nest it) = body' scenario relative (context.nest it)

section Loops

variable {body body' : Body} {id : Nat} {loop : Loop}

/-- Inside of a loop, only the contexts of its iterations matter. -/
theorem enter_congr {α : Type} {it : Iteration} {f g : Context → Timed α}
    (h : f (context.nest it) = g (context.nest it)) :
    (liftM (context.enter it) >>= f : Timed α) = liftM (context.enter it) >>= g := by
  apply Traced.liftM_bind_congr
  intro inside hinside
  rw [Context.enter_eq_ok hinside, h]

theorem iteration_congr (hbody : SameBodies context body body') (it : Iteration) :
    iteration body scenario relative p id loop context it =
      iteration body' scenario relative p id loop context it := by
  funext s
  apply enter_congr
  rw [hbody it]

theorem unroll_congr (hbody : SameBodies context body body') :
    unroll body scenario relative p id loop context =
      unroll body' scenario relative p id loop context := by
  funext before progress
  unfold unroll
  rw [iteration_congr hbody, iteration_congr hbody]

theorem relativeCost_congr (hbody : SameBodies context body body') (it : Iteration) :
    relativeCost body scenario loop (context.nest it) =
      relativeCost body' scenario loop (context.nest it) := by
  funext ledger
  unfold relativeCost
  rw [hbody it]

/-- Bodies that do the same in both kinds of iterations have the same summary. -/
theorem summary_congr (hbody : SameBodies context body body') :
    summary body scenario p loop context = summary body' scenario p loop context := by
  funext ledger
  unfold summary
  dsimp only
  split
  · rfl
  · apply enter_congr
    rw [relativeCost_congr hbody]
    refine bind_congr fun first => ?_
    apply enter_congr
    rw [relativeCost_congr hbody]

theorem summarize_congr (hbody : SameBodies context body body') :
    e.summarize body scenario relative p id loop context =
      (e.withAnalysis a).summarize body' scenario relative p id loop context := by
  funext start progress
  unfold summarize
  rw [summary_congr hbody, withAnalysis_platform]

theorem steadyCost_congr (hbody : SameBodies context body body') :
    steadyCost body scenario loop context = steadyCost body' scenario loop context := by
  funext offset
  apply enter_congr
  rw [hbody]

/-- Steady iterations that cost the same lead to the same offsets. -/
theorem explore_congr_cost
    (hcost : ∀ scenario,
      steadyCost body scenario loop context = steadyCost body' scenario loop context)
    (fuel : Nat) : explore body loop context fuel = explore body' loop context fuel := by
  funext g work
  induction fuel generalizing g work with
  | zero => rfl
  | succ fuel ih =>
    cases work with
    | nil => rfl
    | cons node work =>
      rw [explore, explore, hcost, hcost]
      refine bind_congr fun node => bind_congr fun best => bind_congr fun worst => ?_
      refine bind_congr fun g => bind_congr fun ends => bind_congr fun next => ?_
      exact ih next.1 next.2

theorem explore_congr (hbody : SameBodies context body body') (fuel : Nat) :
    explore body loop context fuel = explore body' loop context fuel :=
  explore_congr_cost (fun _ => steadyCost_congr hbody) fuel

theorem byOffsets_congr (hbody : SameBodies context body body') (schedule : Bus.Schedule) :
    e.byOffsets body schedule scenario relative p id loop context =
      (e.withAnalysis a).byOffsets body' schedule scenario relative p id loop context := by
  funext before progress
  unfold byOffsets
  apply enter_congr
  rw [hbody, explore_congr hbody]
  rfl

theorem loop_congr (hbody : SameBodies context body body') :
    e.loop body scenario relative p id loop context =
      (e.withAnalysis a).loop body' scenario relative p id loop context := by
  funext before progress
  unfold Engine.loop
  rw [withAnalysis_platform]
  split
  · rw [summarize_congr hbody]
  · rw [byOffsets_congr hbody]
  · rw [unroll_congr hbody]

end Loops

/-- Loops look up the places of their bodies in both kinds of iterations, if they are not passed
over. -/
theorem sameInners_loopAt (hprogram : e.program.Accepted)
    (hagree : e.analysis.AgreesOn a (places e.program entry))
    (hcalls : SameCalls e.program entry call call') (hp : e.program.procedures[p.id]? = some p)
    (hincluded : e.program.Included entry p.id) (n : Nat) (hlive : p.Live region context) :
    SameInners p region context (e.loopAt call p n) ((e.withAnalysis a).loopAt call' p n) := by
  induction n generalizing region context with
  | zero =>
    intro r l _ _ _ scenario relative
    rfl
  | succ n ih =>
    intro r l hr hh hne scenario relative
    funext before progress
    apply Traced.liftM_bind_congr
    intro loop hloop
    have hl : p.loops[l]? = some loop := entryAt_eq_ok.mp hloop
    by_cases hzero : loop.bound = 0
    · rw [if_pos hzero, if_pos hzero]
    · rw [if_neg hzero, if_neg hzero]
      -- the places of the body are live in the contexts of both iterations
      have hbody : SameBodies context (e.bodyOf call p n l loop)
          ((e.withAnalysis a).bodyOf call' p n l loop) := by
        intro it scenario relative
        have hinner := hlive.inner (hprogram.shaped hp) (hprogram.wellFormed hp) hr hh hne hl
          (Nat.pos_of_ne_zero hzero) it
        rw [bodyOf, bodyOf, ← Procedure.orderOf_loop hl]
        exact region_congr hprogram hagree hcalls hp hincluded hinner (ih hinner)
      exact congrFun (congrFun (loop_congr hbody) before) progress

/-! ### Procedures -/

/-- Calls of included procedures do the same, however long the chain of calls may get. -/
theorem sameCalls_procedureAt (hprogram : e.program.Accepted)
    (hagree : e.analysis.AgreesOn a (places e.program entry)) (n : Nat) :
    SameCalls e.program entry (e.procedureAt n) ((e.withAnalysis a).procedureAt n) := by
  induction n with
  | zero =>
    intro q _ scenario relative
    rfl
  | succ n ih =>
    intro q hincluded scenario relative
    funext start ledger
    apply Traced.liftM_bind_congr
    intro p hp
    have hq : e.program.procedures[q]? = some p := entryAt_eq_ok.mp hp
    obtain rfl := hprogram.id_eq hq
    have hlive : p.Live none .root := Procedure.live_root
    have hinner := sameInners_loopAt hprogram hagree ih hq hincluded p.loops.length hlive
    have hregion : e.region (e.procedureAt n) _ scenario false p none .root p.order = _ :=
      region_congr hprogram hagree ih hq hincluded hlive hinner
    show e.region _ _ _ _ _ _ _ _ _ _ >>= _ = _
    rw [hregion]
    rfl

/-- The timing of an entry looks up the places from the entry only: analyses that agree on them give
the same times with the same reports. -/
theorem trace_congr (hprogram : e.program.Accepted)
    (hagree : e.analysis.AgreesOn a (places e.program entry)) (start : Nat)
    (scenario : Scenario) :
    e.trace entry start scenario = (e.withAnalysis a).trace entry start scenario := by
  have hcalls := sameCalls_procedureAt hprogram hagree (e.program.procedures.length + 1)
  exact congrFun (congrFun (hcalls entry .entry scenario false) start) .empty

end Bound.Engine

namespace Bound

open Code (Program)
open Cache (Analysis)
open Run (places)

variable {program : Program} {entry : Nat}

/-- The timing never misses a record. All levels have recorded the places from the entry and no
others, with one fetch per instruction, in order and with its line. The footprint has the lines of
the fetches at the last level, under their sets, unless they are said to hit above. However loops
are treated, the timing from the entry depends on nothing else: no other record can change its times
or its reports, so none is ever looked up. -/
theorem lookups_recorded (hprogram : program.Accepted)
    (hnests : program.NestsAtMost Context.maxDepth) (hentry : entry < program.procedures.length)
    (levels : Cache.Hierarchy) :
    Ensures (· = .overflow) (levels.analyze program entry).result fun analysis =>
      analysis.l1.Complete levels.l1 program entry ∧
      Option.Rel (fun k c => k.Complete c program entry) analysis.l2 levels.l2 ∧
      analysis.footprint.Lists (analysis.l2.getD analysis.l1) ∧
      ∀ (platform : Platform) (solver : Offset.Solver) (core : Nat) (other : Analysis),
        analysis.AgreesOn other (places program entry) → ∀ start scenario,
        (Engine.mk program analysis platform solver core).trace entry start scenario =
          (Engine.mk program other platform solver core).trace entry start scenario := by
  refine (levels.ensures_analyze hprogram hnests hentry).imp ?_
  intro analysis hanalysis _
  obtain ⟨hl₁, hl₂, hfootprint⟩ := Cache.Hierarchy.analyze_complete hprogram hanalysis
  refine ⟨hl₁, hl₂, hfootprint, ?_⟩
  intro platform solver core other hagree start scenario
  have htrace := @Engine.trace_congr ⟨program, analysis, platform, solver, core⟩ other
  exact htrace hprogram hagree start scenario

/-- A block in a loop of a loop is recorded in the four contexts of its depth, and so is the
procedure that is called there. -/
theorem lookups_recorded_nested :
    ∃ a, (Cache.smallHierarchy.analyze ⟨[nested, called]⟩ 0).result = .ok a ∧
      (∀ context, (a.l1.get? ⟨0, 1, context⟩).isSome = true ↔ context.depth = 2) ∧
      (a.l1.get? ⟨1, 0, .root⟩).isSome = true ∧
      ∀ (platform : Platform) (other : Analysis),
        a.AgreesOn other (places ⟨[nested, called]⟩ 0) → ∀ start scenario,
        (Engine.mk ⟨[nested, called]⟩ a platform .embedded 0).trace 0 start scenario =
          (Engine.mk ⟨[nested, called]⟩ other platform .embedded 0).trace 0 start scenario := by
  have hnests : (Program.mk [nested, called]).NestsAtMost Context.maxDepth := by
    intro p hp b
    refine Nat.le_trans List.countP_le_length ?_
    rcases List.mem_pair.mp hp with rfl | rfl <;> decide
  have hcomputed :
      (Cache.smallHierarchy.analyze ⟨[nested, called]⟩ 0).result.toOption.isSome = true := by
    decide +kernel
  obtain ⟨a, ha⟩ := Option.isSome_iff_exists.mp hcomputed
  rw [toOption_eq_some] at ha
  -- the caches do not matter any more, and the analysis is not computed again
  generalize Cache.smallHierarchy = levels at ha ⊢
  obtain ⟨hl₁, -, -, htrace⟩ :=
    (lookups_recorded nested_accepted hnests (Nat.succ_pos 1) levels).result ha
  have hruns : nested.Runs 1 := by
    unfold Code.Procedure.Runs
    decide
  refine ⟨a, ha, fun context => ?_, ?_, fun platform other => htrace platform .embedded 0 other⟩
  · rw [hl₁.recorded]
    constructor
    · rintro ⟨-, p, hp, -, hdepth⟩
      obtain rfl := Option.some.inj hp
      exact (Except.ok.inj hdepth).symm
    · intro hdepth
      refine ⟨.entry, nested, rfl, hruns, ?_⟩
      rw [hdepth]
      rfl
  · rw [hl₁.recorded]
    have hcalls : (Program.mk [nested, called]).Calls 0 1 :=
      ⟨nested, 1, _, ⟨20, some 1⟩, rfl, hruns, rfl, by decide, rfl⟩
    refine ⟨.call .entry hcalls, called, rfl, ?_, rfl⟩
    exact ⟨by decide, by decide⟩

end Bound

end CycleBounds
