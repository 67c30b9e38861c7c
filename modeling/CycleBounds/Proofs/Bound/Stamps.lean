import CycleBounds.Proofs.Bound.Ledgers
import CycleBounds.Proofs.Run.Places

/-!
# When blocks and procedures are stamped

What a run stamps lies in the run: it starts no earlier than the run does. There is one exception.
A summarised loop is timed from zero, and though its own blocks are not stamped then, the procedures
that it calls stamp theirs, and record the procedures that they call in turn.

* `Program.Repeats`: the procedures that loops call on the way from an entry. If loops are
  summarised, they are `Detached` from the times of the run.
* `Ledger.Timely`: all stamps lie in the run, unless they come from detached procedures.
* `OnWay`: a body on the way, and where it may start. `OnWay.calls` says this of what the body
  calls.
* `region_onTime`, `loopAt_onTime` and `procedureAt_timely`: bodies, loops in every treatment and
  calls keep the stamps timely.
* `trace_timely` says it of a whole run.
-/

namespace CycleBounds

namespace Code.Program

/-- A loop of a procedure calls another procedure, in a block that runs. -/
def LoopCalls (program : Program) (q c : Nat) : Prop :=
  ∃ p b block i, program.procedures[q]? = some p ∧ p.Runs b ∧ p.blocks[b]? = some block ∧
    i ∈ block.instructions ∧ i.callee = some c ∧ ∃ loop ∈ p.loops, b ∈ loop.blocks

/-- On the way from an entry, a loop calls a procedure, directly or through others. -/
def Repeats (program : Program) (entry c : Nat) : Prop :=
  ∃ q r, program.Included entry q ∧ program.LoopCalls q r ∧ program.Included r c

theorem Repeats.call {program : Program} {entry q c : Nat} (h : program.Repeats entry q)
    (hcalls : program.Calls q c) : program.Repeats entry c := by
  obtain ⟨p, r, hp, hloop, hr⟩ := h
  exact ⟨p, r, hp, hloop, .call hr hcalls⟩

end Code.Program

namespace Bound

open Code (Program Procedure Loop Instruction)

/-- A procedure may be timed from zero: loops are summarised, and one of them calls it. -/
def Engine.Detached (e : Engine) (entry q : Nat) : Prop :=
  e.platform.loops = .summarize ∧ e.program.Repeats entry q

/-- A procedure is called by one that may be timed from zero. -/
def Engine.DetachedCall (e : Engine) (entry c : Nat) : Prop :=
  ∃ q, e.Detached entry q ∧ e.program.Calls q c

/-- The stamps of a run from an entry: nothing finishes before it starts, and nothing starts before
the run, unless it is stamped by a procedure that may be timed from zero. -/
structure Ledger.Timely (e : Engine) (entry start : Nat) (ledger : Ledger) : Prop where
  block : ∀ {spot s f}, ledger.blocks.get? spot = some (s, f) →
    s ≤ f ∧ (start ≤ s ∨ e.Detached entry spot.procedure)
  procedure : ∀ {q t}, ledger.procedures.get? q = some t →
    t.start ≤ t.finish ∧ t.cost = t.finish - t.start ∧ (start ≤ t.start ∨ e.DetachedCall entry q)

/-- Timely stamps, where no block of the procedure at hand finishes before a given time. -/
structure Progress.OnTime (e : Engine) (entry start floor : Nat) (progress : Progress) :
    Prop where
  times : ∀ {b o}, progress.times.get? b = some o → floor ≤ o.finish
  timely : progress.ledger.Timely e entry start

/-! ### Stamps -/

section Stamps

variable {e : Engine} {entry start floor q b : Nat} {relative : Bool} {s : Stamp}
  {ledger ledger' : Ledger} {progress : Progress}

theorem Ledger.timely_empty : Ledger.empty.Timely e entry start :=
  ⟨nofun, nofun⟩

theorem Ledger.Timely.congr (h : ledger.Timely e entry start)
    (hblocks : ledger'.blocks = ledger.blocks)
    (hprocedures : ledger'.procedures = ledger.procedures) : ledger'.Timely e entry start :=
  ⟨fun hget => h.block (hblocks ▸ hget), fun hget => h.procedure (hprocedures ▸ hget)⟩

theorem Ledger.Timely.onTime (h : ledger.Timely e entry start) :
    (Progress.mk ∅ ledger).OnTime e entry start floor :=
  ⟨nofun, h⟩

/-- A stamp keeps progress on time, if it may be made. -/
theorem Progress.OnTime.stamp (h : progress.OnTime e entry start floor)
    (hle : s.start ≤ s.finish) (hfloor : floor ≤ s.finish)
    (hstart : relative = false → start ≤ s.start ∨ e.Detached entry q) :
    (progress.stamp relative q b s).OnTime e entry start floor := by
  refine ⟨fun {b' o} hget => ?_, ?_⟩
  · by_cases hb : b' = b
    · subst hb
      obtain rfl := Option.some.inj ((Table.get?_insert_self _ _ _).symm.trans hget)
      exact hfloor
    · exact h.times ((Table.get?_insert_of_ne _ hb _).symm.trans hget)
  · -- only stamps that are not relative are entered in the ledger
    cases relative with
    | true => exact h.timely
    | false =>
      refine ⟨fun {spot _ _} hget => ?_, h.timely.procedure⟩
      by_cases hspot : spot = ⟨q, b⟩
      · subst hspot
        obtain ⟨rfl, rfl⟩ :=
          Prod.mk.inj (Option.some.inj ((Table.get?_insert_self _ _ _).symm.trans hget))
        exact ⟨hle, hstart rfl⟩
      · exact h.timely.block ((Table.get?_insert_of_ne _ hspot _).symm.trans hget)

theorem Progress.OnTime.spread {p : Procedure} {loop : Loop} {first last : Nat}
    (h : progress.OnTime e entry start floor) (hle : first ≤ last) (hfloor : floor ≤ last)
    (hstart : relative = false → start ≤ first ∨ e.Detached entry p.id) :
    (Engine.spread relative p loop first last progress).OnTime e entry start floor := by
  unfold Engine.spread
  induction loop.blocks generalizing progress with
  | nil => exact h
  | cons b blocks ih => exact ih (h.stamp hle hfloor hstart)

/-- Recording a call keeps a ledger timely, if the call may be recorded. -/
theorem Ledger.Timely.recorded {time finish : Nat} (h : ledger.Timely e entry start)
    (hle : time ≤ finish) (hstart : relative = false → start ≤ time ∨ e.DetachedCall entry q) :
    (Engine.recorded relative q ⟨time, finish, finish - time⟩ ledger).Timely e entry start := by
  cases relative with
  | true => exact h
  | false =>
    refine ⟨h.block, fun {c _} hget => ?_⟩
    by_cases hc : c = q
    · subst hc
      obtain rfl := Option.some.inj ((Table.get?_insert_self _ _ _).symm.trans hget)
      exact ⟨hle, rfl, hstart rfl⟩
    · exact h.procedure ((Table.get?_insert_of_ne _ hc _).symm.trans hget)

end Stamps

namespace Engine

variable {e : Engine} {entry start floor : Nat} {scenario : Scenario} {relative : Bool}
  {call : Call} {inner : Inner} {p : Procedure} {region : Option Nat} {context : Context}
  {r l n : Nat} {loop : Loop} {s : Stamp} {ledger ledger' : Ledger}
  {progress progress' : Progress}

/-! ### Bodies on the way -/

/-- A body on the way from an entry, no block of which starts before a given time. Either this time
lies in the run or the procedure is detached, or the body is timed from zero to summarise its
loop. -/
structure OnWay (e : Engine) (entry start floor : Nat) (relative : Bool) (p : Procedure)
    (region : Option Nat) (context : Context) : Prop where
  procedure : e.program.procedures[p.id]? = some p
  included : e.program.Included entry p.id
  live : p.Live region context
  mode : relative = false ∧ (start ≤ floor ∨ e.Detached entry p.id) ∨
    relative = true ∧ e.platform.loops = .summarize ∧ region ≠ none

namespace OnWay

theorem absolute (h : e.OnWay entry start floor relative p region context)
    (hrelative : relative = false) {time : Nat} (hle : floor ≤ time) :
    start ≤ time ∨ e.Detached entry p.id := by
  rcases h.mode with ⟨-, hstart⟩ | ⟨htrue, -⟩
  · exact hstart.imp_left fun hs => Nat.le_trans hs hle
  · rw [hrelative] at htrue
    cases htrue

/-- The body of an inner loop that is followed like the region around it. -/
theorem nested (h : e.OnWay entry start floor relative p region context)
    (hprogram : e.program.Accepted) (hr : r ∈ p.orderOf region) (hh : p.headerOf? r = some l)
    (hne : some l ≠ region) (hl : p.loops[l]? = some loop) (hbound : 0 < loop.bound)
    (it : Iteration) : e.OnWay entry start floor relative p (some l) (context.nest it) where
  procedure := h.procedure
  included := h.included
  live := h.live.inner (hprogram.shaped h.procedure) (hprogram.wellFormed h.procedure) hr hh hne hl
    hbound it
  mode := h.mode.imp_right fun ⟨htrue, hloops, _⟩ => ⟨htrue, hloops, nofun⟩

/-- The body of a loop that is timed from zero. -/
theorem fromZero (h : e.OnWay entry start floor relative p (some l) context)
    (hloops : e.platform.loops = .summarize) :
    e.OnWay entry start 0 true p (some l) context where
  procedure := h.procedure
  included := h.included
  live := h.live
  mode := .inr ⟨rfl, hloops, nofun⟩

/-- What a block of a body calls may be timed from then on, and may be recorded unless the body is
relative. -/
theorem calls (h : e.OnWay entry start floor relative p region context)
    (hprogram : e.program.Accepted) (hr : r ∈ p.orderOf region)
    (hself : p.headerOf? r = none ∨ p.headerOf? r = region) {block : Code.Block}
    (hblock : p.blocks[r]? = some block) {i : Instruction} (hi : i ∈ block.instructions) {c : Nat}
    (hc : i.callee = some c) {time : Nat} (hle : floor ≤ time) :
    e.program.Included entry c ∧ (start ≤ time ∨ e.Detached entry c) ∧
      (relative = false → start ≤ time ∨ e.DetachedCall entry c) := by
  have hwf := hprogram.wellFormed h.procedure
  have hruns := (h.live.block (hprogram.shaped h.procedure) hwf hr hself).1
  have hcalls : e.program.Calls p.id c := ⟨p, r, block, i, h.procedure, hruns, hblock, hi, hc⟩
  refine ⟨.call h.included hcalls, ?_, fun hrelative => ?_⟩
  · rcases h.mode with ⟨hfalse, -⟩ | ⟨-, hloops, hregion⟩
    · exact (h.absolute hfalse hle).imp_right fun hd => ⟨hd.1, hd.2.call hcalls⟩
    · -- the block lies in the loop that is summarised
      obtain ⟨l, rfl⟩ := Option.ne_none_iff_exists'.mp hregion
      obtain ⟨loop, hl, hmem⟩ := hwf.inside hr (.inl ⟨rfl, hself⟩)
      exact .inr ⟨hloops, p.id, c, h.included, ⟨p, r, block, i, h.procedure, hruns, hblock, hi, hc,
        loop, List.mem_of_getElem? hl, hmem⟩, .entry⟩
  · exact (h.absolute hrelative hle).imp_right fun hd => ⟨p.id, hd, hcalls⟩

end OnWay

/-! ### Bodies -/

def CallTimely (e : Engine) (entry start : Nat) (scenario : Scenario) (call : Call) : Prop :=
  ∀ {relative c time ledger timing ledger'},
    (call scenario relative c time ledger).result = .ok (timing, ledger') →
    e.program.Included entry c → (start ≤ time ∨ e.Detached entry c) →
    (relative = false → start ≤ time ∨ e.DetachedCall entry c) →
    ledger.Timely e entry start → ledger'.Timely e entry start

def InnerOnTime (e : Engine) (entry start floor : Nat) (scenario : Scenario) (relative : Bool)
    (p : Procedure) (region : Option Nat) (context : Context) (inner : Inner) : Prop :=
  ∀ {r l s progress progress'}, r ∈ p.orderOf region → p.headerOf? r = some l →
    some l ≠ region → (inner scenario relative l context s progress).result = .ok progress' →
    floor ≤ s.finish → progress.OnTime e entry start floor → progress'.OnTime e entry start floor

/-- The stamps that calls of a block leave are timely, and so is its own. -/
theorem block_timely (hprogram : e.program.Accepted)
    (hcall : CallTimely e entry start scenario call)
    (hbody : e.OnWay entry start floor relative p region context) (hr : r ∈ p.orderOf region)
    (hself : p.headerOf? r = none ∨ p.headerOf? r = region) {time : Nat} {bus : Bus.Tracker}
    (h : (e.block call scenario relative p r context time bus ledger).result = .ok (s, ledger'))
    (hle : floor ≤ time) (htimely : ledger.Timely e entry start) :
    ledger'.Timely e entry start := by
  obtain ⟨blk, g, hblk, hfirst, -, -, rfl, hstep⟩ := block_eq_ok h
  -- the ledger is timely before each instruction
  have hall : ∀ n ≤ blk.instructions.length, (g n).ledger.Timely e entry start := by
    intro n hn
    induction n with
    | zero => rwa [hfirst]
    | succ n ih =>
      have hi := List.getElem?_eq_getElem hn
      have hbefore := ih (Nat.le_of_succ_le hn)
      obtain ⟨d, -, hcases⟩ := charge_eq_ok (hstep n _ hi)
      cases hc : (blk.instructions[n]).callee with
      | none =>
        simp only [hc] at hcases
        rw [hcases.2]
        exact hbefore
      | some c =>
        simp only [hc] at hcases
        obtain ⟨timing, hrun, -⟩ := hcases
        obtain ⟨hincluded, hstart, hrecord⟩ := hbody.calls hprogram hr hself hblk
          (List.mem_of_getElem? hi) hc (Nat.le_add_right_of_le hle)
        exact hcall hrun hincluded hstart hrecord hbefore
  exact hall _ (Nat.le_refl _)

/-- A block of a body keeps progress on time, and so does an inner loop. -/
theorem visit_onTime (hprogram : e.program.Accepted)
    (hcall : CallTimely e entry start scenario call)
    (hbody : e.OnWay entry start floor relative p region context)
    (hinner : InnerOnTime e entry start floor scenario relative p region context inner)
    (hr : r ∈ p.orderOf region)
    (h : (e.visit call inner scenario relative p region context r s progress).result =
      .ok progress') (hle : floor ≤ s.finish) (htimes : progress.OnTime e entry start floor) :
    progress'.OnTime e entry start floor := by
  rcases visit_eq_ok h with ⟨l, hh, hne, hl⟩ | ⟨hself, stamp, ledger, hblock, rfl⟩
  · -- the header of an inner loop
    exact hinner hr hh hne hl hle htimes
  · have hledger := block_timely hprogram hcall hbody hr hself hblock hle htimes.timely
    have hfinish := start_le_finish hblock
    have hstart := start_of_block hblock
    have hafter : (Progress.mk progress.times ledger).OnTime e entry start floor :=
      ⟨htimes.times, hledger⟩
    refine hafter.stamp (hstart ▸ hfinish) (Nat.le_trans hle hfinish) fun hrelative => ?_
    rw [hstart]
    exact hbody.absolute hrelative hle

/-- What a body stamps is on time. -/
theorem region_onTime (hprogram : e.program.Accepted)
    (hcall : CallTimely e entry start scenario call)
    (hbody : e.OnWay entry start floor relative p region context)
    (hinner : InnerOnTime e entry start floor scenario relative p region context inner)
    (h : (e.region call inner scenario relative p region context (p.orderOf region) s
      progress).result = .ok progress') (hle : floor ≤ s.finish)
    (htimes : progress.OnTime e entry start floor) : progress'.OnTime e entry start floor := by
  have hvisit : ∀ r ∈ p.orderOf region, ∀ {s progress progress'},
      (e.visit call inner scenario relative p region context r s progress).result =
        .ok progress' → floor ≤ s.finish → progress.OnTime e entry start floor →
      progress'.OnTime e entry start floor :=
    fun r hr _ _ _ => visit_onTime hprogram hcall hbody hinner hr
  cases horder : p.orderOf region with
  | nil =>
    rw [horder] at h
    obtain rfl := Except.ok.inj h
    exact htimes
  | cons b rest =>
    rw [horder] at h hvisit
    simp only [Engine.region, Traced.result_bind, Traced.result_foldlM,
      Traced.result_liftM_except] at h
    obtain ⟨progress₁, hfirst, h⟩ := bind_eq_ok.mp h
    refine foldlM_rel (R := fun t u : Progress =>
      t.OnTime e entry start floor → u.OnTime e entry start floor) (fun _ => id)
      (fun h₁ h₂ ht => h₂ (h₁ ht)) ?_ h (hvisit b List.mem_cons_self hfirst hle htimes)
    intro r hr t u hstep ht
    obtain ⟨before, hbefore, hstep⟩ := bind_eq_ok.mp hstep
    -- a block starts after one that has been timed before
    obtain ⟨⟨v, -, hget⟩, -⟩ :=
      stampBefore_eq_ok (hprogram.wellFormed hbody.procedure) (mapError_eq_ok.mp hbefore)
    exact hvisit r (List.mem_cons_of_mem b hr) hstep (ht.times hget) ht

/-! ### Loops -/

def BodyOnTime (e : Engine) (entry start floor : Nat) (scenario : Scenario) (relative : Bool)
    (context : Context) (body : Body) : Prop :=
  ∀ {it s progress progress'},
    (body scenario relative (context.nest it) s progress).result = .ok progress' →
    floor ≤ s.finish → progress.OnTime e entry start floor → progress'.OnTime e entry start floor

section Treatments

variable {body : Body}

/-- An unrolled loop keeps progress on time: no round starts before the one before it ends. -/
theorem unroll_onTime (hbody : BodyOnTime e entry start floor scenario false context body)
    (hbound : 0 < loop.bound)
    (h : (unroll body scenario false p l loop context s progress).result = .ok progress')
    (hle : floor ≤ s.finish) (hstart : start ≤ s.finish ∨ e.Detached entry p.id)
    (htimes : progress.OnTime e entry start floor) : progress'.OnTime e entry start floor := by
  obtain ⟨n, g, hg, rfl⟩ := unroll_stamps hbound h
  -- the rounds follow one another, so all of them start after the loop is entered
  have hchain : ∀ k ≤ n, s.finish ≤ (g k).1.finish :=
    fun k hk => hg.start_finish ▸ hg.chain (Nat.zero_le k) hk
  have hall : ∀ k ≤ n, (g k).2.OnTime e entry start floor := by
    intro k hk
    induction k with
    | zero => rwa [hg.start]
    | succ k ih =>
      have hbefore := Nat.le_of_succ_le hk
      exact hbody (hg.runs k hk) (Nat.le_trans hle (hchain k hbefore)) (ih hbefore)
  have hlast := hchain n (Nat.le_refl n)
  exact (hall n (Nat.le_refl n)).stamp hlast (Nat.le_trans hle hlast) fun _ => hstart

/-- A loop that is bounded by its offsets keeps progress on time. -/
theorem byOffsets_onTime {schedule : Bus.Schedule} (hp : p.WellFormed)
    (hl : p.loops[l]? = some loop) (hstamps : BodyStamps scenario p l loop body)
    (hbody : BodyOnTime e entry start floor scenario false context body)
    (h : (e.byOffsets body schedule scenario false p l loop context s progress).result =
      .ok progress') (hle : floor ≤ s.finish) (hstart : start ≤ s.finish ∨ e.Detached entry p.id)
    (htimes : progress.OnTime e entry start floor) : progress'.OnTime e entry start floor := by
  obtain ⟨n, progress₁, first, value, hw⟩ := byOffsets_eq_ok h
  obtain ⟨o, ho, hfirst⟩ := hstamps.stamped hw.run (hp.sink_inside hl)
  obtain rfl := Option.some.inj (ho.symm.trans hw.sink)
  have hfinish : s.finish ≤ o.finish + value := Nat.le_add_right_of_le hfirst
  -- the graph only adds to the time that the first round takes
  have hspread : (spread false p loop s.finish (o.finish + value) progress₁).OnTime e entry start
      floor :=
    (hbody hw.run hle htimes).spread hfinish (Nat.le_trans hle hfinish) fun _ => hstart
  obtain ⟨graphs, hledger⟩ := hw.ledger
  refine ⟨fun hget => hspread.times (hw.times ▸ hget), ?_⟩
  rw [hledger]
  exact hspread.timely.congr rfl rfl

theorem summary_timely (hbody : BodyOnTime e entry start 0 scenario true context body)
    {costs : Nat × Nat}
    (h : (summary body scenario p loop context ledger).result = .ok (costs, ledger'))
    (htimely : ledger.Timely e entry start) : ledger'.Timely e entry start := by
  rcases summary_cases h with ⟨-, rfl⟩ | ⟨-, ledger₁, ledger₂, hfirst, hsteady, rfl⟩
  · exact htimely
  · obtain ⟨progress₁, hrun₁, rfl, -⟩ := relativeCost_eq_ok hfirst
    obtain ⟨progress₂, hrun₂, rfl, -⟩ := relativeCost_eq_ok hsteady
    have hafter := hbody hrun₁ (Nat.zero_le _) htimely.onTime
    have hafter' := hbody hrun₂ (Nat.zero_le _) hafter.timely.onTime
    exact hafter'.timely.congr rfl rfl

theorem summarize_onTime (hbody : BodyOnTime e entry start 0 scenario true context body)
    (h : (e.summarize body scenario relative p l loop context s.finish progress).result =
      .ok progress') (hle : floor ≤ s.finish)
    (hstart : relative = false → start ≤ s.finish ∨ e.Detached entry p.id)
    (htimes : progress.OnTime e entry start floor) : progress'.OnTime e entry start floor := by
  obtain ⟨costs, ledger, n, cost, hsummary, -, -, rfl⟩ := summarize_eq_ok h
  have hafter : (Progress.mk progress.times ledger).OnTime e entry start floor :=
    ⟨htimes.times, summary_timely hbody hsummary htimes.timely⟩
  exact hafter.spread (Nat.le_add_right _ _) (Nat.le_add_right_of_le hle) hstart

end Treatments

/-- Loops keep progress on time, however they are treated. -/
theorem loopAt_onTime (hprogram : e.program.Accepted)
    (hcall : CallTimely e entry start scenario call)
    (hway : e.OnWay entry start floor relative p region context) :
    InnerOnTime e entry start floor scenario relative p region context (e.loopAt call p n) := by
  -- by induction on how deep loops may nest: the bodies of loops keep progress on time as well
  induction n generalizing floor relative region context with
  | zero =>
    intro r l s progress progress' _ _ _ h
    cases h
  | succ n ih =>
    intro r l s progress progress' hr hh hne h hle htimes
    have hp := hprogram.wellFormed hway.procedure
    have hstart : relative = false → start ≤ s.finish ∨ e.Detached entry p.id :=
      fun hrelative => hway.absolute hrelative hle
    obtain ⟨loop, hl, ⟨-, rfl⟩ | ⟨hbound, hloop⟩⟩ := loopAt_eq_ok h
    · exact htimes.spread (Nat.le_refl _) hle hstart
    have hinside := hway.nested hprogram hr hh hne hl hbound
    have hbody : ∀ {floor relative},
        (∀ it, e.OnWay entry start floor relative p (some l) (context.nest it)) →
        BodyOnTime e entry start floor scenario relative context (bodyOf e call p n l loop) := by
      intro floor relative hway it s progress progress' hrun
      rw [bodyOf, ← Procedure.orderOf_loop hl] at hrun
      exact region_onTime hprogram hcall (hway it) (ih (hway it)) hrun
    by_cases hloops : e.platform.loops = .summarize
    · simp only [Engine.loop, hloops] at hloop
      exact summarize_onTime (hbody fun it => (hinside it).fromZero hloops) hloop hle hstart htimes
    · -- only summarised loops are relative
      obtain ⟨rfl, -⟩ := hway.mode.resolve_right fun hrelative => hloops hrelative.2.1
      have hstamps : BodyStamps scenario p l loop (bodyOf e call p n l loop) :=
        bodyStamps_bodyOf hp (innerStamps_loopAt hp n) hl
      rcases loop_eq_ok hloop with ⟨-, hloop⟩ | ⟨schedule, -, -, hloop⟩ | ⟨hsummarize, -⟩
      · exact unroll_onTime (hbody hinside) hbound hloop hle (hstart rfl) htimes
      · exact byOffsets_onTime hp hl hstamps (hbody hinside) hloop hle (hstart rfl) htimes
      · exact absurd hsummarize hloops

/-! ### Runs -/

/-- Calls keep the stamps of a run timely, however long the chain of calls may get. -/
theorem procedureAt_timely (hprogram : e.program.Accepted) (n : Nat) :
    CallTimely e entry start scenario (e.procedureAt n) := by
  induction n with
  | zero =>
    intro relative c time ledger timing ledger' h
    cases h
  | succ n ih =>
    intro relative c time ledger timing ledger' h hincluded hstart hrecord htimely
    obtain ⟨p, progress, finish, hc, hregion, -, hle, rfl, rfl⟩ := procedureAt_recorded h
    obtain rfl := hprogram.id_eq hc
    have hway : e.OnWay entry start time false p none .root :=
      ⟨hc, hincluded, Procedure.live_root, .inl ⟨rfl, hstart⟩⟩
    have hafter := region_onTime hprogram ih hway (loopAt_onTime hprogram ih hway) hregion
      (Nat.le_refl time) htimely.onTime
    exact hafter.timely.recorded hle hrecord

/-- A run that returns starts when it is told to, its timing is recorded for its entry, and all its
stamps are timely: nothing finishes before it starts, the costs of procedures are what lies between,
and nothing starts before the run. Where loops are summarised, the procedures that they call are
excepted from the latter. -/
theorem trace_timely (hprogram : e.program.Accepted) {timing : Timing}
    (h : (e.trace entry start scenario).result = .ok (timing, ledger)) :
    timing.start = start ∧ ledger.procedures.get? entry = some timing ∧
      ledger.Timely e entry start := by
  have htimely := procedureAt_timely hprogram _ h .entry (.inl (Nat.le_refl start))
    (fun _ => .inl (Nat.le_refl start)) Ledger.timely_empty
  obtain ⟨p, progress, finish, -, -, -, -, rfl, rfl⟩ := procedureAt_recorded h
  exact ⟨rfl, Table.get?_insert_self _ _ _, htimely⟩

end Engine

/-! ### A loop that calls a procedure which calls another one -/

open Code (Draft)

def spinningDraft : Draft where
  id := 0
  name := "spinning"
  blocks := [[⟨0, some 1⟩], []]
  edges := [(0, 1)]
  loops := [{ header := 0, sink := 0, members := [], bound := 2, naturalExit := true }]

def relayingDraft : Draft where
  id := 1
  name := "relaying"
  blocks := [[⟨16, some 2⟩]]
  edges := []
  loops := []

def restingDraft : Draft where
  id := 2
  name := "resting"
  blocks := [[⟨32, none⟩]]
  edges := []
  loops := []

def spinning : Procedure where
  id := 0
  name := "spinning"
  blocks := [⟨[⟨0, some 1⟩], [], [1], some 0, some 0⟩, ⟨[], [0], [], none, none⟩]
  loops := [⟨0, 0, 2, true, none, 0, [0], [0]⟩]
  order := [0, 1]
  sinks := [1]

def relaying : Procedure where
  id := 1
  name := "relaying"
  blocks := [⟨[⟨16, some 2⟩], [], [], none, none⟩]
  loops := []
  order := [0]
  sinks := [0]

def resting : Procedure where
  id := 2
  name := "resting"
  blocks := [⟨[⟨32, none⟩], [], [], none, none⟩]
  loops := []
  order := [0]
  sinks := [0]

theorem spinning_accepted : Program.Accepted ⟨[spinning, relaying, resting]⟩ :=
  ⟨[spinningDraft, relayingDraft, restingDraft], [spinning, relaying, resting], rfl, rfl⟩

theorem unshared_transfers (levels : Cache.Hierarchy) (s : Bus.Schedule)
    (h : Bus.unshared.timed? = some s) :
    levels.l2HitLatency ≤ s.slot ∧ levels.missPenalty ≤ s.slot := by
  cases h

def lonePlatform : Platform where
  hierarchy := ⟨⟨0, 1, 4, 1, 2, Nat.one_pos⟩, none⟩
  bus := .unshared
  instrBcet := 0
  instrWcet := 0
  loops := .summarize
  independent := false
  transfers_fit := unshared_transfers _
  instr_ordered := Nat.le_refl .zero

def spinningEngine (analysis : Cache.Analysis) : Engine where
  program := ⟨[spinning, relaying, resting]⟩
  analysis
  platform := lonePlatform
  solver := .embedded
  core := 0

/-- The called procedures are stamped by relative runs, long before the run itself starts. -/
theorem spinning_run : ∃ analysis timing ledger,
    (lonePlatform.hierarchy.analyze ⟨[spinning, relaying, resting]⟩ 0).result = .ok analysis ∧
    ((spinningEngine analysis).trace 0 100 .worst).result = .ok (timing, ledger) ∧
    ledger.blocks.get? ⟨0, 0⟩ = some (100, 112) ∧ ledger.blocks.get? ⟨1, 0⟩ = some (2, 6) ∧
    ledger.procedures.get? 2 = some ⟨4, 6, 2⟩ := by
  have hcomputed :
      ((lonePlatform.hierarchy.analyze ⟨[spinning, relaying, resting]⟩ 0).result.toOption.bind
        fun a => ((spinningEngine a).trace 0 100 .worst).result.toOption.map fun r =>
          (r.2.blocks.get? ⟨0, 0⟩, r.2.blocks.get? ⟨1, 0⟩, r.2.procedures.get? 2)) =
      some (some (100, 112), some (2, 6), some ⟨4, 6, 2⟩) := by
    decide +kernel
  obtain ⟨analysis, hanalysis, hresults⟩ := Option.bind_eq_some_iff.mp hcomputed
  obtain ⟨⟨timing, ledger⟩, htrace, hresults⟩ := Option.map_eq_some_iff.mp hresults
  simp only [Prod.mk.injEq] at hresults
  exact ⟨analysis, timing, ledger, toOption_eq_some.mp hanalysis, toOption_eq_some.mp htrace,
    hresults⟩

/-- In a run from 100, the procedure that the loop calls after a fetch of two cycles is stamped from
2 on, and the one that this procedure calls from 4 on. -/
theorem stamped_before_start : ∃ analysis timing ledger,
    (lonePlatform.hierarchy.analyze ⟨[spinning, relaying, resting]⟩ 0).result = .ok analysis ∧
    (spinningEngine analysis).program.Accepted ∧
    ((spinningEngine analysis).trace 0 100 .worst).result = .ok (timing, ledger) ∧
    ledger.blocks.get? ⟨1, 0⟩ = some (2, 6) ∧ ledger.procedures.get? 2 = some ⟨4, 6, 2⟩ := by
  obtain ⟨analysis, timing, ledger, hanalysis, htrace, -, hblock, hprocedure⟩ := spinning_run
  exact ⟨analysis, timing, ledger, hanalysis, spinning_accepted, htrace, hblock, hprocedure⟩

/-- The early stamp shows that a loop calls the procedure. The loop itself is stamped in time. -/
theorem trace_timely_spinning : ∃ analysis timing ledger,
    (lonePlatform.hierarchy.analyze ⟨[spinning, relaying, resting]⟩ 0).result = .ok analysis ∧
    (spinningEngine analysis).program.Accepted ∧
    ((spinningEngine analysis).trace 0 100 .worst).result = .ok (timing, ledger) ∧
    ledger.procedures.get? 0 = some timing ∧ ledger.blocks.get? ⟨0, 0⟩ = some (100, 112) ∧
    ledger.blocks.get? ⟨1, 0⟩ = some (2, 6) ∧ ledger.Timely (spinningEngine analysis) 0 100 ∧
    (spinningEngine analysis).Detached 0 1 := by
  obtain ⟨analysis, timing, ledger, hanalysis, htrace, hloop, hblock, -⟩ := spinning_run
  have haccepted : (spinningEngine analysis).program.Accepted := spinning_accepted
  obtain ⟨-, hentry, htimely⟩ := Engine.trace_timely haccepted htrace
  refine ⟨analysis, timing, ledger, hanalysis, haccepted, htrace, hentry, hloop, hblock, htimely,
    ?_⟩
  exact (htimely.block hblock).2.resolve_left (by decide)

end Bound

end CycleBounds
