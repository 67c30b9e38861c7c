import CycleBounds.Proofs.Bound.Offsets
import CycleBounds.Proofs.Bus.Tracker
import CycleBounds.Proofs.Run.Parts

/-!
# Timing comes to its end

The timing of an accepted program has a result unless a number overflows, or more loops are nested
than a context can tell apart (`Exhausts`). Blocks are reached after their predecessors, loops are
nested no deeper than there are loops, and calls lead to procedures of lower rank.

* `ensures_region`: a body is followed to its end if calls and inner loops are.
* `innerEnds_loopAt`, `ensures_procedureAt`: loops and calls are.
* `ensures_trace`: a procedure of an accepted program can be timed.
-/

namespace CycleBounds.Bound.Engine

open Code (Program Procedure Loop)
open Offset (Graph)
open Run (Sweep NestedIn nestedIn_root nestedIn_nest)

/-- A program needs numbers that are too large, or contexts that are too deep. -/
def Exhausts (program : Program) (cause : Failure TimingError) : Prop :=
  cause = .fault .overflow ∨ cause = .fault (.defect .nestingTooDeep) ∧
    ∃ p ∈ program.procedures, ∃ loop ∈ p.loops, Context.maxDepth ≤ loop.level

/-- No offset graph is given to another program. -/
def Unaided (e : Engine) : Prop :=
  e.platform.loops = .offsets → e.solver = .embedded

/-- Relative runs occur where loops are summarised. -/
def Occurs (e : Engine) (relative : Bool) : Prop :=
  relative = true → e.platform.loops = .summarize

theorem ensures_fault {program : Program} {α : Type} {x : Except Fault α} {P : α → Prop}
    (h : Ensures (· = .overflow) x P) : Ensures (Exhausts program) (x.mapError .fault) P := by
  apply h.mapError
  rintro _ rfl
  exact .inl rfl

theorem occurs_false (e : Engine) : e.Occurs false :=
  nofun

theorem Occurs.eq_false {e : Engine} {relative : Bool} (h : e.Occurs relative)
    (hloops : e.platform.loops ≠ .summarize) : relative = false := by
  cases relative with
  | false => rfl
  | true => exact absurd (h rfl) hloops

variable {e : Engine} {scenario : Scenario} {relative : Bool} {call : Call} {inner : Inner}
  {p : Procedure} {l b start : Nat} {loop : Loop} {body : Body} {context : Context}
  {region : Option Nat}

/-! ### Blocks -/

def Returns (e : Engine) (call : Call) (q : Nat) : Prop :=
  q < e.program.procedures.length ∧ ∀ scenario relative start ledger,
    Ensures (Exhausts e.program) (call scenario relative q start ledger).result fun _ => True

theorem ensures_transfer (hcore : e.Scheduled) {time latency : Nat} {bus : Bus.Tracker} :
    Ensures (· = .overflow) (e.transfer scenario relative time latency bus).result
      fun _ => True := by
  unfold transfer
  split
  · exact Bus.Tracker.ensures_delay
  · trivial
  · rw [Traced.result_bind, Traced.result_liftM]
    exact (Bus.ensures_delay hcore).bind fun _ _ _ => trivial

theorem ensures_fetch (hcore : e.Scheduled) {source : Source} {time : Nat} {bus : Bus.Tracker} :
    Ensures (· = .overflow) (e.fetch scenario relative source time bus).result fun _ => True := by
  cases source with
  | l1 => trivial
  | l2 => exact ensures_transfer hcore
  | memory => exact ensures_transfer hcore

/-- An instruction can be charged if its call has a result. -/
theorem ensures_charge (hcore : e.Scheduled) {a : Account} {i : Code.Instruction × Source}
    (hcall : ∀ q, i.1.callee = some q → e.Returns call q) :
    Ensures (Exhausts e.program) (e.charge call scenario relative p b start a i).result
      fun _ => True := by
  simp only [charge, Traced.result_bind, Traced.result_liftM_except, Traced.result_liftM_traced]
  refine (ensures_fault (Word.ensures_add _ _)).bind fun time _ _ => ?_
  refine (ensures_fault (ensures_fetch hcore)).bind fun delay _ _ => ?_
  refine (ensures_fault (Word.ensures_add _ _)).bind fun cost _ _ => ?_
  refine (ensures_fault (Word.ensures_add _ _)).bind fun cost' _ _ => ?_
  cases hc : i.1.callee with
  | none => trivial
  | some q =>
    obtain ⟨hlt, hreturns⟩ := hcall q hc
    have hcallee : e.program.procedure q = .ok e.program.procedures[q] :=
      entryAt_eq_ok.mpr (List.getElem?_eq_getElem hlt)
    simp only [Traced.result_bind, Traced.result_liftM_except, Traced.result_emit, hcallee]
    refine (ensures_fault (Word.ensures_add _ _)).bind fun time _ _ => ?_
    refine (hreturns _ _ _ _).bind fun result _ _ => ?_
    exact (ensures_fault (Word.ensures_add _ _)).bind fun cost _ _ => trivial

def CallsReturn (e : Engine) (call : Call) (p : Procedure) : Prop :=
  ∀ q ∈ p.callees, e.Returns call q

/-- A block can be timed if its calls have results. -/
theorem ensures_block (hcore : e.Scheduled) (hcalls : e.CallsReturn call p)
    (hb : b < p.blocks.length) {bus : Bus.Tracker} {ledger : Ledger} :
    Ensures (Exhausts e.program)
      (e.block call scenario relative p b context start bus ledger).result fun _ => True := by
  have hblock : p.block b = .ok p.blocks[b] := entryAt_eq_ok.mpr (List.getElem?_eq_getElem hb)
  have hsources : ∀ i ∈ e.sources scenario ⟨p.id, b, context⟩ p.blocks[b].instructions,
      ∀ q, i.1.callee = some q → e.Returns call q := by
    intro i hi q hq
    obtain ⟨n, hn⟩ := List.getElem?_of_mem hi
    rw [sources_getElem?, Option.map_eq_some_iff] at hn
    obtain ⟨i', hi', rfl⟩ := hn
    exact hcalls q
      (Procedure.mem_callees (List.getElem?_eq_getElem hb) (List.mem_of_getElem? hi') hq)
  simp only [block, Traced.result_bind, Traced.result_foldlM, Traced.result_liftM_except,
    Traced.result_emit, hblock]
  refine (Ensures.foldlM_end (fun i hi a => ?_) _).bind fun a _ _ => ?_
  · exact ensures_charge hcore (hsources i hi)
  · exact (ensures_fault (Word.ensures_add _ _)).bind fun _ _ _ => trivial

/-! ### Bodies -/

/-- Inner loops have results in contexts that are no deeper than they lie. -/
def InnerEnds (e : Engine) (relative : Bool) (p : Procedure) (inner : Inner) (n : Nat) : Prop :=
  ∀ l loop (context : Context), p.loops[l]? = some loop → context.depth ≤ loop.level →
    p.loops.length ≤ n + context.depth → ∀ scenario s progress,
    Ensures (Exhausts e.program) (inner scenario relative l context s progress).result
      fun _ => True

/-- A block has a stamp to start from if some predecessor has a stamp. -/
theorem ensures_stampBefore (hp : p.WellFormed) {times : Table Nat Stamp} {u : Nat} {o : Stamp}
    (he : p.Edge u b) (ho : times.get? u = some o) :
    Ensures (· = .overflow) (stampBefore scenario p times b) fun _ => True := by
  obtain ⟨block, hblock, hu⟩ := hp.edge_iff.mp he
  have hmem : o ∈ block.preds.filterMap times.get? := List.mem_filterMap.mpr ⟨u, hu, ho⟩
  have hentry : Ensures (· = .overflow) (p.block b) (· = block) :=
    .of_ok (entryAt_eq_ok.mpr hblock) rfl
  unfold stampBefore
  refine hentry.bind fun _ _ heq => ?_
  subst heq
  split
  · rename_i hlist
    rw [hlist] at hmem
    cases hmem
  · trivial

/-- A block of a body can be timed, and so can the inner loop that it stands for. -/
theorem ensures_visit (hp : p.WellFormed) (hpass : p.Passable) (hcore : e.Scheduled)
    (hcalls : e.CallsReturn call p) {n : Nat} (hinner : e.InnerEnds relative p inner n)
    (hnested : NestedIn p region context) (hdepth : p.loops.length ≤ n + context.depth) {r : Nat}
    (hr : r ∈ p.orderOf region) (s : Stamp) (progress : Progress) :
    Ensures (Exhausts e.program)
      (e.visit call inner scenario relative p region context r s progress).result
      fun _ => True := by
  have hlt : r < p.blocks.length := hpass.lt_length (hp.inside_of_mem_order hr)
  have hblock : p.blocks[r]? = some p.blocks[r] := List.getElem?_eq_getElem hlt
  have hcases := Procedure.headerOf?_cases hblock region
  simp only [visit, Traced.result_bind, Traced.result_liftM_except]
  have hentry : Ensures (Exhausts e.program) ((p.block r).mapError .fault) (· = p.blocks[r]) :=
    .of_ok (mapError_eq_ok.mpr (entryAt_eq_ok.mpr hblock)) rfl
  refine hentry.bind fun _ _ heq => ?_
  subst heq
  -- the header of an inner loop stands for the loop, any other block for itself
  cases hfilter : p.blocks[r].headerOf.filter fun l => some l ≠ region with
  | some l =>
    rw [hfilter] at hcases
    obtain ⟨loop, hloop, -⟩ := hp.headerOf_iff.mp hcases.1
    exact hinner l loop context hloop (hnested hr hcases.1 hcases.2 hloop) hdepth _ _ _
  | none =>
    simp only [Traced.result_bind]
    exact (ensures_block hcore hcalls hlt).bind fun _ _ _ => trivial

/-- A body is followed to its end. -/
theorem ensures_region (hp : p.WellFormed) (hpass : p.Passable) (hcore : e.Scheduled)
    (hcalls : e.CallsReturn call p) {n : Nat} (hinner : e.InnerEnds relative p inner n)
    (hstamps : InnerStamps scenario relative p inner)
    (hnested : NestedIn p region context) (hdepth : p.loops.length ≤ n + context.depth) (s : Stamp)
    (progress : Progress) :
    Ensures (Exhausts e.program) (e.region call inner scenario relative p region context
      (p.orderOf region) s progress).result fun _ => True := by
  rw [region_result]
  apply Sweep.ensures_run hp (sweep_local hstamps)
  · intro r hr s t
    refine (ensures_visit hp hpass hcore hcalls hinner hnested hdepth hr s t).imp ?_
    intro t' hv _ b hb
    obtain ⟨o, ho, -⟩ := sweep_stamped hstamps hv hb
    exact ⟨o, ho⟩
  · intro pre v post t ho hne hpreds
    obtain ⟨u, hu⟩ := hpass.exists_pred ho hne
    obtain ⟨o, hout⟩ := hpreds u hu
    exact ensures_fault (ensures_stampBefore hp hu hout)

/-! ### Loops -/

theorem ensures_enter (hp : p ∈ e.program.procedures) (hl : p.loops[l]? = some loop)
    (hdepth : context.depth ≤ loop.level) (it : Iteration) :
    Ensures (Exhausts e.program) ((context.enter it).mapError .fault) (· = context.nest it) := by
  unfold Context.enter
  split
  · rfl
  · rename_i hdeep
    refine .inr ⟨rfl, p, hp, loop, List.mem_of_getElem? hl, ?_⟩
    exact Nat.le_trans (Nat.le_of_not_lt hdeep) hdepth

theorem ensures_iterations : Ensures (· = .overflow) (iterations scenario loop) fun _ => True := by
  unfold iterations
  split
  · exact (Word.ensures_add _ _).imp fun _ _ _ => trivial
  · trivial

/-- Only sums and products that are too large keep a loop from being extrapolated. -/
theorem ensures_extrapolate {interval first steady rest : Nat} :
    Ensures (· = .overflow) (extrapolate scenario interval first steady rest) fun _ => True := by
  cases scenario with
  | best =>
    refine (Word.ensures_mul _ _).bind fun rounds _ _ => ?_
    exact (Word.ensures_add _ _).imp fun _ _ _ => trivial
  | worst =>
    refine (Word.ensures_add _ _).bind fun entered _ _ => ?_
    refine (Word.ensures_add _ _).bind fun started _ _ => ?_
    refine (Word.ensures_add _ _).bind fun round _ _ => ?_
    refine (Word.ensures_mul _ _).bind fun rounds _ _ => ?_
    exact (Word.ensures_add _ _).imp fun _ _ _ => trivial

/-- The body of a loop is followed to its end in either iteration, and the sink gets a stamp. -/
structure BodyEnds (e : Engine) (loop : Loop) (body : Body) (context : Context) : Prop where
  enter : ∀ it, Ensures (Exhausts e.program) ((context.enter it).mapError .fault)
    (· = context.nest it)
  run : ∀ {relative}, e.Occurs relative → ∀ scenario it s progress, Ensures (Exhausts e.program)
    (body scenario relative (context.nest it) s progress).result fun progress' =>
      ∃ o, progress'.times.get? loop.sink = some o ∧ s.finish ≤ o.finish

namespace BodyEnds

/-- One iteration of an unrolled loop comes to its sink. -/
theorem iteration (h : BodyEnds e loop body context) (it : Iteration) (s : Stamp × Progress) :
    Ensures (Exhausts e.program)
      (Engine.iteration body scenario false p l loop context it s).result fun _ => True := by
  simp only [Engine.iteration, Traced.result_bind, Traced.result_liftM_except]
  refine (h.enter it).bind fun _ _ heq => ?_
  rw [heq]
  refine (h.run e.occurs_false scenario it s.1 s.2).bind fun progress _ hsink => ?_
  obtain ⟨o, ho, hle⟩ := hsink
  rw [stampOf_eq_ok.mpr ho]
  have hassume : assume (s.1.finish ≤ o.finish) (.negativeLoopRuntime l p.name) = .ok () :=
    assume_eq_ok.mpr (decide_eq_true hle)
  exact (Ensures.of_ok (P := fun _ => True) (mapError_eq_ok.mpr hassume) trivial).bind
    fun _ _ _ => trivial

theorem unroll (h : BodyEnds e loop body context) (entry : Stamp) (progress : Progress) :
    Ensures (Exhausts e.program)
      (Engine.unroll body scenario false p l loop context entry progress).result
      fun _ => True := by
  simp only [Engine.unroll, Traced.result_bind, Traced.result_liftM_except, Traced.result_emit]
  refine (ensures_fault ensures_iterations).bind fun n _ _ => ?_
  refine (h.iteration .first _).bind fun first _ _ => ?_
  exact (Ensures.iterate_end (h.iteration .steady) _ _).bind fun last _ _ => trivial

theorem steadyCost (h : BodyEnds e loop body context) (offset : Nat) :
    Ensures (Exhausts e.program)
      (Engine.steadyCost body scenario loop context offset).result fun _ => True := by
  simp only [Engine.steadyCost, Traced.result_bind, Traced.result_liftM_except]
  refine (h.enter .steady).bind fun _ _ heq => ?_
  rw [heq]
  refine (h.run e.occurs_false scenario .steady _ _).bind fun progress _ hsink => ?_
  obtain ⟨o, ho, -⟩ := hsink
  rw [stampOf_eq_ok.mpr ho]
  exact (ensures_fault (Word.ensures_sub _ _)).imp fun _ _ _ => trivial

/-- A loop can be bounded by its offsets: exploration and search both end. -/
theorem byOffsets (h : BodyEnds e loop body context) (hsolver : e.solver = .embedded)
    (schedule : Bus.Schedule) (entry : Stamp) (progress : Progress) :
    Ensures (Exhausts e.program)
      (e.byOffsets body schedule scenario false p l loop context entry progress).result
      fun _ => True := by
  simp only [Engine.byOffsets, Traced.result_bind, Traced.result_liftM_except]
  refine (h.enter .first).bind fun _ _ heq => ?_
  rw [heq]
  refine (h.run e.occurs_false scenario .first _ _).bind fun progress₁ _ hsink => ?_
  obtain ⟨o, ho, -⟩ := hsink
  rw [stampOf_eq_ok.mpr ho]
  refine (ensures_fault ensures_iterations).bind fun n _ _ => ?_
  refine (ensures_fault (Word.ensures_sub _ _)).bind fun steady _ _ => ?_
  split
  · trivial
  rename_i hmore
  simp only [Traced.result_bind, Traced.result_liftM_except, Traced.result_emit]
  obtain ⟨g₀, hempty⟩ := Graph.exists_empty schedule.interval_pos
  rcases hadd : g₀.addNode o.finish with ⟨g₁, start, new⟩
  rw [hempty]
  show Ensures _ (Traced.result (explore body loop context schedule.interval (g₀.addNode o.finish).1
    [(g₀.addNode o.finish).2.1]) >>= _) _
  rw [hadd]
  refine (explore_complete (.inl rfl) (fun _ => h.steadyCost) hempty hadd).bind ?_
  rintro g₂ - ⟨g, hconnect, hcomplete⟩
  rw [hconnect, hsolver]
  -- every node of a complete graph leads to a node, so there are walks of every length
  obtain ⟨w, -, hwalks⟩ := hcomplete.exists_walk scenario
  obtain ⟨rest, rfl⟩ := Nat.exists_eq_succ_of_ne_zero hmore
  have hsolve := Offset.bestWalk_spec (Nat.succ_pos rest) hcomplete.proper.finish
    ⟨_, hwalks rest⟩
  refine (hsolve.mapError ?_).bind fun solution _ _ => ?_
  · rintro _ rfl
    exact .inl rfl
  · exact (ensures_fault (Word.ensures_add _ _)).bind fun finish _ _ => trivial

/-- A relative run of an iteration has a cost. -/
theorem relativeCost (h : BodyEnds e loop body context) (hloops : e.platform.loops = .summarize)
    (it : Iteration) (ledger : Ledger) :
    Ensures (Exhausts e.program)
      (Engine.relativeCost body scenario loop (context.nest it) ledger).result fun _ => True := by
  simp only [Engine.relativeCost, Traced.result_bind]
  refine (h.run (fun _ => hloops) scenario it _ _).bind fun progress _ hsink => ?_
  obtain ⟨o, ho, -⟩ := hsink
  cases scenario with
  | worst => trivial
  | best =>
    simp only [Traced.result_bind, Traced.result_liftM_except]
    rw [stampOf_eq_ok.mpr ho]
    trivial

/-- The costs of a first and of a steady iteration are found. -/
theorem summary (h : BodyEnds e loop body context) (hloops : e.platform.loops = .summarize)
    (ledger : Ledger) :
    Ensures (Exhausts e.program)
      (Engine.summary body scenario p loop context ledger).result fun _ => True := by
  simp only [Engine.summary]
  cases ledger.summaries.get? ⟨p.id, loop.header, context⟩ with
  | some costs => trivial
  | none =>
    simp only [Traced.result_bind, Traced.result_liftM_except]
    refine (h.enter .first).bind fun _ _ heq => ?_
    rw [heq]
    refine (h.relativeCost hloops .first _).bind fun first _ _ => ?_
    refine (h.enter .steady).bind fun _ _ heq => ?_
    rw [heq]
    exact (h.relativeCost hloops .steady _).bind fun steady _ _ => trivial

theorem summarize (h : BodyEnds e loop body context) (hloops : e.platform.loops = .summarize)
    (progress : Progress) :
    Ensures (Exhausts e.program)
      (e.summarize body scenario relative p l loop context start progress).result
      fun _ => True := by
  simp only [Engine.summarize, Traced.result_bind, Traced.result_liftM_except, Traced.result_emit]
  refine (h.summary hloops _).bind fun costs _ _ => ?_
  refine (ensures_fault ensures_iterations).bind fun n _ _ => ?_
  refine (ensures_fault (Word.ensures_sub _ _)).bind fun rest _ _ => ?_
  refine (ensures_fault ensures_extrapolate).bind fun cost _ _ => ?_
  exact (ensures_fault (Word.ensures_add _ _)).bind fun finish _ _ => trivial

/-- Whatever the platform does with a loop comes to its end. -/
theorem treatment (h : BodyEnds e loop body context) (hloops : e.Unaided)
    (hrelative : e.Occurs relative) (entry : Stamp) (progress : Progress) :
    Ensures (Exhausts e.program)
      (e.loop body scenario relative p l loop context entry progress).result fun _ => True := by
  unfold Engine.loop
  split
  · rename_i heq
    exact h.summarize heq progress
  · rename_i heq _
    -- a relative run meets summarised loops only
    obtain rfl := hrelative.eq_false (by simp [heq])
    exact h.byOffsets (hloops heq) _ entry progress
  · rename_i hnot _
    obtain rfl := hrelative.eq_false hnot
    exact h.unroll entry progress

end BodyEnds

theorem innerStamps_of_occurs (hp : p.WellFormed) (h : e.Occurs relative) (n : Nat) :
    InnerStamps scenario relative p (e.loopAt call p n) := by
  cases relative with
  | false => exact innerStamps_loopAt hp n
  | true => exact innerStamps_summarize (h rfl) n

/-- Loops are followed to their ends. -/
theorem innerEnds_loopAt (hp : p.WellFormed) (hpass : p.Passable)
    (hmem : p ∈ e.program.procedures) (hcore : e.Scheduled) (hcalls : e.CallsReturn call p)
    (hloops : e.Unaided) (hrelative : e.Occurs relative) (n : Nat) :
    e.InnerEnds relative p (e.loopAt call p n) n := by
  induction n generalizing relative with
  | zero =>
    intro l loop context hl hdepth hlength
    -- a loop cannot be nested deeper than there are loops
    have := hpass.level_lt hl
    omega
  | succ n ih =>
    intro l loop context hl hdepth hlength scenario s progress
    have hbody : BodyEnds e loop (bodyOf e call p n l loop) context := by
      constructor
      case enter => exact ensures_enter hmem hl hdepth
      case run =>
        intro relative hoccurs scenario it s progress
        have hstamps : InnerStamps scenario relative p (e.loopAt call p n) :=
          innerStamps_of_occurs hp hoccurs n
        unfold bodyOf
        rw [← Procedure.orderOf_loop hl]
        refine (ensures_region hp hpass hcore hcalls (ih hoccurs) hstamps
          (nestedIn_nest hpass hl hdepth it) ?_ s progress).imp ?_
        · show p.loops.length ≤ n + (context.depth + 1)
          omega
        · intro progress' hrun _
          exact region_stamped hp hstamps hrun (hp.sink_inside hl)
    have hentry : Ensures (Exhausts e.program) ((p.loop l).mapError .fault) (· = loop) :=
      .of_ok (mapError_eq_ok.mpr (entryAt_eq_ok.mpr hl)) rfl
    simp only [loopAt, Traced.result_bind, Traced.result_liftM_except]
    refine hentry.bind fun _ _ heq => ?_
    subst heq
    split
    · trivial
    · exact hbody.treatment hloops hrelative s progress

/-! ### Procedures -/

/-- A procedure has a finish if one of its sinks has a stamp. -/
theorem ensures_exitTime {times : Table Nat Stamp} (hb : b ∈ p.sinks) {o : Stamp}
    (ho : times.get? b = some o) :
    Ensures (· = .overflow) (exitTime scenario p times) fun _ => True := by
  have hmem : o.finish ∈ (p.sinks.filterMap times.get?).map (·.finish) :=
    List.mem_map_of_mem (List.mem_filterMap.mpr ⟨b, hb, ho⟩)
  unfold exitTime
  split
  · rename_i hnil
    rw [hnil] at hmem
    cases hmem
  · trivial

/-- Calls have results if the chain of calls that may follow is long enough. -/
theorem ensures_procedureAt (hprogram : e.program.Accepted) (hcore : e.Scheduled)
    (hloops : e.Unaided) {rank : Nat → Nat} (hranked : e.program.Ranked rank) {n q : Nat}
    (hq : q < e.program.procedures.length) (hrank : rank q < n) :
    e.Returns (e.procedureAt n) q := by
  induction n generalizing q with
  | zero => cases hrank
  | succ n ih =>
    refine ⟨hq, fun scenario relative start ledger => ?_⟩
    obtain ⟨p, hentry⟩ : ∃ p, e.program.procedures[q]? = some p := ⟨_, List.getElem?_eq_getElem hq⟩
    have hp := hprogram.wellFormed hentry
    have hpass := hprogram.passable hentry
    have hcalls : e.CallsReturn (e.procedureAt n) p := by
      intro c hc
      obtain ⟨hlt, hlower⟩ := hranked.callee hentry hc
      exact ih hlt (by omega)
    have hinner := innerEnds_loopAt hp hpass (List.mem_of_getElem? hentry) hcore hcalls hloops
      e.occurs_false p.loops.length
    have hstamps : InnerStamps scenario false p (e.loopAt (e.procedureAt n) p p.loops.length) :=
      innerStamps_loopAt hp _
    have hprocedure : Ensures (Exhausts e.program) ((e.program.procedure q).mapError .fault)
        (· = p) :=
      .of_ok (mapError_eq_ok.mpr (entryAt_eq_ok.mpr hentry)) rfl
    simp only [procedureAt, Traced.result_bind, Traced.result_liftM_except, Traced.result_emit]
    refine hprocedure.bind fun _ _ heq => ?_
    rw [heq]
    refine (ensures_region hp hpass hcore hcalls hinner hstamps nestedIn_root (Nat.le_add_right _ _)
      _ _).bind fun progress hregion _ => ?_
    obtain ⟨b, hb⟩ := List.exists_mem_of_ne_nil _ hpass.sinks_ne_nil
    -- all blocks are stamped, and none finishes before the start
    have hstamped : ∀ b ∈ p.sinks, ∃ o, progress.times.get? b = some o ∧ start ≤ o.finish :=
      fun b hb => region_stamped hp hstamps hregion (hp.inside_of_mem_order (hp.sinks_mem hb))
    obtain ⟨o, ho, -⟩ := hstamped b hb
    refine (ensures_fault (ensures_exitTime hb ho)).bind fun finish hexit _ => ?_
    obtain ⟨⟨b', hb', o', ho', rfl⟩, -⟩ := exitTime_eq_ok (mapError_eq_ok.mp hexit)
    obtain ⟨o'', ho'', hle⟩ := hstamped b' hb'
    obtain rfl := Option.some.inj (ho'.symm.trans ho'')
    have hassume : assume (start ≤ o'.finish) (.negativeRuntime p.name) = .ok () :=
      assume_eq_ok.mpr (decide_eq_true hle)
    refine (Ensures.of_ok (P := fun _ => True) (mapError_eq_ok.mpr hassume) trivial).bind
      fun _ _ _ => ?_
    cases relative with
    | false => trivial
    | true => trivial

/-- A procedure of an accepted program can be timed. -/
theorem ensures_trace (hprogram : e.program.Accepted) (hcore : e.Scheduled)
    (hloops : e.Unaided) {entry : Nat} (hentry : entry < e.program.procedures.length) :
    Ensures (Exhausts e.program) (e.trace entry start scenario).result fun _ => True := by
  obtain ⟨rank, hranked⟩ := hprogram.exists_ranked
  have hreturns := ensures_procedureAt hprogram hcore hloops hranked hentry
    (Nat.lt_succ_of_le (hranked.le entry))
  exact hreturns.2 scenario false start .empty

theorem ensures_analyze (hprogram : e.program.Accepted) (hcore : e.Scheduled)
    (hloops : e.Unaided) {entry : Nat} (hentry : entry < e.program.procedures.length) :
    Ensures (Exhausts e.program) (e.analyze entry start scenario).result fun _ => True := by
  simp only [analyze, Traced.result_bind]
  exact (ensures_trace hprogram hcore hloops hentry).bind fun _ _ _ => trivial

end CycleBounds.Bound.Engine
