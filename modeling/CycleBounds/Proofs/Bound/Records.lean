import CycleBounds.Proofs.Bound.Lookups
import CycleBounds.Proofs.Bound.Stamps
import CycleBounds.Proofs.Cache.Weakening

/-!
# Timed blocks and their records

Two rules say what a fetch costs in a context: one adds up the latencies of a record
(`Access.outcomes?`), and one times the fetch (`Engine.hits`). On a single level and a bus that is
not shared they agree, so a block takes what its record says, besides its instructions and the
procedures that it calls.

* `hits_eq_side`: both rules select the same outcome.
* `itemized_of_charges`: what a block costs that has been recorded.
* `Traced.Reports`: all reports of a computation have a property. The reports of a timing are
  followed from blocks to bodies, loops and calls like its look-ups.
* `block_costs_recorded`: every block is timed by its record, wherever a timing comes to it.
-/

namespace CycleBounds

/-! ### Reports -/

namespace Traced

variable {ε α β σ : Type} {P : Event → Prop}

theorem log_bind {x : Traced ε α} {a : α} (hx : x.result = .ok a) (f : α → Traced ε β) :
    (x >>= f).log = x.log ++ (f a).log := by
  obtain ⟨x, log⟩ := x
  obtain rfl : x = .ok a := hx
  rfl

def Reports (P : Event → Prop) (x : Traced ε α) : Prop :=
  ∀ event ∈ x.log, P event

namespace Reports

theorem of_silent {x : Traced ε α} (h : x.log = []) : x.Reports P := by
  intro event hevent
  rw [h] at hevent
  cases hevent

theorem pure (a : α) : (Pure.pure a : Traced ε α).Reports P :=
  of_silent rfl

theorem emit {event : Event} (h : P event) : (Traced.emit event : Traced ε Unit).Reports P := by
  intro event' hevent
  rw [List.mem_singleton.mp hevent]
  exact h

/-- A computation reports what its two steps report. -/
theorem bind {x : Traced ε α} {f : α → Traced ε β} (hx : x.Reports P)
    (hf : ∀ a, x.result = .ok a → (f a).Reports P) : (x >>= f).Reports P := by
  cases hresult : x.result with
  | error cause =>
    obtain ⟨x, log⟩ := x
    obtain rfl : x = .error cause := hresult
    exact hx
  | ok a =>
    intro event hevent
    rw [log_bind hresult, List.mem_append] at hevent
    exact hevent.elim (hx event) (hf a hresult event)

/-- A computation that is lifted reports nothing. -/
theorem lift_bind {x : Except Fault α} {f : α → Traced (Failure ε) β}
    (hf : ∀ a, x = .ok a → (f a).Reports P) :
    (liftM x >>= f : Traced (Failure ε) β).Reports P := by
  refine bind (of_silent rfl) fun a ha => hf a ?_
  rwa [result_liftM_except, mapError_eq_ok] at ha

theorem foldlM {f : σ → α → Traced ε σ} {xs : List α} (h : ∀ x ∈ xs, ∀ s, (f s x).Reports P)
    (s : σ) : (xs.foldlM f s).Reports P := by
  induction xs generalizing s with
  | nil => exact pure s
  | cons x xs ih =>
    rw [List.foldlM_cons]
    exact bind (h x List.mem_cons_self s) fun t _ =>
      ih (fun y hy => h y (List.mem_cons_of_mem x hy)) t

theorem iterate {f : σ → Traced ε σ} (h : ∀ s, (f s).Reports P) (n : Nat) (s : σ) :
    (Traced.iterate f n s).Reports P := by
  induction n generalizing s with
  | zero => exact pure s
  | succ n ih =>
    rw [iterate_succ]
    exact bind (h s) fun t _ => ih t

end Reports

end Traced

namespace Bound.Engine

open Code (Program Procedure Loop Instruction)
open Cache (Access Place Record)
open Run (places)

variable {e : Engine} {entry : Nat} {call : Call} {inner : Inner} {scenario : Scenario}
  {relative : Bool} {p : Procedure} {context : Context} {region : Option Nat} {b start : Nat}

/-! ### Fetches -/

/-- Both rules say the same of a fetch that reaches the level. -/
theorem hits_eq_side {a : Access} {o : Bool × Bool} (ho : a.outcomes? context = some o) :
    hits scenario context a = scenario.side o := by
  cases a <;> cases ho <;> cases scenario <;> simp [hits, Scenario.side, Access.isHit]

/-- A program is timed by the analysis of a single level in front of a bus that is not shared. -/
structure SingleLevel (e : Engine) (entry : Nat) : Prop where
  accepted : e.program.Accepted
  unshared : e.platform.bus = .unshared
  single : e.platform.hierarchy.l2 = none
  analyzed : (e.platform.hierarchy.analyze e.program entry).result = .ok e.analysis

/-- Without a shared bus, a fetch takes the latency that its class has at the level. -/
theorem SingleLevel.fetchSpan_eq (h : e.SingleLevel entry) {a : Access} (ha : a ≠ .hitUpper)
    (scenario : Scenario) (context : Context) :
    e.fetchSpan scenario (source scenario context a none) 0 =
      a.cost e.platform.hierarchy.l1 context scenario := by
  obtain ⟨o, ho⟩ := Option.ne_none_iff_exists'.mp (mt Access.outcomes?_eq_none_iff.mp ha)
  have hmiss : e.fetchSpan scenario .memory 0 = e.platform.hierarchy.l1.missLatency := by
    unfold fetchSpan
    rw [h.unshared, Cache.Hierarchy.missPenalty, h.single]
    rfl
  rw [Access.cost_of_outcomes ho, source, hits_eq_side ho]
  cases scenario.side o with
  | true => rfl
  | false => exact hmiss

/-! ### Blocks -/

/-- Procedures are called one after the other, each with the ledger that the one before has left. -/
inductive CallsInTurn (call : Call) (scenario : Scenario) (relative : Bool) :
    List Nat → Ledger → List Timing → Ledger → Prop
  | nil (ledger : Ledger) : CallsInTurn call scenario relative [] ledger [] ledger
  | cons {q time : Nat} {qs : List Nat} {timing : Timing} {timings : List Timing}
      {before between after : Ledger} :
      (call scenario relative q time before).result = .ok (timing, between) →
      CallsInTurn call scenario relative qs between timings after →
      CallsInTurn call scenario relative (q :: qs) before (timing :: timings) after

/-- Instructions cost their fetches, a fixed time each, and the procedures that they call. -/
theorem costs_of_charges (hbus : e.platform.bus.timed? = none) {is : List (Instruction × Source)}
    {a a' : Account}
    (h : is.foldlM (fun a i => (e.charge call scenario relative p b start a i).result) a = .ok a') :
    ∃ timings, CallsInTurn call scenario relative (is.filterMap (·.1.callee)) a.ledger timings
        a'.ledger ∧
      a'.cost = a.cost + (is.map fun i => e.fetchSpan scenario i.2 0).sum +
        is.length * e.platform.instrCost scenario + (timings.map (·.cost)).sum := by
  induction is generalizing a with
  | nil =>
    obtain rfl := pure_eq_ok.mp h
    exact ⟨[], .nil _, by simp⟩
  | cons i is ih =>
    obtain ⟨a₁, hcharge, h⟩ := foldlM_cons_eq_ok.mp h
    obtain ⟨timings, hcalls, hcost⟩ := ih h
    obtain ⟨d, hfetch, hcases⟩ := charge_eq_ok hcharge
    -- no slot is waited for, so the fetch takes as long as it would at time zero
    have hd := fetch_untimed hbus hfetch
    cases hc : i.1.callee with
    | none =>
      rw [hc] at hcases
      obtain ⟨hcost₁, hledger⟩ := hcases
      rw [hledger] at hcalls
      refine ⟨timings, by simpa [hc] using hcalls, ?_⟩
      rw [hcost, hcost₁, hd, List.map_cons, List.sum_cons, List.length_cons, Nat.succ_mul]
      omega
    | some q =>
      rw [hc] at hcases
      obtain ⟨timing, hcall, hcost₁⟩ := hcases
      refine ⟨timing :: timings, by simpa [hc] using CallsInTurn.cons hcall hcalls, ?_⟩
      rw [hcost, hcost₁, hd, List.map_cons, List.sum_cons, List.length_cons, Nat.succ_mul,
        List.map_cons, List.sum_cons]
      omega

/-- A cost consists of the recorded cost of a block, the cost of its instructions, and those of the
procedures that it calls. -/
def Itemized (e : Engine) (call : Call) (scenario : Scenario) (relative : Bool) (p : Procedure)
    (b : Nat) (context : Context) (before : Ledger) (cost : Nat) (after : Ledger) : Prop :=
  ∃ block r timings, p.blocks[b]? = some block ∧
    e.analysis.l1.get? ⟨p.id, b, context⟩ = some r ∧
    CallsInTurn call scenario relative (block.instructions.filterMap (·.callee)) before timings
      after ∧
    cost = r.bound scenario + block.instructions.length * e.platform.instrCost scenario +
      (timings.map (·.cost)).sum

/-- The record of a block has one fetch per instruction, all of which reach the level, and the cost
of these fetches. -/
theorem SingleLevel.record (h : e.SingleLevel entry) {block : Code.Block}
    (hp : e.program.procedures[p.id]? = some p) (hblock : p.blocks[b]? = some block)
    (hplace : ⟨p.id, b, context⟩ ∈ places e.program entry) (scenario : Scenario) :
    ∃ r, e.analysis.l1.get? ⟨p.id, b, context⟩ = some r ∧
      r.fetches.length = block.instructions.length ∧
      (∀ f ∈ r.fetches, f.access ≠ .hitUpper) ∧
      r.bound scenario = Record.cost e.platform.hierarchy.l1 context scenario r.fetches := by
  obtain ⟨first, hfirst, hl₁, -⟩ := Cache.Hierarchy.analyze_eq_ok h.analyzed
  rw [hl₁]
  have hcomplete := Cache.Level.analyze_complete h.accepted hfirst
  have hlocated := Cache.Level.analyze_located h.accepted hfirst
  have hserved : Cache.Level.Served ⟨e.program, e.platform.hierarchy.l1, none⟩
      first.classification :=
    (Cache.Level.analyze_records h.accepted hfirst).served nofun
  obtain ⟨r, hr⟩ := Option.isSome_iff_exists.mp ((hcomplete.recorded _).mpr hplace)
  refine ⟨r, hr, ?_, ?_, ?_⟩
  · obtain ⟨p', block', hp', hblock', hlines⟩ := hcomplete.fetches hr
    obtain rfl := Option.some.inj (hp.symm.trans hp')
    obtain rfl := Option.some.inj (hblock.symm.trans hblock')
    simpa using congrArg List.length hlines
  · intro f hf
    -- there is no level above that could serve the fetch
    obtain ⟨n, hn⟩ := List.getElem?_of_mem hf
    rw [ne_eq, hserved hr hn]
    rintro (habove | ⟨age, habove⟩) <;> cases habove
  · have hcounted := hlocated.built.counted hr
    rw [hlocated.config] at hcounted
    rw [← Record.bound_counted, hcounted]

theorem SingleLevel.l2_eq_none (h : e.SingleLevel entry) : e.analysis.l2 = none := by
  obtain ⟨first, -, -, hlast⟩ := Cache.Hierarchy.analyze_eq_ok h.analyzed
  rw [h.single] at hlast
  exact hlast.1

/-- The fetches of a block are timed as they are recorded. -/
theorem SingleLevel.spans_eq (h : e.SingleLevel entry) {place : Place} {is : List Instruction}
    {r : Record} (hr : e.analysis.l1.get? place = some r) (hlen : r.fetches.length = is.length)
    (hreach : ∀ f ∈ r.fetches, f.access ≠ .hitUpper) :
    (e.sources scenario place is).map (fun i => e.fetchSpan scenario i.2 0) =
      r.fetches.map fun f => f.access.cost e.platform.hierarchy.l1 place.context scenario := by
  apply List.ext_getElem?
  intro n
  rw [List.getElem?_map, sources_getElem?, List.getElem?_map]
  cases hf : r.fetches[n]? with
  | none =>
    have hn : is[n]? = none := by
      rw [List.getElem?_eq_none_iff] at hf ⊢
      rwa [← hlen]
    rw [hn]
    rfl
  | some f =>
    have hn : n < is.length := hlen ▸ (List.getElem?_eq_some_iff.mp hf).1
    -- the source of the fetch is read off its recorded class
    have hsource : e.sourceAt scenario place n = source scenario place.context f.access none := by
      rw [sourceAt, h.l2_eq_none, Cache.Classification.access?, hr, Option.bind_some, hf]
      rfl
    have hspan := h.fetchSpan_eq (hreach f (List.mem_of_getElem? hf)) scenario place.context
    rw [List.getElem?_eq_getElem hn, Option.map_some, Option.map_some, Option.map_some, hsource,
      hspan]

theorem map_fst_sources (e : Engine) (scenario : Scenario) (place : Place)
    (is : List Instruction) :
    (e.sources scenario place is).map (·.1) = is := by
  apply List.ext_getElem?
  intro n
  rw [List.getElem?_map, sources_getElem?, Option.map_map]
  cases is[n]? <;> rfl

/-- The cost of a block is itemized when its instructions have been charged. -/
theorem SingleLevel.itemized_of_charges (h : e.SingleLevel entry) {block : Code.Block}
    (hp : e.program.procedures[p.id]? = some p) (hblock : p.blocks[b]? = some block)
    (hplace : ⟨p.id, b, context⟩ ∈ places e.program entry) {bus : Bus.Tracker} {ledger : Ledger}
    {a : Account} (hcharges : (e.sources scenario ⟨p.id, b, context⟩ block.instructions).foldlM
      (fun a i => (e.charge call scenario relative p b start a i).result) ⟨0, bus, ledger⟩ =
        .ok a) :
    e.Itemized call scenario relative p b context ledger a.cost a.ledger := by
  have hbus : e.platform.bus.timed? = none := by
    rw [h.unshared]
    rfl
  obtain ⟨timings, hcalls, hcost⟩ := costs_of_charges hbus hcharges
  obtain ⟨r, hr, hlen, hreach, hbound⟩ := h.record hp hblock hplace scenario
  refine ⟨block, r, timings, hblock, hr, ?_, ?_⟩
  · rwa [← map_fst_sources e scenario ⟨p.id, b, context⟩ block.instructions, List.filterMap_map]
  · rw [hcost, h.spans_eq hr hlen hreach, length_sources, hbound, Nat.zero_add]
    rfl

/-- A block that is timed charges its instructions and reports their cost. -/
theorem charges_of_block {bus : Bus.Tracker} {ledger ledger' : Ledger} {stamp : Stamp}
    (h : (e.block call scenario relative p b context start bus ledger).result =
      .ok (stamp, ledger')) :
    ∃ block a, p.blocks[b]? = some block ∧
      (e.sources scenario ⟨p.id, b, context⟩ block.instructions).foldlM
        (fun a i => (e.charge call scenario relative p b start a i).result) ⟨0, bus, ledger⟩ =
          .ok a ∧
      stamp = ⟨start, start + a.cost, a.bus⟩ ∧ ledger' = a.ledger ∧
      .blockTimed p.name b context start a.cost ∈
        (e.block call scenario relative p b context start bus ledger).log := by
  unfold block at h ⊢
  rw [Traced.result_bind] at h
  obtain ⟨block, hblock, h⟩ := bind_eq_ok.mp h
  rw [Traced.log_bind hblock]
  rw [Traced.result_bind] at h
  obtain ⟨a, hcharges, h⟩ := bind_eq_ok.mp h
  rw [Traced.log_bind hcharges]
  simp only [Traced.result_bind, Traced.result_emit, Traced.result_liftM_except,
    Traced.result_pure] at h
  obtain ⟨⟨⟩, -, h⟩ := bind_eq_ok.mp h
  obtain ⟨finish, hfinish, h⟩ := bind_eq_ok.mp h
  rw [mapError_eq_ok] at hfinish
  obtain ⟨-, rfl⟩ := Word.add_eq_ok_iff.mp hfinish
  obtain ⟨rfl, rfl⟩ := Prod.mk.inj (Except.ok.inj h)
  rw [Traced.result_liftM_except, mapError_eq_ok] at hblock
  rw [Traced.result_foldlM] at hcharges
  refine ⟨block, a, entryAt_eq_ok.mp hblock, hcharges, rfl, rfl, ?_⟩
  -- the report comes after what the instructions report
  refine List.mem_append_right _ (List.mem_append_right _ ?_)
  rw [Traced.log_bind (Traced.result_emit _)]
  exact List.mem_append_left _ (List.mem_singleton.mpr rfl)

/-! ### Reported blocks -/

/-- A block that is reported is one of the places from the entry, and its cost is itemized. -/
def TimedByRecord (e : Engine) (entry : Nat) (scenario : Scenario) : Event → Prop
  | .blockTimed name b context _ cost => ∃ p n relative before after,
      e.program.procedures[p.id]? = some p ∧ p.name = name ∧
      ⟨p.id, b, context⟩ ∈ places e.program entry ∧
      e.Itemized (e.procedureAt n) scenario relative p b context before cost after
  | _ => True

def CallsReport (e : Engine) (entry : Nat) (scenario : Scenario) (call : Call) : Prop :=
  ∀ q, e.program.Included entry q → ∀ relative time ledger,
    (call scenario relative q time ledger).Reports (e.TimedByRecord entry scenario)

theorem log_fetch (hbus : e.platform.bus = .unshared) {source : Source} {time : Nat}
    {bus : Bus.Tracker} : (e.fetch scenario relative source time bus).log = [] := by
  cases source <;> cases relative <;> simp only [fetch, transfer, hbus] <;> rfl

/-- An instruction reports blocks by their records if its call does. -/
theorem reports_charge (h : e.SingleLevel entry) {a : Account} {i : Instruction × Source}
    (hcall : ∀ q, i.1.callee = some q → ∀ time ledger,
      (call scenario relative q time ledger).Reports (e.TimedByRecord entry scenario)) :
    (e.charge call scenario relative p b start a i).Reports (e.TimedByRecord entry scenario) := by
  unfold charge
  refine .lift_bind fun time _ => ?_
  refine .bind (.of_silent (log_fetch h.unshared)) fun fetched _ => ?_
  refine .lift_bind fun cost _ => .lift_bind fun cost _ => ?_
  cases hc : i.1.callee with
  | none => exact .pure _
  | some q =>
    refine .lift_bind fun time _ => ?_
    refine .bind (hcall q hc time a.ledger) fun returned _ => ?_
    refine .lift_bind fun cost _ => .lift_bind fun callee _ => ?_
    exact .bind (.emit trivial) fun _ _ => .pure _

/-- A block reports itself, and what its calls report. -/
theorem reports_block {n : Nat} (h : e.SingleLevel entry)
    (hcalls : CallsReport e entry scenario (e.procedureAt n))
    (hp : e.program.procedures[p.id]? = some p) (hincluded : e.program.Included entry p.id)
    (hruns : p.Runs b) (hdepth : p.depth b = .ok context.depth) (bus : Bus.Tracker)
    (ledger : Ledger) :
    (e.block (e.procedureAt n) scenario relative p b context start bus ledger).Reports
      (e.TimedByRecord entry scenario) := by
  unfold block
  refine .lift_bind fun block hblock => ?_
  have hblock : p.blocks[b]? = some block := entryAt_eq_ok.mp hblock
  have hplace : Place.mk p.id b context ∈ places e.program entry :=
    ⟨hincluded, p, hp, hruns, hdepth⟩
  refine .bind (.foldlM (fun i hi a => reports_charge h fun q hq time ledger => ?_) _)
    fun a hcharges => ?_
  · -- the callee is reached from the entry as well, through this block
    have hinstruction := fst_mem_of_mem_sources hi
    exact hcalls q (hincluded.call ⟨p, b, block, i.1, hp, hruns, hblock, hinstruction, hq⟩) _ _ _
  · rw [Traced.result_foldlM] at hcharges
    have hitems := h.itemized_of_charges hp hblock hplace hcharges
    refine .bind (.emit ⟨p, n, relative, ledger, a.ledger, hp, rfl, hplace, hitems⟩) fun _ _ => ?_
    exact .lift_bind fun finish _ => .pure _

/-! ### Bodies and loops -/

def InnersReport (e : Engine) (entry : Nat) (scenario : Scenario) (p : Procedure)
    (region : Option Nat) (context : Context) (inner : Inner) : Prop :=
  ∀ r l, r ∈ p.orderOf region → p.headerOf? r = some l → some l ≠ region →
    ∀ relative before progress,
      (inner scenario relative l context before progress).Reports (e.TimedByRecord entry scenario)

/-- A block of a body reports blocks by their records, and so does an inner loop. -/
theorem reports_visit {r n : Nat} (h : e.SingleLevel entry)
    (hcalls : CallsReport e entry scenario (e.procedureAt n))
    (hp : e.program.procedures[p.id]? = some p) (hincluded : e.program.Included entry p.id)
    (hlive : p.Live region context) (hinner : InnersReport e entry scenario p region context inner)
    (hr : r ∈ p.orderOf region) (before : Stamp) (progress : Progress) :
    (e.visit (e.procedureAt n) inner scenario relative p region context r before progress).Reports
      (e.TimedByRecord entry scenario) := by
  unfold visit
  refine .lift_bind fun block hblock => ?_
  have hcases := Procedure.headerOf?_cases (entryAt_eq_ok.mp hblock) region
  cases hfilter : block.headerOf.filter fun l => some l ≠ region with
  | some l =>
    rw [hfilter] at hcases
    exact hinner r l hr hcases.1 hcases.2 relative before progress
  | none =>
    rw [hfilter] at hcases
    obtain ⟨hruns, hdepth⟩ :=
      hlive.block (h.accepted.shaped hp) (h.accepted.wellFormed hp) hr hcases
    exact .bind (reports_block h hcalls hp hincluded hruns hdepth _ _) fun stamped _ => .pure _

/-- A body reports the blocks in it by their records. -/
theorem reports_region {n : Nat} (h : e.SingleLevel entry)
    (hcalls : CallsReport e entry scenario (e.procedureAt n))
    (hp : e.program.procedures[p.id]? = some p) (hincluded : e.program.Included entry p.id)
    (hlive : p.Live region context) (hinner : InnersReport e entry scenario p region context inner)
    (before : Stamp) (progress : Progress) :
    (e.region (e.procedureAt n) inner scenario relative p region context (p.orderOf region) before
      progress).Reports (e.TimedByRecord entry scenario) := by
  have hvisit : ∀ r ∈ p.orderOf region, ∀ before progress,
      (e.visit (e.procedureAt n) inner scenario relative p region context r before
        progress).Reports (e.TimedByRecord entry scenario) :=
    fun r hr => reports_visit h hcalls hp hincluded hlive hinner hr
  cases horder : p.orderOf region with
  | nil => exact .pure _
  | cons r rest =>
    rw [horder] at hvisit
    refine .bind (hvisit r List.mem_cons_self before progress) fun progress _ => ?_
    refine .foldlM (fun x hx progress => ?_) progress
    exact .lift_bind fun before _ => hvisit x (List.mem_cons_of_mem r hx) before progress

section Loops

variable {body : Body} {id : Nat} {loop : Loop}

def BodyReports (e : Engine) (entry : Nat) (scenario : Scenario) (context : Context)
    (body : Body) : Prop :=
  ∀ it relative before progress,
    (body scenario relative (context.nest it) before progress).Reports
      (e.TimedByRecord entry scenario)

/-- Inside of a loop, only the contexts of its iterations matter. -/
theorem reports_enter {α : Type} {P : Event → Prop} {it : Iteration} {f : Context → Timed α}
    (h : (f (context.nest it)).Reports P) :
    (liftM (context.enter it) >>= f : Timed α).Reports P := by
  refine .lift_bind fun inside hinside => ?_
  rw [Context.enter_eq_ok hinside]
  exact h

theorem reports_iteration (hbody : BodyReports e entry scenario context body) (it : Iteration)
    (s : Stamp × Progress) :
    (iteration body scenario relative p id loop context it s).Reports
      (e.TimedByRecord entry scenario) := by
  refine reports_enter (.bind (hbody it relative s.1 s.2) fun progress _ => ?_)
  exact .lift_bind fun sink _ => .lift_bind fun _ _ => .pure _

theorem reports_unroll (hbody : BodyReports e entry scenario context body) (before : Stamp)
    (progress : Progress) :
    (unroll body scenario relative p id loop context before progress).Reports
      (e.TimedByRecord entry scenario) := by
  unfold unroll
  refine .lift_bind fun n _ => .bind (reports_iteration hbody .first _) fun first _ => ?_
  refine .bind (.iterate (reports_iteration hbody .steady) _ first) fun last _ => ?_
  exact .bind (.emit trivial) fun _ _ => .pure _

theorem reports_relativeCost (hbody : BodyReports e entry scenario context body) (it : Iteration)
    (ledger : Ledger) :
    (relativeCost body scenario loop (context.nest it) ledger).Reports
      (e.TimedByRecord entry scenario) := by
  refine .bind (hbody it true _ _) fun progress _ => ?_
  cases scenario with
  | worst => exact .pure _
  | best => exact .lift_bind fun sink _ => .pure _

theorem reports_summary (hbody : BodyReports e entry scenario context body) (ledger : Ledger) :
    (summary body scenario p loop context ledger).Reports (e.TimedByRecord entry scenario) := by
  unfold summary
  dsimp only
  split
  · exact .pure _
  · refine reports_enter (.bind (reports_relativeCost hbody .first _) fun first _ => ?_)
    exact reports_enter (.bind (reports_relativeCost hbody .steady _) fun steady _ => .pure _)

theorem reports_summarize (hbody : BodyReports e entry scenario context body)
    (progress : Progress) :
    (e.summarize body scenario relative p id loop context start progress).Reports
      (e.TimedByRecord entry scenario) := by
  unfold summarize
  refine .bind (reports_summary hbody _) fun costs _ => ?_
  refine .lift_bind fun n _ => .lift_bind fun rest _ => .lift_bind fun cost _ => ?_
  exact .bind (.emit trivial) fun _ _ => .lift_bind fun finish _ => .pure _

/-- Without a schedule, loops are unrolled or summarised. -/
theorem reports_loop (h : e.SingleLevel entry)
    (hbody : BodyReports e entry scenario context body) (before : Stamp) (progress : Progress) :
    (e.loop body scenario relative p id loop context before progress).Reports
      (e.TimedByRecord entry scenario) := by
  unfold Engine.loop
  split
  · exact reports_summarize hbody progress
  · rename_i hschedule
    rw [h.unshared] at hschedule
    cases hschedule
  · exact reports_unroll hbody before progress

end Loops

/-- Loops report the blocks in them by their records, however deep they nest. -/
theorem innersReport_loopAt {m : Nat} (h : e.SingleLevel entry)
    (hcalls : CallsReport e entry scenario (e.procedureAt m))
    (hp : e.program.procedures[p.id]? = some p) (hincluded : e.program.Included entry p.id)
    (n : Nat) (hlive : p.Live region context) :
    InnersReport e entry scenario p region context (e.loopAt (e.procedureAt m) p n) := by
  induction n generalizing region context with
  | zero =>
    intro r l _ _ _ relative before progress
    exact .of_silent rfl
  | succ n ih =>
    intro r l hr hh hne relative before progress
    refine .lift_bind fun loop hloop => ?_
    have hl : p.loops[l]? = some loop := entryAt_eq_ok.mp hloop
    by_cases hzero : loop.bound = 0
    · -- a loop that never runs reports no block
      rw [if_pos hzero]
      exact .bind (.emit trivial) fun _ _ => .pure _
    · rw [if_neg hzero]
      refine reports_loop h (fun it relative before progress => ?_) before progress
      have hinner := hlive.inner (h.accepted.shaped hp) (h.accepted.wellFormed hp) hr hh hne hl
        (Nat.pos_of_ne_zero hzero) it
      rw [← Procedure.orderOf_loop hl]
      exact reports_region h hcalls hp hincluded hinner (ih hinner) before progress

/-! ### Procedures -/

/-- Calls report the blocks of all included procedures by their records. -/
theorem callsReport_procedureAt (h : e.SingleLevel entry) (n : Nat) :
    CallsReport e entry scenario (e.procedureAt n) := by
  induction n with
  | zero =>
    intro q _ relative time ledger
    exact .of_silent rfl
  | succ n ih =>
    intro q hincluded relative time ledger
    refine .lift_bind fun p hp => ?_
    have hq : e.program.procedures[q]? = some p := entryAt_eq_ok.mp hp
    obtain rfl := h.accepted.id_eq hq
    have hlive : p.Live none .root := Procedure.live_root
    have hinner := innersReport_loopAt h ih hq hincluded p.loops.length hlive
    refine .bind (reports_region h ih hq hincluded hlive hinner _ _) fun progress _ => ?_
    refine .lift_bind fun finish _ => .lift_bind fun _ _ => ?_
    refine .bind (.emit trivial) fun _ _ => ?_
    cases relative with
    | true => exact .pure _
    | false => exact .pure _

end Bound.Engine

namespace Bound

open Code (Procedure)
open Run (places)

/-- Blocks cost what is recorded for them. On a single level and a bus that is not shared, a block
from the entry that is timed takes the recorded cost of its fetches, the cost of its instructions,
and the costs of the procedures that it calls, and this is what is reported of it. However loops are
treated, the timing from the entry reports no other blocks and no other costs. -/
theorem block_costs_recorded {e : Engine} {entry : Nat} (h : e.SingleLevel entry)
    (scenario : Scenario) :
    (∀ (p : Procedure) b context, e.program.procedures[p.id]? = some p →
      ⟨p.id, b, context⟩ ∈ places e.program entry →
      ∀ call relative start bus before stamp after,
        (e.block call scenario relative p b context start bus before).result =
          .ok (stamp, after) →
        stamp.start = start ∧ start ≤ stamp.finish ∧
        e.Itemized call scenario relative p b context before (stamp.finish - start) after ∧
        .blockTimed p.name b context start (stamp.finish - start) ∈
          (e.block call scenario relative p b context start bus before).log) ∧
    ∀ start, (e.trace entry start scenario).Reports (e.TimedByRecord entry scenario) := by
  refine ⟨fun p b context hp hplace call relative start bus before stamp after hblock => ?_, ?_⟩
  · obtain ⟨block, a, hget, hcharges, rfl, rfl, hlog⟩ := Engine.charges_of_block hblock
    have hcost : start + a.cost - start = a.cost := Nat.add_sub_cancel_left start a.cost
    refine ⟨rfl, Nat.le_add_right _ _, ?_⟩
    rw [hcost]
    exact ⟨h.itemized_of_charges hp hget hplace hcharges, hlog⟩
  · intro start
    exact Engine.callsReport_procedureAt h _ entry .entry false start .empty

def blockCost? (b : Nat) : Event → Option Nat
  | .blockTimed _ b' _ _ cost => if b' = b then some cost else none
  | _ => none

/-- The block of a loop takes six cycles for a miss and a procedure that it calls. -/
theorem block_costs_recorded_spinning : ∃ analysis event,
    (spinningEngine analysis).SingleLevel 0 ∧
    event ∈ ((spinningEngine analysis).trace 0 100 .worst).log ∧ blockCost? 0 event = some 6 ∧
    (spinningEngine analysis).TimedByRecord 0 .worst event := by
  have hcomputed :
      ((lonePlatform.hierarchy.analyze ⟨[spinning, relaying, resting]⟩ 0).result.toOption.map
        fun a => ((spinningEngine a).trace 0 100 .worst).log.filterMap (blockCost? 0)) =
      some [2, 4, 6, 2, 4, 6] := by
    decide +kernel
  obtain ⟨analysis, hanalysis, hcosts⟩ := Option.map_eq_some_iff.mp hcomputed
  have hmem : 6 ∈ ((spinningEngine analysis).trace 0 100 .worst).log.filterMap (blockCost? 0) := by
    rw [hcosts]
    decide
  obtain ⟨event, hevent, hcost⟩ := List.mem_filterMap.mp hmem
  have hlevel : (spinningEngine analysis).SingleLevel 0 :=
    ⟨spinning_accepted, rfl, rfl, toOption_eq_some.mp hanalysis⟩
  exact ⟨analysis, event, hlevel, hevent, hcost,
    (block_costs_recorded hlevel .worst).2 100 event hevent⟩

end Bound

end CycleBounds
