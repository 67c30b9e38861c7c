import CycleBounds.Proofs.Bound.Closure
import CycleBounds.Proofs.Bound.Completion
import CycleBounds.Proofs.Bound.Records

/-!
# The offset graphs of a run

A run stores the offset graph of every loop that it bounds by its offsets. It starts one part after
the other, and of a loop it follows the first iteration. Every graph that is stored has been
explored by a loop that has been started that way, from where its first iteration ends. The runs on
the side that find the costs of steady iterations may explore graphs of their own, and store none.

* `plan`, `PartOf`: the parts of a run.
* `graphs_region`: what calls and inner loops do to the graphs, bodies do.
* `adds_call`: the graphs that a part stores have been explored by loops that it reaches.
* `stored_graphs_closed`: all stored graphs are closed.
-/

namespace CycleBounds.Bound

namespace Engine

open Code (Program Procedure Loop Instruction)
open Run (Sweep Setting Plan)

/-! ### The parts of a run -/

/-- A block that is timed comes to a call: which procedure is called, when, and what has been
recorded until then. -/
def Issues (e : Engine) (call : Call) (scenario : Scenario) (relative : Bool) (p : Procedure)
    (b : Nat) (context : Context) (start : Nat) (bus : Bus.Tracker) (ledger : Ledger)
    (q time : Nat) (ledger' : Ledger) : Prop :=
  ∃ block done i rest a d bus', p.blocks[b]? = some block ∧
    e.sources scenario ⟨p.id, b, context⟩ block.instructions = done ++ i :: rest ∧
    done.foldlM (fun a i => (e.charge call scenario relative p b start a i).result)
      ⟨0, bus, ledger⟩ = .ok a ∧
    (e.fetch scenario relative i.2 (start + a.cost) a.bus).result = .ok (d, bus') ∧
    i.1.callee = some q ∧ time = start + (a.cost + d + e.platform.instrCost scenario) ∧
    ledger' = a.ledger

/-- How a run follows the parts of a program. In a setting, either the best or the worst case is
timed. Of a loop that is bounded by its offsets, the first iteration is a part of the run. -/
def plan (e : Engine) : Plan (Failure TimingError) Stamp Progress (Nat × Ledger) Scenario where
  program := e.program
  sweep x region := Engine.sweep e x.mode false (e.procedureAt x.calls)
    (e.loopAt (e.procedureAt x.calls) x.procedure x.loops) x.procedure region x.context
  enter called := (.moment called.1, ⟨∅, called.2⟩)
  Issues x b s progress q called := e.Issues (e.procedureAt x.calls) x.mode false x.procedure b
    x.context s.finish s.bus progress.ledger q called.1 called.2
  Repeats x _ _ s progress it mode s' progress' :=
    it = .first ∧ mode = x.mode ∧ s' = s ∧ progress' = progress

abbrev Part := Plan.Part Stamp Progress (Nat × Ledger) Scenario

/-- A part of the run that starts with a procedure. -/
abbrev PartOf (e : Engine) (scenario : Scenario) (entry start : Nat) : Part → Prop :=
  e.plan.Reached scenario entry (start, .empty)

def bodyAt (e : Engine) (x : Setting Scenario) (l : Nat) (loop : Loop) : Body :=
  bodyOf e (e.procedureAt x.calls) x.procedure (x.loops - 1) l loop

/-- A graph has been explored after the first iteration of a loop. -/
def ExploredBy (e : Engine) (schedule : Bus.Schedule) (x : Setting Scenario) (l : Nat) (s : Stamp)
    (progress : Progress) (g : Offset.Graph) : Prop :=
  ∃ loop progress₁ first, x.procedure.loops[l]? = some loop ∧
    (e.bodyAt x l loop x.mode false (x.context.nest .first) s progress).result = .ok progress₁ ∧
    progress₁.times.get? loop.sink = some first ∧
    Explored (e.bodyAt x l loop) schedule loop x.context first.finish g

/-- All graphs have been there before, or have been explored by a loop that a part reaches. -/
def Adds (e : Engine) (schedule : Bus.Schedule) (part : Part) (before after : Ledger) : Prop :=
  ∀ id l g, (id, l, g) ∈ after.graphs → (id, l, g) ∈ before.graphs ∨
    ∃ x s progress, Relation.ReflTransGen e.plan.Starts part (.loop x l s progress) ∧
      x.procedure.id = id ∧ e.ExploredBy schedule x l s progress g

variable {e : Engine} {scenario : Scenario} {relative : Bool} {call : Call} {inner : Inner}
  {p : Procedure} {b l n q start : Nat} {loop : Loop} {body : Body} {context : Context}
  {region : Option Nat} {s : Stamp} {bus : Bus.Tracker} {ledger ledger' : Ledger}
  {progress progress' : Progress}

/-! ### Graphs in ledgers -/

/-- A relation between ledgers that depends on their graphs only. -/
structure OfGraphs (R : Ledger → Ledger → Prop) : Prop where
  of_eq : ∀ {ledger ledger'}, ledger'.graphs = ledger.graphs → R ledger ledger'
  trans : ∀ {a b c}, R a b → R b c → R a c

theorem ofGraphs_eq : OfGraphs fun ledger ledger' => ledger'.graphs = ledger.graphs where
  of_eq := id
  trans h₁ h₂ := h₂.trans h₁

theorem graphs_stamp {procedure block : Nat} :
    (progress.stamp relative procedure block s).ledger.graphs = progress.ledger.graphs := by
  cases relative <;> rfl

theorem graphs_spread {finish : Nat} :
    (spread relative p loop start finish progress).ledger.graphs = progress.ledger.graphs := by
  unfold spread
  induction loop.blocks generalizing progress with
  | nil => rfl
  | cons b blocks ih => rw [List.foldl_cons, ih, graphs_stamp]

theorem graphs_recorded {timing : Timing} :
    (recorded relative q timing ledger).graphs = ledger.graphs := by
  cases relative <;> rfl

section Parts

variable {R : Ledger → Ledger → Prop}

/-- What calls do to the graphs where a block comes to them, the block does. -/
theorem graphs_block (hR : OfGraphs R)
    (hcall : ∀ {q time ledger₁ timing ledger₂},
      e.Issues call scenario relative p b context start bus ledger q time ledger₁ →
      (call scenario relative q time ledger₁).result = .ok (timing, ledger₂) → R ledger₁ ledger₂)
    (h : (e.block call scenario relative p b context start bus ledger).result =
      .ok (s, ledger')) : R ledger ledger' := by
  obtain ⟨block, a, hblock, hcharges, -, rfl, -⟩ := charges_of_block h
  refine foldlM_rel_after (R := fun a a' : Account => R a.ledger a'.ledger)
    (fun _ => hR.of_eq rfl) hR.trans ?_ hcharges
  intro done i rest a a' hsources hdone hcharge
  obtain ⟨d, hfetch, hcases⟩ := charge_eq_ok hcharge
  cases hc : i.1.callee with
  | none =>
    rw [hc] at hcases
    exact hR.of_eq (by rw [hcases.2])
  | some q =>
    rw [hc] at hcases
    obtain ⟨timing, hrun, -⟩ := hcases
    exact hcall ⟨block, done, i, rest, a, d, a'.bus, hblock, hsources, hdone, hfetch, hc, rfl, rfl⟩
      hrun

/-- What calls and inner loops do to the graphs where a body comes to them, the body does. -/
theorem graphs_region (hR : OfGraphs R) {order : List Nat}
    (hcall : ∀ {r s₁ progress₁ q time ledger₁ timing ledger₂},
      (sweep e scenario relative call inner p region context).Arrives order s progress r s₁
        progress₁ → (p.headerOf? r = none ∨ p.headerOf? r = region) →
      e.Issues call scenario relative p r context s₁.finish s₁.bus progress₁.ledger q time
        ledger₁ →
      (call scenario relative q time ledger₁).result = .ok (timing, ledger₂) → R ledger₁ ledger₂)
    (hinner : ∀ {r l s₁ progress₁ progress₂},
      (sweep e scenario relative call inner p region context).Arrives order s progress r s₁
        progress₁ → p.headerOf? r = some l → some l ≠ region →
      (inner scenario relative l context s₁ progress₁).result = .ok progress₂ →
      R progress₁.ledger progress₂.ledger)
    (h : (e.region call inner scenario relative p region context order s progress).result =
      .ok progress') : R progress.ledger progress'.ledger := by
  rw [region_result] at h
  refine Sweep.rel_of_arrivals (R := fun t u : Progress => R t.ledger u.ledger)
    (fun _ => hR.of_eq rfl) hR.trans ?_ h
  intro r s₁ progress₁ progress₂ harrives hvisit
  rcases visit_eq_ok hvisit with ⟨l, hh, hne, hl⟩ | ⟨hself, stamp, ledger, hblock, rfl⟩
  · exact hinner harrives hh hne hl
  · exact hR.trans (graphs_block hR (hcall harrives hself) hblock) (hR.of_eq graphs_stamp)

end Parts

/-! ### Other treatments of loops -/

section NoGraphs

variable (hoffsets : e.platform.loops ≠ .offsets)
include hoffsets

/-- Unrolled and summarised loops leave the graphs alone. Loops are in relative runs only if they
are summarised. -/
theorem graphs_loopAt_eq (hrelative : e.Occurs relative)
    (hcall : ∀ {relative q time ledger timing ledger'},
      (call scenario relative q time ledger).result = .ok (timing, ledger') →
      ledger'.graphs = ledger.graphs)
    (h : (e.loopAt call p n scenario relative l context s progress).result = .ok progress') :
    progress'.ledger.graphs = progress.ledger.graphs := by
  induction n generalizing relative l context s progress progress' with
  | zero => cases h
  | succ n ih =>
    -- bodies leave the graphs alone, as calls and inner loops do
    have hbody : ∀ relative {l loop context s progress progress'}, e.Occurs relative →
        (bodyOf e call p n l loop scenario relative context s progress).result = .ok progress' →
        progress'.ledger.graphs = progress.ledger.graphs := fun relative _ _ _ _ _ _ hrelative h =>
      graphs_region ofGraphs_eq (fun _ _ _ => hcall) (fun _ _ _ => ih hrelative) h
    obtain ⟨loop, hl, ⟨-, rfl⟩ | ⟨hbound, hloop⟩⟩ := loopAt_eq_ok h
    · exact graphs_spread
    cases hloops : e.platform.loops with
    | offsets => exact absurd hloops hoffsets
    | unroll =>
      obtain rfl := hrelative.eq_false (by simp [hloops])
      simp only [Engine.loop, hloops] at hloop
      obtain ⟨m, g, hg, rfl⟩ := unroll_stamps hbound hloop
      rw [graphs_stamp]
      have hrounds : ∀ k ≤ m, (g k).2.ledger.graphs = progress.ledger.graphs := by
        intro k hk
        induction k with
        | zero => rw [hg.start]
        | succ k ihk =>
          have hround := hbody false e.occurs_false (hg.runs k hk)
          exact hround.trans (ihk (Nat.le_of_succ_le hk))
      exact hrounds m (Nat.le_refl m)
    | summarize =>
      simp only [Engine.loop, hloops] at hloop
      obtain ⟨costs, ledger, k, cost, hsummary, -, -, rfl⟩ := summarize_eq_ok hloop
      rw [graphs_spread]
      rcases summary_cases hsummary with ⟨-, rfl⟩ | ⟨-, ledger₁, ledger₂, hfirst, hsteady, rfl⟩
      · rfl
      · obtain ⟨progress₁, hrun₁, rfl, -⟩ := relativeCost_eq_ok hfirst
        obtain ⟨progress₂, hrun₂, rfl, -⟩ := relativeCost_eq_ok hsteady
        have hfirst := hbody true (fun _ => hloops) hrun₁
        have hsteady := hbody true (fun _ => hloops) hrun₂
        exact hsteady.trans hfirst

/-- No call stores a graph unless loops are bounded by their offsets. -/
theorem graphs_procedureAt_eq {timing : Timing}
    (h : (e.procedureAt n scenario relative q start ledger).result = .ok (timing, ledger')) :
    ledger'.graphs = ledger.graphs := by
  induction n generalizing relative q start ledger timing ledger' with
  | zero => cases h
  | succ n ih =>
    obtain ⟨p, progress, finish, -, hregion, -, -, -, rfl⟩ := procedureAt_recorded h
    rw [graphs_recorded]
    refine graphs_region ofGraphs_eq (fun _ _ _ => ih) (fun _ _ _ => ?_) hregion
    exact graphs_loopAt_eq hoffsets e.occurs_false ih

end NoGraphs

/-! ### Stored graphs -/

variable {schedule : Bus.Schedule} {part part' : Part} {x : Setting Scenario}

theorem ofGraphs_adds (e : Engine) (schedule : Bus.Schedule) (part : Part) :
    OfGraphs (e.Adds schedule part) where
  of_eq heq id l g h := by
    rw [heq] at h
    exact .inl h
  trans h₁ h₂ id l g h := (h₂ id l g h).elim (h₁ id l g) .inr

/-- What a part adds, all parts that start it add. -/
theorem Adds.of_starts (hstarts : e.plan.Starts part part')
    (h : e.Adds schedule part' ledger ledger') :
    e.Adds schedule part ledger ledger' := by
  intro id l g hg
  refine (h id l g hg).imp_right ?_
  rintro ⟨x, s, progress, hreached, hid, hexplored⟩
  exact ⟨x, s, progress, hreached.head hstarts, hid, hexplored⟩

/-- A loop that is bounded by its offsets stores at most one graph after its first iteration. -/
theorem byOffsets_graphs
    (h : (e.byOffsets body schedule scenario false p l loop context s progress).result =
      .ok progress') :
    ∃ progress₁ first, (body scenario false (context.nest .first) s progress).result =
        .ok progress₁ ∧ progress₁.times.get? loop.sink = some first ∧
      (progress'.ledger.graphs = progress₁.ledger.graphs ∨
        ∃ g, Explored body schedule loop context first.finish g ∧
          progress'.ledger.graphs = progress₁.ledger.graphs ++ [(p.id, l, g)]) := by
  obtain ⟨n, progress₁, first, -, -, hrun, hsink, hcases⟩ := byOffsets_cases h
  refine ⟨progress₁, first, hrun, hsink, ?_⟩
  rcases hcases with ⟨-, rfl⟩ | ⟨-, g, solution, hexplored, -, rfl⟩
  · exact .inl graphs_spread
  · exact .inr ⟨g, hexplored, congrArg (· ++ _) graphs_spread⟩

section Offsets

variable (hloops : e.platform.loops = .offsets) (htimed : e.platform.bus.timed? = some schedule)

/-- A body stores the graphs that its calls and inner loops store. -/
theorem adds_body
    (hcalls : ∀ {q time ledger timing ledger'},
      (e.procedureAt x.calls x.mode false q time ledger).result = .ok (timing, ledger') →
      e.Adds schedule (.call x.calls x.mode q (time, ledger)) ledger ledger')
    (hinners : ∀ {l s progress progress'},
      (e.loopAt (e.procedureAt x.calls) x.procedure x.loops x.mode false l x.context s
        progress).result = .ok progress' →
      e.Adds schedule (.loop x l s progress) progress.ledger progress'.ledger)
    (h : (e.region (e.procedureAt x.calls) (e.loopAt (e.procedureAt x.calls) x.procedure x.loops)
      x.mode false x.procedure region x.context (x.procedure.orderOf region) s progress).result =
        .ok progress') :
    e.Adds schedule (.body x region s progress) progress.ledger progress'.ledger := by
  refine graphs_region (ofGraphs_adds e schedule _) ?_ ?_ h
  · intro r s₁ progress₁ q time ledger₁ timing ledger₂ harrives hself hissues hcall
    exact (hcalls hcall).of_starts (.call (k := (time, ledger₁)) harrives hself hissues)
  · intro r l s₁ progress₁ progress₂ harrives hh hne hinner
    exact (hinners hinner).of_starts (.inner harrives hh hne)

include hloops htimed

/-- The graphs that a loop stores are those of its first iteration and its own one. -/
theorem adds_loop
    (hcalls : ∀ {q time ledger timing ledger'},
      (e.procedureAt x.calls x.mode false q time ledger).result = .ok (timing, ledger') →
      e.Adds schedule (.call x.calls x.mode q (time, ledger)) ledger ledger')
    (h : (e.loopAt (e.procedureAt x.calls) x.procedure x.loops x.mode false l x.context s
      progress).result = .ok progress') :
    e.Adds schedule (.loop x l s progress) progress.ledger progress'.ledger := by
  induction hn : x.loops generalizing x l s progress progress' with
  | zero =>
    rw [hn] at h
    cases h
  | succ n ih =>
    rw [hn] at h
    have hgraphs := ofGraphs_adds e schedule (.loop x l s progress)
    obtain ⟨loop, hl, ⟨-, rfl⟩ | ⟨hbound, hloop⟩⟩ := loopAt_eq_ok h
    · exact hgraphs.of_eq graphs_spread
    simp only [Engine.loop, hloops, htimed] at hloop
    obtain ⟨progress₁, first, hrun, hsink, hstored⟩ := byOffsets_graphs hloop
    -- one loop less may be nested in the iterations
    have hnest : (x.nest .first x.mode).loops = n := by
      show x.loops - 1 = n
      omega
    have hbody : e.bodyAt x l loop = bodyOf e (e.procedureAt x.calls) x.procedure n l loop := by
      rw [bodyAt, hn]
      rfl
    have hfirst : e.Adds schedule (.loop x l s progress) progress.ledger
        progress₁.ledger := by
      refine Adds.of_starts (.iteration hl (Nat.ne_of_gt hbound) ⟨rfl, rfl, rfl, rfl⟩)
        (adds_body hcalls (fun hinner => ?_) ?_)
      · exact ih hcalls hinner hnest
      · have horder : (x.nest .first x.mode).procedure.orderOf (some l) = loop.order :=
          Procedure.orderOf_loop hl
        rw [hnest, horder]
        exact hrun
    rcases hstored with hsame | ⟨g, hexplored, hmore⟩
    · exact hgraphs.trans hfirst (hgraphs.of_eq hsame)
    · intro id l' g' hg'
      rw [hmore, List.mem_append, List.mem_singleton] at hg'
      -- a graph is from the first iteration, or it is the one that is stored now
      rcases hg' with hold | hnew
      · exact hfirst id l' g' hold
      · obtain ⟨rfl, rfl, rfl⟩ := hnew
        refine .inr ⟨x, s, progress, .refl, rfl, loop, progress₁, first, hl, ?_, hsink, ?_⟩
        · rw [hbody]
          exact hrun
        · rw [hbody]
          exact hexplored

/-- All graphs that a call stores have been explored by loops that it reaches. -/
theorem adds_call {timing : Timing}
    (h : (e.procedureAt n scenario false q start ledger).result = .ok (timing, ledger')) :
    e.Adds schedule (.call n scenario q (start, ledger)) ledger ledger' := by
  induction n generalizing q start ledger timing ledger' with
  | zero => cases h
  | succ n ih =>
    obtain ⟨p, progress, finish, hp, hregion, -, -, -, rfl⟩ := procedureAt_recorded h
    have hgraphs := ofGraphs_adds e schedule (.call (n + 1) scenario q (start, ledger))
    let x : Setting Scenario := ⟨p, .root, scenario, n, p.loops.length⟩
    have hbody : e.Adds schedule (.body x none (.moment start) ⟨∅, ledger⟩) ledger
        progress.ledger :=
      adds_body ih (fun hinner => adds_loop hloops htimed ih hinner) hregion
    exact hgraphs.trans (hbody.of_starts (.procedure hp)) (hgraphs.of_eq graphs_recorded)

end Offsets

/-- Blocks are timed with the calls of their own instructions. -/
theorem plan_faithful (e : Engine) : e.plan.Faithful := by
  rintro x b s progress q called ⟨block, done, i, rest, a, d, bus, hblock, hsplit, -, -, hcallee, -⟩
  have hi : i ∈ done ++ i :: rest := List.mem_append_right done List.mem_cons_self
  rw [← hsplit] at hi
  exact ⟨block, hblock, i.1, fst_mem_of_mem_sources hi, hcallee⟩

/-- All parts of a run are timed in the case in which the run is. -/
theorem PartOf.mode_eq {entry : Nat} (h : e.PartOf scenario entry start part) :
    part.mode = scenario := by
  induction h with
  | refl => rfl
  | tail _ hstarts ih =>
    rw [← ih]
    cases hstarts with
    | procedure | inner | call => rfl
    | iteration _ _ hrepeats => exact hrepeats.2.1

end Engine

open Code (Program)
open Run (Plan)
open Engine (Exhausts Closed)

/-- Stored graphs are closed. A procedure can be timed on a scheduled bus unless numbers overflow or
loops are nested too deep. Every graph that is stored then belongs to a loop to which the run has
come, and has been explored from where the first iteration of the loop ends: it has just the offsets
that steady iterations reach from there, with their costs and the transitions between them. -/
theorem stored_graphs_closed {program : Program} {analysis : Cache.Analysis} {platform : Platform}
    {schedule : Bus.Schedule} {core entry start : Nat} {scenario : Scenario} {e : Engine}
    (hprogram : program.Accepted) (hentry : entry < program.procedures.length)
    (hbus : platform.bus = .scheduled schedule)
    (hcore : (Engine.mk program analysis platform .embedded 0).onCore core = .ok e) :
    Ensures (Exhausts program) (e.trace entry start scenario).result fun outcome =>
      ∀ id l g, (id, l, g) ∈ outcome.2.graphs →
        ∃ x s progress loop progress₁ first, e.PartOf scenario entry start (.loop x l s progress) ∧
          program.procedures[id]? = some x.procedure ∧ x.procedure.loops[l]? = some loop ∧
          (e.bodyAt x l loop scenario false (x.context.nest .first) s progress).result =
            .ok progress₁ ∧
          progress₁.times.get? loop.sink = some first ∧
          Closed (e.bodyAt x l loop) loop x.context schedule.interval first.finish g := by
  obtain ⟨rfl, hscheduled⟩ := Engine.onCore_eq_ok hcore
  have htimed : platform.bus.timed? = some schedule := by
    rw [hbus]
    rfl
  refine (Engine.ensures_trace hprogram hscheduled (fun _ => rfl) hentry).imp ?_
  rintro ⟨timing, ledger⟩ hrun - id l g hg
  by_cases hoffsets : platform.loops = .offsets
  · rcases Engine.adds_call hoffsets htimed hrun id l g hg with hold | hnew
    · cases hold
    · obtain ⟨x, s, progress, hpart, rfl, loop, progress₁, first, hl, hfirst, hsink, hexplored⟩ :=
        hnew
      obtain ⟨rank, hranked⟩ := hprogram.exists_ranked
      have hplaced := Plan.Reached.placed hprogram hranked (Engine.plan_faithful _) hpart
      have hmode : x.mode = scenario := Engine.PartOf.mode_eq hpart
      exact ⟨x, s, progress, loop, progress₁, first, hpart, hplaced.1.self, hl, hmode ▸ hfirst,
        hsink, hexplored.closed⟩
  · have hnone := Engine.graphs_procedureAt_eq hoffsets hrun
    rw [hnone] at hg
    cases hg

/-- The graph of a loop with two branches, whose steady iterations start at all four offsets. -/
theorem stored_graphs_closed_forked :
    ∃ analysis e timing ledger g x s progress loop progress₁ first,
    let platform := shortPlatform.withLoops .offsets
    (platform.hierarchy.analyze ⟨[forked]⟩ 0).result = .ok analysis ∧
    (Engine.mk ⟨[forked]⟩ analysis platform .embedded 0).onCore 1 = .ok e ∧
    (e.trace 0 3 .worst).result = .ok (timing, ledger) ∧ (0, 0, g) ∈ ledger.graphs ∧
    g.nodes.size = 4 ∧ e.PartOf .worst 0 3 (.loop x 0 s progress) ∧
    (e.bodyAt x 0 loop .worst false (x.context.nest .first) s progress).result = .ok progress₁ ∧
    progress₁.times.get? loop.sink = some first ∧
    Closed (e.bodyAt x 0 loop) loop x.context 4 first.finish g := by
  have hcomputed : ((shortPlatform.hierarchy.analyze ⟨[forked]⟩ 0).result.toOption.bind fun a =>
      ((Engine.mk ⟨[forked]⟩ a (shortPlatform.withLoops .offsets) .embedded 0).onCore
        1).toOption.bind fun e =>
      (e.trace 0 3 .worst).result.toOption.map fun r =>
        r.2.graphs.map fun stored => (stored.1, stored.2.1, stored.2.2.nodes.size)) =
      some [(0, 0, 4)] := by
    decide +kernel
  obtain ⟨analysis, hanalysis, hrest⟩ := Option.bind_eq_some_iff.mp hcomputed
  obtain ⟨e, he, hrest⟩ := Option.bind_eq_some_iff.mp hrest
  obtain ⟨⟨timing, ledger⟩, hrun, hgraphs⟩ := Option.map_eq_some_iff.mp hrest
  rw [toOption_eq_some] at hanalysis he hrun
  obtain ⟨⟨id, l, g⟩, hg, hparts⟩ := List.mem_map.mp (hgraphs ▸ List.mem_singleton_self (0, 0, 4))
  simp only [Prod.mk.injEq] at hparts
  obtain ⟨rfl, rfl, hsize⟩ := hparts
  have hbus : (shortPlatform.withLoops .offsets).bus = .scheduled shortSlots := rfl
  have hclosed : Ensures (Exhausts ⟨[forked]⟩) (e.trace 0 3 .worst).result _ :=
    stored_graphs_closed forked_accepted (Nat.succ_pos 0) hbus he
  obtain ⟨x, s, progress, loop, progress₁, first, hpart, -, -, hfirst, hsink, hclosed⟩ :=
    hclosed.result hrun 0 0 g hg
  exact ⟨analysis, e, timing, ledger, g, x, s, progress, loop, progress₁, first, hanalysis, he,
    hrun, hg, hsize, hpart, hfirst, hsink, hclosed⟩

end CycleBounds.Bound
