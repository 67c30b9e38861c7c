import CycleBounds.Proofs.Bound.Exploration
import CycleBounds.Proofs.Bound.Optimum

/-!
# Loops by their offsets bound all paths

The rounds of an offset graph are walked one after another, every one with the cost that the graph
has for it. That is one of the walks which the solver bounds, and its times bound all paths through
the loop: a round takes as long at a time as it takes at the offset of the time.

* `Complete.exists_walk`: the walk that always takes the cost of a node.
* `boundsLoops_offsets`: loops that are bounded by their offsets bound all paths.
-/

namespace CycleBounds.Bound.Engine

open Code (Procedure Loop)
open Offset (Graph Node Objective Reaches Walks)
open Run (Issue)

variable {e : Engine} {actual bound scenario : Scenario} {body : Body} {p : Procedure} {l : Nat}
  {loop : Loop} {context : Context} {entry first : Stamp} {progress progress' progress₁ : Progress}
  {g : Graph} {s : Bus.Schedule} {n m weight interval time start : Nat}

theorem bounds_ofScenario {a b : Nat} :
    (Objective.ofScenario scenario).Bounds a b ↔ scenario.Bounds a b := by
  cases scenario <;> rfl

/-- The cost from an offset is found by a run from that time on with an empty ledger. -/
theorem steadyCost_eq_ok {offset cost : Nat}
    (h : (steadyCost body scenario loop context offset).result = .ok cost) :
    ∃ progress sink, (body scenario false (context.nest .steady) (.moment offset)
        ⟨∅, .empty⟩).result = .ok progress ∧
      progress.times.get? loop.sink = some sink ∧ sink.finish = offset + cost := by
  simp only [steadyCost, Traced.result_bind, Traced.result_liftM_except] at h
  obtain ⟨context', henter, h⟩ := bind_eq_ok.mp h
  obtain ⟨progress, hrun, h⟩ := bind_eq_ok.mp h
  obtain ⟨sink, hsink, h⟩ := bind_eq_ok.mp h
  rw [mapError_eq_ok] at henter hsink
  obtain ⟨hle, rfl⟩ := Word.sub_eq_ok_iff.mp (mapError_eq_ok.mp h)
  cases Context.enter_eq_ok henter
  exact ⟨progress, sink, hrun, stampOf_eq_ok.mp hsink, (Nat.add_sub_cancel' hle).symm⟩

/-! ### A walk through the offsets -/

/-- A round from the offset of node `n` takes at most (at worst) or at least (at best) the weight of
the node, after which the walk goes on at node `m`. -/
def Passes (body : Body) (loop : Loop) (context : Context) (scenario : Scenario) (g : Graph)
    (n weight m : Nat) : Prop :=
  ∃ (node : Node) (cost : Nat), g.nodes[n]? = some node ∧
    node.weight (.ofScenario scenario) = weight ∧
    (steadyCost body scenario loop context node.offset).result = .ok cost ∧
    scenario.Bounds weight cost ∧ g.offset? m = some ((node.offset + weight) % g.interval) ∧
    g.Arc (.node n) (.node m)

/-- A round from a settled node has a weight, and the walk goes on at some node. -/
theorem Settled.exists_passes (h : Settled body loop context g n) (scenario : Scenario) :
    ∃ weight m, Passes body loop context scenario g n weight m := by
  obtain ⟨offset, best, worst, hoffset, hbest, hworst, hcosts, hends⟩ := h
  obtain ⟨node, hnode, rfl⟩ := Graph.offset?_eq_some_iff.mp hoffset
  have hcosts : (node.bcet, node.wcet) = (min best worst, max best worst) := by
    rw [Graph.costs?, hnode] at hcosts
    exact Option.some.inj hcosts
  obtain ⟨hlo, hhi⟩ := Prod.mk.inj hcosts
  cases scenario with
  | best =>
    obtain ⟨m, hm, harc⟩ := hends node.bcet (by omega) (by omega)
    exact ⟨node.bcet, m, node, best, hnode, rfl, hbest, by simp; omega, hm, harc⟩
  | worst =>
    obtain ⟨m, hm, harc⟩ := hends node.wcet (by omega) (by omega)
    exact ⟨node.wcet, m, node, worst, hnode, rfl, hworst, by simp; omega, hm, harc⟩

/-- The weights of a walk through a complete graph, after so many rounds. -/
structure Weights (body : Body) (loop : Loop) (context : Context) (scenario : Scenario)
    (interval time rounds : Nat) (w : Nat → Nat) : Prop where
  start : w 0 = 0
  le : ∀ k < rounds, w k ≤ w (k + 1)
  step : ∀ k < rounds, ∃ cost,
    (steadyCost body scenario loop context ((time + w k) % interval)).result = .ok cost ∧
    scenario.Bounds (w (k + 1)) (w k + cost)

/-- In a complete graph there is a walk of any length. -/
theorem Complete.exists_walk (h : Complete body loop context interval time g start)
    (scenario : Scenario) :
    ∃ w, (∀ rounds, Weights body loop context scenario interval time rounds w) ∧
      ∀ k, Walks g (.ofScenario scenario) (k + 1) (w (k + 1)) := by
  have hpass : ∀ n < g.nodes.size, ∃ weight m, Passes body loop context scenario g n weight m :=
    fun n hn => (h.settled n hn).exists_passes scenario
  choose! weight next hpasses using hpass
  -- the node that is visited in a round, and the weight of the walk before
  obtain ⟨node, hzero, hsucc⟩ : ∃ node : Nat → Nat, node 0 = start ∧
      ∀ k, node (k + 1) = next (node k) :=
    ⟨fun k => Nat.rec start (fun _ n => next n) k, rfl, fun _ => rfl⟩
  obtain ⟨w, hw₀, hw⟩ : ∃ w : Nat → Nat, w 0 = 0 ∧ ∀ k, w (k + 1) = w k + weight (node k) :=
    ⟨fun k => Nat.rec 0 (fun k total => total + weight (node k)) k, rfl, fun _ => rfl⟩
  -- the walk is at the offset that its weight leads to
  have hoffset : ∀ k, g.offset? (node k) = some ((time + w k) % interval) := by
    intro k
    induction k with
    | zero => rw [hzero, hw₀, h.offset, Nat.add_zero]
    | succ k ih =>
      obtain ⟨entry, cost, hentry, -, -, -, hnext, -⟩ := hpasses _ (Graph.lt_size_of_offset? ih)
      obtain ⟨entry', hentry', hat⟩ := Graph.offset?_eq_some_iff.mp ih
      obtain rfl := Option.some.inj (hentry.symm.trans hentry')
      rw [hsucc, hnext, hw, hat, h.interval_eq, Nat.mod_add_mod, Nat.add_assoc]
  have hvisit := fun k => hpasses (node k) (Graph.lt_size_of_offset? (hoffset k))
  have hreach : ∀ k, Reaches g (.ofScenario scenario) (k + 1) (node k) (w (k + 1)) := by
    intro k
    induction k with
    | zero =>
      obtain ⟨entry, cost, hentry, hweight, -⟩ := hvisit 0
      rw [hw, hw₀, ← hweight, Nat.zero_add, Nat.zero_add]
      exact .of_arc h.proper (hzero.symm ▸ h.source) hentry
    | succ k ih =>
      obtain ⟨-, -, -, -, -, -, -, harc⟩ := hvisit k
      obtain ⟨entry, cost, hentry, hweight, -⟩ := hvisit (k + 1)
      rw [hw (k + 1), ← hweight]
      exact ih.along h.proper (hsucc k ▸ harc) hentry
  refine ⟨w, fun rounds => ⟨hw₀, fun k _ => ?_, fun k _ => ?_⟩, fun k => ?_⟩
  · rw [hw]
    exact Nat.le_add_right _ _
  · obtain ⟨entry, cost, hentry, -, hcost, hbounds, -⟩ := hvisit k
    obtain ⟨entry', hentry', hat⟩ := Graph.offset?_eq_some_iff.mp (hoffset k)
    obtain rfl := Option.some.inj (hentry.symm.trans hentry')
    rw [← hat, hw, Nat.add_comm (w k)]
    exact ⟨cost, hcost, Nat.add_comm (w k) cost ▸ hbounds.add_right⟩
  · exact (hreach k).walks h.proper (h.sink _ (Graph.lt_size_of_offset? (hoffset k)))

/-- A loop that is bounded by its offsets takes at most (at worst) or at least (at best) as long as
one of the walks. -/
theorem Walked.exists_weights (hsolver : e.solver = .embedded)
    (h : Walked e body s scenario p loop context entry progress progress' n progress₁ first
      weight) :
    ∃ w, Weights body loop context scenario s.interval first.finish (n - 1) w ∧
      scenario.Bounds weight (w (n - 1)) := by
  have hpos := h.pos
  by_cases hone : n = 1
  · obtain rfl := h.once hone
    subst hone
    exact ⟨fun _ => 0, ⟨rfl, nofun, nofun⟩, .refl scenario 0⟩
  · -- the solution is no worse than the walk that follows the costs
    obtain ⟨g, solution, hexplored, hsolve, rfl⟩ := h.more hone
    obtain ⟨start, hcomplete⟩ := hexplored.complete
    obtain ⟨w, hweights, hwalks⟩ := hcomplete.exists_walk scenario
    obtain ⟨rest, rfl⟩ : ∃ rest, n = rest + 2 := ⟨n - 2, by omega⟩
    rw [hsolver] at hsolve
    have hbest := Offset.bestWalk_spec (Nat.succ_pos rest) hcomplete.proper.finish
      ⟨_, hwalks rest⟩
    exact ⟨w, hweights _, bounds_ofScenario.mp (hbest.result hsolve _ (hwalks rest))⟩

/-! ### Paths through loops -/

/-- A round takes as long at a time as at the offset of the time. -/
theorem bounds_steady (hs : e.platform.bus.timed? = some s) {path : List Issue} {cost : Nat}
    (hbody : Bounded e actual bound (fun _ => True)
      (.body p (some l) (context.nest .steady) loop.sink) path)
    (hp : Reached e p (context.nest .steady)) (hl : p.loops[l]? = some loop)
    (hcost : (steadyCost (bodyOf e (e.procedureAt m) p n l loop) bound loop context
      (time % s.interval)).result = .ok cost) :
    bound.Bounds (time + cost) (e.clock actual path time) := by
  obtain ⟨progress, sink, hrun, hsink, hfinish⟩ := steadyCost_eq_ok hcost
  obtain ⟨o, ho, hbounds⟩ := bounded_bodyOf hbody hp hl hrun trivial
  obtain rfl := Option.some.inj (ho.symm.trans hsink)
  have hsplit : time % s.interval + time / s.interval * s.interval = time :=
    Nat.mod_add_div' time s.interval
  have hshift := hbounds.add_right (k := time / s.interval * s.interval)
  rw [hfinish, Stamp.moment, ← clock_add_rounds hs, hsplit, Nat.add_right_comm, hsplit] at hshift
  exact hshift

/-- Loops that are bounded by their offsets bound all paths. -/
theorem boundsLoops_offsets (hloops : e.platform.loops = .offsets)
    (hs : e.platform.bus.timed? = some s) (hsolver : e.solver = .embedded)
    (hcharges : Charges e actual bound) : BoundsLoops e actual bound fun _ => True := by
  intro p l loop m n context entry progress progress' path u hp hl hbound _ hbody hloop _ hu
  simp only [Engine.loop, hloops, hs] at hloop
  have hround := hp.round (by simp [hloops])
  obtain ⟨k, progress₁, first, value, hw⟩ := byOffsets_eq_ok hloop
  obtain rfl := iterations_eq_ok hw.count
  obtain ⟨w, hweights, hvalue⟩ := hw.exists_weights hsolver
  rw [hw.times, get?_spread, if_pos (hp.wellFormed.end_mem hl hu)]
  refine ⟨_, rfl, ?_⟩
  -- the loop is entered, and then every round ends with its weight
  obtain ⟨z, hentry, hz⟩ : ∃ z : Nat → Nat, z 0 = entry.finish ∧
      ∀ k, z (k + 1) = first.finish + w k :=
    ⟨fun k => k.casesOn entry.finish fun k => first.finish + w k, rfl, fun _ => rfl⟩
  have hstep : ∀ k, k < actual.rounds loop → k < bound.rounds loop →
      bound.Bounds (z (k + 1)) (e.clock actual (path k) (z k)) := by
    intro k ha hb
    cases k with
    | zero =>
      obtain ⟨o, ho, hbounds⟩ := bounded_bodyOf (hbody 0 ha) (hround 0) hl hw.run trivial
      obtain rfl := Option.some.inj (ho.symm.trans hw.sink)
      rw [hz, hentry, hweights.start]
      exact hbounds
    | succ k =>
      -- a steady round takes as long as it would from its offset
      obtain ⟨cost, hcost, hle⟩ := hweights.step k (by omega)
      have hnext := bounds_steady hs (hbody (k + 1) ha) (hround (k + 1)) hl hcost
      rw [hz, hz, Nat.add_comm first.finish]
      refine (hle.add_right (k := first.finish)).trans ?_
      rwa [Nat.add_comm _ first.finish, ← Nat.add_assoc]
  have hmono : ∀ k < bound.rounds loop, z k ≤ z (k + 1) := by
    intro k hk
    cases k with
    | zero =>
      obtain ⟨o, ho, hle⟩ := (bodyStamps_bodyOf hp.wellFormed
        (innerStamps_loopAt hp.wellFormed n) hl).stamped hw.run
        (hp.wellFormed.sink_inside hl)
      obtain rfl := Option.some.inj (ho.symm.trans hw.sink)
      rw [hz, hentry]
      exact Nat.le_add_right_of_le hle
    | succ k =>
      rw [hz, hz]
      exact Nat.add_le_add_left (hweights.le k (by omega)) _
  obtain ⟨rest, hrest⟩ := Nat.exists_eq_succ_of_ne_zero (Nat.ne_of_gt hw.pos)
  rw [hrest, Nat.succ_sub_one] at hvalue
  have hall := bounds_rounds z (hcharges.rounds loop) hmono hstep
  rw [hentry, hrest, hz] at hall
  refine Scenario.Bounds.trans ?_ hall
  rw [Nat.add_comm, Nat.add_comm first.finish]
  exact hvalue.add_right

end CycleBounds.Bound.Engine
