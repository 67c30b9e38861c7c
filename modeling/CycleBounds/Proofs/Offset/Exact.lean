import CycleBounds.Proofs.Offset.Routes
import Mathlib.Order.Bounds.Basic

/-!
# The best walk is the best one

The search keeps for every node a weight that bounds all walks to it, and that is the weight of one
of them. So its answer is the least or the largest weight of the routes from the source to the sink
with the given number of visits. There is an answer exactly if there is such a route.

* `bestWalk_exact`: the answer of a search in a graph that is built by the operations.
-/

namespace CycleBounds.Offset

variable {g : Graph} {o : Objective} {units : Nat}

/-- The weights of the routes from the source to the sink with a number of visits. -/
def Graph.walkWeights (g : Graph) (o : Objective) (units : Nat) : Set Nat :=
  { w | ∃ is ns, Route g .source is ns ∧ ns.length = units ∧ w = g.weightOf o is ns }

/-- The best one of some values: the least one or the largest one. -/
def Objective.IsBest {α : Type} [LE α] : Objective → Set α → α → Prop
  | .minimize, values, v => IsLeast values v
  | .maximize, values, v => IsGreatest values v

theorem Objective.isBest_of_bounds {values : Set Nat} {v : Nat} (hmem : v ∈ values)
    (hbounds : ∀ w ∈ values, o.Bounds v w) : o.IsBest values v := by
  cases o with
  | minimize => exact ⟨hmem, hbounds⟩
  | maximize => exact ⟨hmem, hbounds⟩

theorem Objective.IsBest.mem {α : Type} [LE α] {values : Set α} {v : α} (h : o.IsBest values v) :
    v ∈ values := by
  cases o with
  | minimize => exact h.1
  | maximize => exact h.1

/-- An answer is the best weight of the routes. -/
theorem bestWalk_isBest (hg : g.Registered) (hpos : 0 < units) {s : Solution}
    (h : (bestWalk g o units).result = .ok s) : o.IsBest (g.walkWeights o units) s.value := by
  obtain ⟨is, ns, hroute, hlength, hvalue, -⟩ := (bestWalk_attained hg hpos).result h
  have hwalks : ∀ w ∈ g.walkWeights o units, Walks g o units w := by
    rintro w ⟨is', ns', hroute', hlength', rfl⟩
    have hwalk := hroute'.walks (o := o) hg (hlength' ▸ hpos)
    rwa [hlength'] at hwalk
  have hmem : s.value ∈ g.walkWeights o units := ⟨is, ns, hroute, hlength, hvalue⟩
  have hbound := (bestWalk_spec hpos hg.exists_finish ⟨_, hwalks _ hmem⟩).result h
  exact Objective.isBest_of_bounds hmem fun w hw => hbound w (hwalks w hw)

/-- Without an answer there is no route, or some walk is too heavy. -/
theorem bestWalk_none (hg : g.Registered) (hpos : 0 < units) {cause : Failure SolverError}
    (h : (bestWalk g o units).result = .error cause) :
    cause = .fault .overflow ∧ g.Overweight o units ∨
      cause = .error .infeasible ∧ ¬ (g.walkWeights o units).Nonempty := by
  have hends := bestWalk_attained (o := o) hg hpos
  rw [h] at hends
  rcases hends with hheavy | rfl
  · exact .inl hheavy
  · refine .inr ⟨rfl, ?_⟩
    rintro ⟨w, is, ns, hroute, rfl, rfl⟩
    have hspec := bestWalk_spec hpos hg.exists_finish ⟨_, hroute.walks (o := o) hg hpos⟩
    rw [h] at hspec
    cases hspec

/-- The search for the best walk is exact. Unless a walk with at most as many visits is too heavy to
be weighed, the search has an answer exactly if there is a route from the source to the sink with
that many visits. The answer is the best weight of all these routes. -/
theorem bestWalk_exact (hbuilt : g.Built) (hpos : 0 < units) :
    (bestWalk g o units).result = .error (.fault .overflow) ∧ g.Overweight o units ∨
      ((∃ s, (bestWalk g o units).result = .ok s) ↔ (g.walkWeights o units).Nonempty) ∧
      (∀ s, (bestWalk g o units).result = .ok s → o.IsBest (g.walkWeights o units) s.value) ∧
      (¬ (g.walkWeights o units).Nonempty →
        (bestWalk g o units).result = .error (.error .infeasible)) := by
  have hg := hbuilt.registered
  cases hresult : (bestWalk g o units).result with
  | ok s =>
    have hbest := bestWalk_isBest hg hpos hresult
    have hnonempty : (g.walkWeights o units).Nonempty := ⟨_, hbest.mem⟩
    refine .inr ⟨⟨fun _ => hnonempty, fun _ => ⟨s, rfl⟩⟩, ?_, fun h => absurd hnonempty h⟩
    rintro _ ⟨⟩
    exact hbest
  | error cause =>
    rcases bestWalk_none hg hpos hresult with ⟨rfl, hheavy⟩ | ⟨rfl, hempty⟩
    · exact .inl ⟨rfl, hheavy⟩
    · refine .inr ⟨⟨?_, fun h => absurd h hempty⟩, ?_, fun _ => rfl⟩
      · rintro ⟨s, ⟨⟩⟩
      · rintro s ⟨⟩

/-- Two offsets, the second of which may follow itself and the first one. -/
def looping : Except Fault Graph := do
  let g ← Graph.empty 12
  let g ← (g.addNode 0).1.setWeights 0 3 7
  let g ← (g.addNode 17).1.setWeights 1 2 4
  let (g, _) ← g.addEdge (.node 0) (.node 1) 2 3
  let (g, _) ← g.addEdge (.node 1) (.node 1) 0 1
  let (g, _) ← g.addEdge (.node 1) (.node 0) 4 4
  g.connect 0

theorem built_looping (h : looping = .ok g) : g.Built := by
  obtain ⟨g₀, h₀, h⟩ := bind_eq_ok.mp h
  obtain ⟨g₁, h₁, h⟩ := bind_eq_ok.mp h
  obtain ⟨g₂, h₂, h⟩ := bind_eq_ok.mp h
  obtain ⟨⟨g₃, _⟩, h₃, h⟩ := bind_eq_ok.mp h
  obtain ⟨⟨g₄, _⟩, h₄, h⟩ := bind_eq_ok.mp h
  obtain ⟨⟨g₅, _⟩, h₅, h⟩ := bind_eq_ok.mp h
  have hfirst : g₁.Built := ((Graph.Built.empty h₀).addNode 0).setWeights h₁
  have hnodes : g₂.Built := (hfirst.addNode 17).setWeights h₂
  exact (((hnodes.addEdge h₃).addEdge h₄).addEdge h₅).connect h

theorem looping_walk : ∃ g s, looping = .ok g ∧ (bestWalk g .maximize 4).result = .ok s ∧
    s.value = 32 := by
  have hvalue : (looping.toOption.bind fun g => (bestWalk g .maximize 4).result.toOption.map
      (·.value)) = some 32 := by
    decide +kernel
  obtain ⟨g, hg, hvalue⟩ := Option.bind_eq_some_iff.mp hvalue
  obtain ⟨s, hs, hvalue⟩ := Option.map_eq_some_iff.mp hvalue
  exact ⟨g, s, toOption_eq_some.mp hg, toOption_eq_some.mp hs, hvalue⟩

/-- Four visits alternate between the two offsets. -/
theorem bestWalk_exact_looping : ∃ g s, looping = .ok g ∧ g.Built ∧ 0 < 4 ∧
    (bestWalk g .maximize 4).result = .ok s ∧ s.value = 32 ∧
    Objective.maximize.IsBest (g.walkWeights .maximize 4) 32 := by
  obtain ⟨g, s, hg, hs, hvalue⟩ := looping_walk
  have hbuilt := built_looping hg
  refine ⟨g, s, hg, hbuilt, by decide, hs, hvalue, ?_⟩
  have hpos : 0 < 4 := by decide
  rcases bestWalk_exact (o := .maximize) hbuilt hpos with ⟨h, -⟩ | ⟨-, hbest, -⟩
  · rw [hs] at h
    cases h
  · exact hvalue ▸ hbest s hs

end CycleBounds.Offset
