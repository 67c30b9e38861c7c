import CycleBounds.Proofs.Code.Checks
import Mathlib.Data.Fintype.Pigeonhole
import Mathlib.Logic.Relation
import Mathlib.Order.Bounds.Defs

/-!
# Cycles of a draft

Blocks are put in order by taking out those that wait for nothing. What is left in the end are the
blocks *behind a cycle*: those that lie on one, and those that are reached from one. The two kinds
are not told apart, so the block that is reported is merely the least one behind a cycle.

* `exists_cycle_of_preds`: where each of finitely many blocks has a predecessor among them, a cycle
  leads to each of them.
* `Draft.mem_left_iff`: exactly the blocks behind a cycle are left.
* `Draft.topological_eq_error` and `Draft.not_onCycle_of_topological`: what is reported, and that
  there is no cycle if nothing is.
-/

namespace CycleBounds.Code

open Relation (TransGen ReflTransGen)

/-- Where each of finitely many blocks has a predecessor among them, a cycle leads to each. -/
theorem exists_cycle_of_preds {edge : Nat → Nat → Prop} {xs : List Nat}
    (hpred : ∀ x ∈ xs, ∃ u ∈ xs, edge u x) {b : Nat} (hb : b ∈ xs) :
    ∃ c, TransGen edge c c ∧ ReflTransGen edge c b := by
  have hback : ∀ x : { x // x ∈ xs }, ∃ u : { x // x ∈ xs }, edge u x := by
    rintro ⟨x, hx⟩
    obtain ⟨u, hu, hedge⟩ := hpred x hx
    exact ⟨⟨u, hu⟩, hedge⟩
  choose pred hedge using hback
  have hwalk : ∀ n x, ReflTransGen edge (pred^[n] x) x := by
    intro n x
    induction n with
    | zero => exact .refl
    | succ n ih =>
      rw [Function.iterate_succ_apply']
      exact .head (hedge _) ih
  have hcycle : ∀ {i j}, i < j → pred^[i] ⟨b, hb⟩ = pred^[j] ⟨b, hb⟩ →
      TransGen edge (pred^[i] ⟨b, hb⟩).1 (pred^[i] ⟨b, hb⟩).1 := by
    intro i j hij heq
    obtain ⟨n, rfl⟩ := Nat.exists_eq_add_of_lt hij
    rw [show i + n + 1 = n + 1 + i by omega, Function.iterate_add_apply,
      Function.iterate_succ_apply] at heq
    have hstep := TransGen.tail' (hwalk n (pred (pred^[i] ⟨b, hb⟩))) (hedge (pred^[i] ⟨b, hb⟩))
    rwa [← heq] at hstep
  -- walking back from `b` for ever, some block is met twice
  obtain ⟨i, j, hne, heq⟩ := Finite.exists_ne_map_eq_of_infinite fun n => pred^[n] ⟨b, hb⟩
  rcases Nat.lt_or_gt_of_ne hne with hij | hji
  · exact ⟨_, hcycle hij heq, hwalk i _⟩
  · exact ⟨_, hcycle hji heq.symm, hwalk j _⟩

namespace Draft

def Edge (d : Draft) (u v : Nat) : Prop :=
  (u, v) ∈ d.edges

def OnCycle (d : Draft) (b : Nat) : Prop :=
  TransGen d.Edge b b

/-- A block lies on a cycle or is reached from one. -/
def BehindCycle (d : Draft) (b : Nat) : Prop :=
  ∃ c, d.OnCycle c ∧ ReflTransGen d.Edge c b

variable {d : Draft} {order left : List Nat} {b : Nat}

theorem OnCycle.behindCycle (h : d.OnCycle b) : d.BehindCycle b :=
  ⟨b, h, .refl⟩

theorem BehindCycle.exists_pred (h : d.BehindCycle b) : ∃ u, d.Edge u b := by
  obtain ⟨c, hcycle, hpath⟩ := h
  obtain ⟨u, -, hedge⟩ := TransGen.tail'_iff.mp (hcycle.trans_left hpath)
  exact ⟨u, hedge⟩

/-- What is taken out comes after everything that leads to it. -/
theorem idxOf_lt_of_transGen (h : Waiting.arrange d.blocks.length d.waiting = (order, left))
    {u : Nat} (hpath : TransGen d.Edge u b) (hb : b ∈ order) :
    u ∈ order ∧ order.idxOf u < order.idxOf b := by
  have hedge : ∀ {u v}, d.Edge u v → v ∈ order → u ∈ order ∧ order.idxOf u < order.idxOf v := by
    intro u v huv hv
    have hlt : v < d.blocks.length := (mem_arrange h).mp (.inl hv)
    exact Waiting.idxOf_lt_of_arrange d.nodup_waiting h (mem_waiting hlt) hv (mem_preds.mpr huv)
  induction hpath with
  | single huv => exact hedge huv hb
  | tail _ huv ih =>
    obtain ⟨hmem, hlt⟩ := hedge huv hb
    obtain ⟨hu, hlt'⟩ := ih hmem
    exact ⟨hu, Nat.lt_trans hlt' hlt⟩

/-- Exactly the blocks behind a cycle are left. -/
theorem mem_left_iff (hedges : ∀ e ∈ d.edges, e.1 < d.blocks.length ∧ e.2 < d.blocks.length)
    (h : Waiting.arrange d.blocks.length d.waiting = (order, left)) :
    b ∈ left ↔ d.BehindCycle b := by
  constructor
  · intro hb
    refine exists_cycle_of_preds (fun x hx => ?_) hb
    have hlt : x < d.blocks.length := (mem_arrange h).mp (.inr hx)
    have hlength : d.waiting.length ≤ d.blocks.length := by simp [waiting]
    obtain ⟨u, hu, hout⟩ := Waiting.exists_after_of_left hlength h (mem_waiting hlt) hx
    have hedge : d.Edge u x := mem_preds.mp hu
    exact ⟨u, ((mem_arrange h).mpr (hedges _ hedge).1).resolve_left hout, hedge⟩
  · intro hbehind
    obtain ⟨u, hedge⟩ := hbehind.exists_pred
    refine ((mem_arrange h).mpr (hedges _ hedge).2).resolve_left fun hb => ?_
    obtain ⟨c, hcycle, hpath⟩ := hbehind
    -- the cycle would be taken out before `b`, and each of its blocks before itself
    have hc := (idxOf_lt_of_transGen h (hcycle.trans_left hpath) hb).1
    exact Nat.lt_irrefl _ (idxOf_lt_of_transGen h hcycle hc).2

/-- The block that is reported is the least one behind a cycle. -/
theorem topological_eq_error
    (hedges : ∀ e ∈ d.edges, e.1 < d.blocks.length ∧ e.2 < d.blocks.length) {e : ProgramError}
    (h : d.topological = .error e) :
    ∃ b, e = .cycle d.id b ∧ IsLeast {a | d.BehindCycle a} b := by
  obtain ⟨order, left, ha, ⟨rfl, hok⟩ | ⟨b, rest, rfl, herr⟩⟩ := d.topological_cases
  · cases hok.symm.trans h
  · have hmem : ∀ {a}, a ∈ b :: rest ↔ d.BehindCycle a :=
      mem_left_iff hedges ha
    have hsorted : (b :: rest).Pairwise (· < ·) := by
      refine List.Pairwise.sublist (Waiting.left_sublist ha) ?_
      rw [map_item_waiting]
      exact List.pairwise_lt_range
    refine ⟨b, (Except.error.inj (herr.symm.trans h)).symm, hmem.mp List.mem_cons_self, ?_⟩
    intro a hbehind
    rcases List.mem_cons.mp (hmem.mpr hbehind) with rfl | hlater
    · exact Nat.le_refl a
    · exact Nat.le_of_lt ((List.pairwise_cons.mp hsorted).1 a hlater)

/-- Blocks that are put in order lie on no cycle. -/
theorem not_onCycle_of_topological
    (hedges : ∀ e ∈ d.edges, e.1 < d.blocks.length ∧ e.2 < d.blocks.length) {all : List Nat}
    (h : d.topological = .ok all) (b : Nat) : ¬ d.OnCycle b := by
  obtain ⟨order, left, ha, ⟨rfl, -⟩ | ⟨c, rest, -, herr⟩⟩ := d.topological_cases
  · intro hcycle
    cases (mem_left_iff hedges ha).mpr hcycle.behindCycle
  · cases herr.symm.trans h

end Draft

end CycleBounds.Code
