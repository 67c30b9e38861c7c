import CycleBounds.Proofs.Code.Calls
import CycleBounds.Proofs.Code.Passable
import CycleBounds.Proofs.Run.Sweep
import Mathlib.Logic.Relation

/-!
# The parts of an analysis

An analysis follows calls, bodies and loops, and each of these parts starts others. A call starts
the body of a procedure. A body starts the inner loops and the calls of its blocks, wherever its
sweep comes to them. A loop starts iterations of its own body.

Analyses differ in what they carry from part to part, and in which iterations of a loop they follow.
A `Plan` says so for one analysis, and `Plan.Reached` are the parts that it leads to. All of them
belong to the program, and neither calls nor loops go deeper than the analysis allows for.

* `Plan.Starts.placed`: what a part starts goes no deeper than the part may.
* `Plan.Reached.placed`: so nothing in an analysis of an accepted program goes too deep.
-/

namespace CycleBounds.Run

open Code (Program Procedure Loop)

variable {ε σ π κ μ : Type}

/-! ### Settings -/

/-- The loops of a region are nested as deep as a context at least. -/
def NestedIn (p : Procedure) (region : Option Nat) (context : Context) : Prop :=
  ∀ {r l loop}, r ∈ p.orderOf region → p.headerOf? r = some l → some l ≠ region →
    p.loops[l]? = some loop → context.depth ≤ loop.level

theorem nestedIn_root {p : Procedure} : NestedIn p none .root := by
  intro r l loop _ _ _ _
  exact Nat.zero_le _

theorem nestedIn_nest {p : Procedure} (hpass : p.Passable) {context : Context} {l : Nat}
    {loop : Loop} (hl : p.loops[l]? = some loop) (hdepth : context.depth ≤ loop.level)
    (it : Iteration) : NestedIn p (some l) (context.nest it) := by
  intro r l' inner hr hh hne hl'
  rw [Procedure.orderOf_loop hl] at hr
  have hdeeper := hpass.level_inner hl hr hh (by simpa using hne) hl'
  show context.depth + 1 ≤ inner.level
  omega

/-- Where in a program a body or a loop is followed, and in which mode. So many calls may follow
each other from here, and so many loops may be nested. -/
structure Setting (μ : Type) where
  procedure : Procedure
  context : Context
  mode : μ
  calls : Nat
  loops : Nat

namespace Setting

def nest (x : Setting μ) (it : Iteration) (mode : μ) : Setting μ :=
  { x with context := x.context.nest it, mode, loops := x.loops - 1 }

/-- The calls and loops that a setting allows for are enough, if calls lead to lower ranks. -/
structure Placed (program : Program) (rank : Nat → Nat) (x : Setting μ) : Prop where
  self : program.procedures[x.procedure.id]? = some x.procedure
  rank_le : rank x.procedure.id ≤ x.calls
  length_le : x.procedure.loops.length ≤ x.loops + x.context.depth

/-- A loop may be nested in a setting that it lies deep enough for. Its iterations go no deeper than
the setting allows for either. -/
theorem Placed.nest {program : Program} {rank : Nat → Nat} {x : Setting μ}
    (h : x.Placed program rank) (hprogram : program.Accepted) {l : Nat} {loop : Loop}
    (hl : x.procedure.loops[l]? = some loop) (hdepth : x.context.depth ≤ loop.level) :
    0 < x.loops ∧ (∀ it mode, (x.nest it mode).Placed program rank) ∧
      ∀ it, NestedIn x.procedure (some l) (x.context.nest it) := by
  have hpass := hprogram.passable h.self
  have hlevel := hpass.level_lt hl
  have hlength := h.length_le
  refine ⟨by omega, fun it mode => ⟨h.self, h.rank_le, ?_⟩, nestedIn_nest hpass hl hdepth⟩
  show x.procedure.loops.length ≤ x.loops - 1 + (x.context.depth + 1)
  omega

end Setting

/-! ### Parts -/

/-- How an analysis follows the parts of a program. -/
structure Plan (ε σ π κ μ : Type) where
  program : Program
  /-- The visits of the blocks of a body. -/
  sweep : Setting μ → (region : Option Nat) → Sweep ε σ π
  /-- Where the body of a called procedure starts. -/
  enter : κ → σ × π
  /-- A block that is followed itself comes to a call. -/
  Issues : Setting μ → (block : Nat) → σ → π → (callee : Nat) → κ → Prop
  /-- A loop is followed by an iteration in some mode, among others. -/
  Repeats : Setting μ → Nat → Loop → σ → π → Iteration → μ → σ → π → Prop

namespace Plan

/-- What an analysis follows, from which value and with what it has found so far. -/
inductive Part (σ π κ μ : Type)
  | call (calls : Nat) (mode : μ) (q : Nat) (k : κ)
  | body (x : Setting μ) (region : Option Nat) (s : σ) (t : π)
  | loop (x : Setting μ) (l : Nat) (s : σ) (t : π)

def Part.mode : Part σ π κ μ → μ
  | .call _ mode _ _ => mode
  | .body x _ _ _ | .loop x _ _ _ => x.mode

/-- The value that a part starts from, and what has been found until then. -/
def start (plan : Plan ε σ π κ μ) : Part σ π κ μ → σ × π
  | .call _ _ _ k => plan.enter k
  | .body _ _ s t | .loop _ _ s t => (s, t)

/-- One part of an analysis starts another one. -/
inductive Starts (plan : Plan ε σ π κ μ) : Part σ π κ μ → Part σ π κ μ → Prop
  | procedure {n mode q k p} : plan.program.procedures[q]? = some p →
      Starts plan (.call (n + 1) mode q k)
        (.body ⟨p, .root, mode, n, p.loops.length⟩ none (plan.enter k).1 (plan.enter k).2)
  | inner {x region s t r s' t' l} :
      (plan.sweep x region).Arrives (x.procedure.orderOf region) s t r s' t' →
      x.procedure.headerOf? r = some l → some l ≠ region →
      Starts plan (.body x region s t) (.loop x l s' t')
  | call {x region s t r s' t' q k} :
      (plan.sweep x region).Arrives (x.procedure.orderOf region) s t r s' t' →
      x.procedure.headerOf? r = none ∨ x.procedure.headerOf? r = region →
      plan.Issues x r s' t' q k →
      Starts plan (.body x region s t) (.call x.calls x.mode q k)
  | iteration {x l s t loop it mode s' t'} : x.procedure.loops[l]? = some loop →
      loop.bound ≠ 0 → plan.Repeats x l loop s t it mode s' t' →
      Starts plan (.loop x l s t) (.body (x.nest it mode) (some l) s' t')

/-- A part of the analysis that starts with a call of the entry procedure. -/
def Reached (plan : Plan ε σ π κ μ) (mode : μ) (entry : Nat) (k : κ) : Part σ π κ μ → Prop :=
  Relation.ReflTransGen plan.Starts (.call (plan.program.procedures.length + 1) mode entry k)

/-! ### How deep parts go -/

/-- Blocks come to calls of their own instructions only. -/
def Faithful (plan : Plan ε σ π κ μ) : Prop :=
  ∀ {x b s t q k}, plan.Issues x b s t q k → ∃ block, x.procedure.blocks[b]? = some block ∧
    ∃ i ∈ block.instructions, i.callee = some q

/-- A part belongs to the program, and neither calls nor loops go too deep from there. -/
def Part.Placed (program : Program) (rank : Nat → Nat) : Part σ π κ μ → Prop
  | .call calls _ q _ => rank q < calls
  | .body x region _ _ => x.Placed program rank ∧ NestedIn x.procedure region x.context
  | .loop x l _ _ => x.Placed program rank ∧
      ∃ loop, x.procedure.loops[l]? = some loop ∧ x.context.depth ≤ loop.level

variable {plan : Plan ε σ π κ μ} {rank : Nat → Nat}

section Placed

variable (hprogram : plan.program.Accepted) (hranked : plan.program.Ranked rank)
  (hfaithful : plan.Faithful)
include hprogram hranked hfaithful

/-- What a part starts goes no deeper than the part may. -/
theorem Starts.placed {a b : Part σ π κ μ} (h : plan.Starts a b)
    (ha : a.Placed plan.program rank) : b.Placed plan.program rank := by
  cases h with
  | procedure hp =>
    have hid := hprogram.id_eq hp
    refine ⟨⟨?_, ?_, Nat.le_add_right _ _⟩, nestedIn_root⟩
    · rw [hid]
      exact hp
    · rw [hid]
      exact Nat.le_of_lt_succ ha
  | inner harrives hheader hne =>
    obtain ⟨hx, hnested⟩ := ha
    obtain ⟨loop, hl, -⟩ := (hprogram.wellFormed hx.self).headerOf_iff.mp hheader
    exact ⟨hx, loop, hl, hnested harrives.mem hheader hne hl⟩
  | call _ _ hissues =>
    obtain ⟨block, hblock, i, hi, hcallee⟩ := hfaithful hissues
    have hcalled := Procedure.mem_callees hblock hi hcallee
    obtain ⟨-, hlower⟩ := hranked.callee ha.1.self hcalled
    exact Nat.lt_of_lt_of_le hlower ha.1.rank_le
  | iteration _ _ _ =>
    obtain ⟨hx, loop, hl, hdepth⟩ := ha
    have hnest := hx.nest hprogram hl hdepth
    exact ⟨hnest.2.1 _ _, hnest.2.2 _⟩

/-- Nothing in an analysis goes too deep. -/
theorem Reached.placed {mode : μ} {entry : Nat} {k : κ} {a : Part σ π κ μ}
    (h : plan.Reached mode entry k a) : a.Placed plan.program rank := by
  induction h with
  | refl => exact Nat.lt_succ_of_le (hranked.le entry)
  | tail _ hstarts ih => exact hstarts.placed hprogram hranked hfaithful ih

end Placed

end Plan

end CycleBounds.Run
