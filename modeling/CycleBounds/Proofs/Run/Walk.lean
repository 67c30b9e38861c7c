import CycleBounds.Cache.Classification
import CycleBounds.Proofs.Code.Structure

/-!
# Executions of programs

What running a program means. A run of a procedure walks along edges from block 0, returns from the
sink of a loop to its header, runs a called procedure as a whole right after the fetch of the call,
and ends after a block through which the procedure is left. A loop of bound zero is passed without
running any of its blocks. How often loops repeat and when they are left is up to a `Policy`.

* `Walk`: a run of a procedure up to a frame, with the fetches issued so far.
* `Completes` and `Execution`: whole runs of a procedure, and beginnings of such runs, which may end
  inside of a called procedure.
* `Walk.invariant`: what holds at the start and is kept by every step holds along a walk.
* `Completes.free`: whole runs under a policy are executions that nothing restricts.
-/

namespace CycleBounds

theorem Context.enter_eq_ok {c c' : Context} {it : Iteration} (h : c.enter it = .ok c') :
    c' = c.nest it := by
  unfold enter at h
  split at h
  · exact (Except.ok.inj h).symm
  · cases h

end CycleBounds

namespace CycleBounds.Run

open Code (Program Procedure Loop Instruction)
open Cache (Place)

/-! ### Frames -/

/-- The loops around a block, innermost first, each with the number of times that control has
returned to its header since the loop was entered. -/
abbrev Laps := List (Nat × Nat)

/-- The context of a block in these rounds of the loops around it. -/
def Laps.context : Laps → Context
  | [] => .root
  | (_, round) :: outer => (Laps.context outer).nest (if round = 0 then .first else .steady)

def Laps.around (p : Procedure) (laps : Laps) (b : Nat) : Laps :=
  laps.filter fun lap => p.loops[lap.1]?.any (·.contains b)

/-- Control is before an instruction of a block, or at its end. -/
structure Frame where
  block : Nat
  laps : Laps
  next : Nat

/-- A fetch that is issued by an execution: the block with its context, the number of the
instruction in the block, and its address. -/
structure Issue where
  place : Place
  index : Nat
  address : Nat

abbrev History := List Issue

/-- A property holds of all fetches of a history, each with the history before it. -/
def History.All (P : History → Issue → Prop) : History → Prop
  | [] => True
  | i :: h => P h i ∧ History.All P h

/-- What holds of all issues holds of each with the history before it. -/
theorem History.All.of_suffix {P : History → Issue → Prop} {h past : History} {i : Issue}
    (hall : History.All P h) (hs : i :: past <:+ h) : P past i := by
  induction h with
  | nil => exact absurd (List.suffix_nil.mp hs) (List.cons_ne_nil _ _)
  | cons j h ih =>
    rcases List.suffix_cons_iff.mp hs with heq | hs
    · obtain ⟨rfl, rfl⟩ := List.cons.inj heq
      exact hall.1
    · exact ih hall.2 hs

theorem History.All.imp {P Q : History → Issue → Prop} {h : History} (hall : History.All P h)
    (himp : ∀ h i, P h i → Q h i) : History.All Q h := by
  induction h with
  | nil => trivial
  | cons i h ih => exact ⟨himp h i hall.1, ih hall.2⟩

theorem History.All.and {P Q : History → Issue → Prop} {h : History} (hP : History.All P h)
    (hQ : History.All Q h) : History.All (fun past i => P past i ∧ Q past i) h := by
  induction h with
  | nil => trivial
  | cons i h ih => exact ⟨⟨hP.1, hQ.1⟩, ih hP.2 hQ.2⟩

namespace Frame

def instruction? (p : Procedure) (f : Frame) : Option Instruction :=
  p.blocks[f.block]?.bind (·.instructions[f.next]?)

def issue (p : Procedure) (f : Frame) (i : Instruction) : Issue where
  place := { procedure := p.id, block := f.block, context := f.laps.context }
  index := f.next
  address := i.address

def advance (f : Frame) : Frame :=
  { f with next := f.next + 1 }

def Ended (p : Procedure) (f : Frame) : Prop :=
  ∃ block, p.blocks[f.block]? = some block ∧ f.next = block.instructions.length

end Frame

/-! ### Moves between blocks -/

/-- Which courses of loops are considered. Rounds are counted from zero. -/
structure Policy where
  /-- Control may return to the header of a loop for a round. -/
  again : Loop → (round : Nat) → Prop
  /-- A loop may be left in a round after a block. -/
  leave : Loop → (round block : Nat) → Prop

def Policy.free : Policy where
  again _ _ := True
  leave _ _ _ := True

/-- Where control is when it arrives at a block. A loop of bound zero is passed: control is then at
the end of one of its blocks, none of which has run. -/
inductive Arrives (p : Procedure) (laps : Laps) (b : Nat) : Frame → Prop
  | block : p.headerOf? b = none → Arrives p laps b ⟨b, laps, 0⟩
  | enter {l : Nat} {loop : Loop} : p.headerOf? b = some l → p.loops[l]? = some loop →
      0 < loop.bound → Arrives p laps b ⟨b, (l, 0) :: laps, 0⟩
  | pass {l : Nat} {loop : Loop} {f : Frame} : p.headerOf? b = some l → p.loops[l]? = some loop →
      loop.bound = 0 → f.block ∈ loop.blocks → f.laps = laps → f.Ended p → Arrives p laps b f

section Arrivals

variable {p : Procedure} {laps : Laps} {b : Nat} {f : Frame}

theorem Arrives.of_block (h : Arrives p laps b f) (hb : p.headerOf? b = none) :
    f = ⟨b, laps, 0⟩ := by
  cases h with
  | block => rfl
  | enter hh => rw [hb] at hh; cases hh
  | pass hh => rw [hb] at hh; cases hh

/-- To arrive at a header is to start its loop, or to pass it if its bound is zero. -/
theorem Arrives.of_header {l : Nat} {loop : Loop} (h : Arrives p laps b f)
    (hb : p.headerOf? b = some l) (hl : p.loops[l]? = some loop) :
    0 < loop.bound ∧ f = ⟨b, (l, 0) :: laps, 0⟩ ∨
      loop.bound = 0 ∧ f.block ∈ loop.blocks ∧ f.laps = laps ∧ f.Ended p := by
  cases h with
  | block hnone => rw [hnone] at hb; cases hb
  | enter hh hl' hpos =>
    obtain rfl := Option.some.inj (hb.symm.trans hh)
    obtain rfl := Option.some.inj (hl.symm.trans hl')
    exact .inl ⟨hpos, rfl⟩
  | pass hh hl' hzero hmem hlaps hend =>
    obtain rfl := Option.some.inj (hb.symm.trans hh)
    obtain rfl := Option.some.inj (hl.symm.trans hl')
    exact .inr ⟨hzero, hmem, hlaps, hend⟩

end Arrivals

section Moves

variable (policy : Policy) (p : Procedure)

/-- All loops of some laps may be left after a block. -/
def Released (laps : Laps) (b : Nat) : Prop :=
  ∀ lap ∈ laps, ∀ loop, p.loops[lap.1]? = some loop → policy.leave loop lap.2 b

/-- Control follows an edge to a block. From a loop of bound zero, which has been passed, the edge
leads out of the loop. -/
structure Follows (f : Frame) (b : Nat) (g : Frame) : Prop where
  ended : f.Ended p
  edge : p.Edge f.block b
  outside : ∀ (l : Nat) loop, p.loops[l]? = some loop → loop.bound = 0 → f.block ∈ loop.blocks →
    b ∉ loop.blocks
  released : ∀ lap ∈ f.laps, ∀ loop, p.loops[lap.1]? = some loop → b ∉ loop.blocks →
    policy.leave loop lap.2 f.block
  arrives : Arrives p (f.laps.around p b) b g

/-- Control returns from the sink of a loop to its header. -/
structure Repeats (l round : Nat) (outer : Laps) (f g : Frame) : Prop where
  ended : f.Ended p
  laps : f.laps = (l, round) :: outer
  loop : ∃ loop, p.loops[l]? = some loop ∧ f.block = loop.sink ∧ policy.again loop (round + 1) ∧
    g = ⟨loop.header, (l, round + 1) :: outer, 0⟩

structure Leaves (f : Frame) : Prop where
  ended : f.Ended p
  sink : f.block ∈ p.sinks
  released : Released policy p f.laps f.block

end Moves

/-! ### Walks -/

variable (policy : Policy) (program : Program)

/-- A run of a procedure that started after the history `start` has got to a frame, and the history
is now the last argument. -/
inductive Walk : Procedure → (start : History) → Frame → History → Prop
  | arrive {p start f} : Arrives p [] 0 f → Walk p start f start
  | fetch {p start f h i} : Walk p start f h → f.instruction? p = some i → i.callee = none →
      Walk p start f.advance (f.issue p i :: h)
  | call {p start f h i q callee g h'} : Walk p start f h → f.instruction? p = some i →
      i.callee = some q → program.procedures[q]? = some callee →
      Walk callee (f.issue p i :: h) g h' → Leaves policy callee g → Walk p start f.advance h'
  | follow {p start f h b g} : Walk p start f h → Follows policy p f b g → Walk p start g h
  | again {p start f h l round outer g} : Walk p start f h → Repeats policy p l round outer f g →
      Walk p start g h

/-- A procedure runs from its start to its end. -/
def Completes (p : Procedure) (start h : History) : Prop :=
  ∃ f, Walk policy program p start f h ∧ Leaves policy p f

/-- A procedure has started to run and may be inside of a called procedure. -/
inductive Execution : Procedure → (start : History) → History → Prop
  | here {p start f h} : Walk policy program p start f h → Execution p start h
  | inside {p start f h i q callee h'} : Walk policy program p start f h →
      f.instruction? p = some i → i.callee = some q → program.procedures[q]? = some callee →
      Execution callee (f.issue p i :: h) h' → Execution p start h'

variable {policy program} {p : Procedure}

/-- What holds at the start and is kept by every step holds along a walk. -/
theorem Walk.invariant {start : History} {I : Frame → History → Prop}
    (arrive : ∀ f, Arrives p [] 0 f → I f start)
    (fetch : ∀ f h i, I f h → f.instruction? p = some i → i.callee = none →
      I f.advance (f.issue p i :: h))
    (call : ∀ f h i q callee h', I f h → f.instruction? p = some i → i.callee = some q →
      program.procedures[q]? = some callee →
      Completes policy program callee (f.issue p i :: h) h' → I f.advance h')
    (follow : ∀ f h b g, I f h → Follows policy p f b g → I g h)
    (again : ∀ f h l round outer g, I f h → Repeats policy p l round outer f g → I g h)
    {f : Frame} {h : History} (hw : Walk policy program p start f h) : I f h := by
  induction hw with
  | arrive ha => exact arrive _ ha
  | fetch _ hi hc ih => exact fetch _ _ _ (ih arrive fetch call follow again) hi hc
  | call _ hi hc hq hg hl ih =>
    exact call _ _ _ _ _ _ (ih arrive fetch call follow again) hi hc hq ⟨_, hg, hl⟩
  | follow _ hf ih => exact follow _ _ _ _ (ih arrive fetch call follow again) hf
  | again _ hr ih => exact again _ _ _ _ _ _ (ih arrive fetch call follow again) hr

/-- A run only adds to the history. -/
theorem Walk.suffix {start : History} {f : Frame} {h : History}
    (hw : Walk policy program p start f h) : start <:+ h := by
  induction hw with
  | arrive => exact List.suffix_refl _
  | fetch _ _ _ ih => exact ih.trans (List.suffix_cons _ _)
  | call _ _ _ _ _ _ ih ih' => exact ih.trans ((List.suffix_cons _ _).trans ih')
  | follow _ _ ih | again _ _ ih => exact ih

/-- Every run is one of those that are not restricted. -/
theorem Walk.free {start : History} {f : Frame} {h : History}
    (hw : Walk policy program p start f h) : Walk .free program p start f h := by
  induction hw with
  | arrive ha => exact .arrive ha
  | fetch _ hi hc ih => exact .fetch ih hi hc
  | call _ hi hc hq _ hleave ih ih' =>
    exact .call ih hi hc hq ih' { hleave with released := fun _ _ _ _ => trivial }
  | follow _ hf ih => exact .follow ih { hf with released := fun _ _ _ _ _ => trivial }
  | again _ hr ih =>
    obtain ⟨loop, hl, hsink, -, hg⟩ := hr.loop
    exact .again ih { hr with loop := ⟨loop, hl, hsink, trivial, hg⟩ }

theorem Completes.free {start h : History} (hc : Completes policy program p start h) :
    Execution .free program p start h := by
  obtain ⟨f, hw, -⟩ := hc
  exact .here hw.free

end CycleBounds.Run
