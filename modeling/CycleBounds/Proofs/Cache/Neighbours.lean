import CycleBounds.Cache.Level
import CycleBounds.Proofs.Code.Redeclared

/-!
# The cache analysis and the order of neighbours

A block starts in the join of the states of its predecessors, one after the other. States can be
joined in any order: a join combines the ages of each line by themselves, and it takes the larger or
the smaller one of two. So the analysis of a level is the same for programs that are alike, with the
same reports on the way.

* `State.join_comm`, `State.join_assoc`: states form a commutative semigroup.
* `Level.stateBefore_alike`: the state in which a block starts.
* `Level.analyze_alike`: the whole analysis, from blocks to bodies, loops and calls.
-/

namespace CycleBounds.Cache

/-! ### Joins -/

namespace Ages

variable {pick : Nat → Nat → Nat} (s t u : Ages)

theorem meet_comm (hpick : ∀ a b, pick a b = pick b a) : s.meet pick t = t.meet pick s := by
  ext l
  rw [get?_meet, get?_meet]
  cases s.get? l <;> cases t.get? l <;> simp [hpick]

theorem meet_assoc (hpick : ∀ a b c, pick (pick a b) c = pick a (pick b c)) :
    (s.meet pick t).meet pick u = s.meet pick (t.meet pick u) := by
  ext l
  simp only [get?_meet]
  cases s.get? l <;> cases t.get? l <;> cases u.get? l <;> simp [hpick]

theorem union_comm (hpick : ∀ a b, pick a b = pick b a) : s.union pick t = t.union pick s := by
  ext l
  rw [get?_union, get?_union]
  cases s.get? l <;> cases t.get? l <;> simp [hpick]

theorem union_assoc (hpick : ∀ a b c, pick (pick a b) c = pick a (pick b c)) :
    (s.union pick t).union pick u = s.union pick (t.union pick u) := by
  ext l
  simp only [get?_union]
  cases s.get? l <;> cases t.get? l <;> cases u.get? l <;> simp [hpick]

end Ages

namespace State

theorem join_comm (s t : State) : s.join t = t.join s := by
  rw [join, join, Ages.meet_comm _ _ Nat.max_comm, Ages.union_comm _ _ Nat.min_comm,
    Ages.union_comm s.persistence _ Nat.max_comm]

theorem join_assoc (s t u : State) : (s.join t).join u = s.join (t.join u) := by
  simp only [join, Ages.meet_assoc _ _ _ Nat.max_assoc, Ages.union_assoc _ _ _ Nat.min_assoc,
    Ages.union_assoc _ _ _ Nat.max_assoc]

instance : Std.Commutative State.join := ⟨join_comm⟩

instance : Std.Associative State.join := ⟨join_assoc⟩

end State

namespace Level

open Code (Program Procedure)

variable {subject : Subject} {program program' : Program} {p q : Procedure} {call : Call}
  {inner : Inner} {recording : Bool} {context : Context}

def Subject.withProgram (subject : Subject) (program : Program) : Subject :=
  { subject with program }

/-! ### Blocks and bodies -/

/-- A block starts in the same state, in whatever order its predecessors are joined. -/
theorem stateBefore_alike (h : p.Alike q) (out : Table Nat State) (b : Nat) :
    stateBefore p out b = stateBefore q out b := by
  apply Matched.eq
  refine (Matched.entryAt h.blocks b).bind fun x y hxy => ?_
  obtain ⟨hx, hy⟩ | ⟨s, rest, t, rest', hx, hy, hperm⟩ :=
    perm_nil_or_cons (hxy.preds.filterMap out.get?)
  · rw [hx, hy, h.name]
    exact .error _
  · rw [hx, hy]
    exact .ok (foldl_eq_of_perm hperm)

theorem block_alike (h : p.Alike q) (program' : Program) (b : Nat) (s : State)
    (findings : Findings) :
    block subject call recording p b context s findings =
      block (subject.withProgram program') call recording q b context s findings := by
  apply Traced.Matches.eq
  refine (Traced.Matches.lift (Matched.entryAt h.blocks b)).bind fun x y hxy => ?_
  rw [hxy.instructions, h.id, h.name]
  exact .refl fun _ _ => rfl

theorem visit_alike (h : p.Alike q) (program' : Program) (current : Option Nat) (b : Nat)
    (s : State) (pass : Pass) :
    visit subject call inner recording p current context b s pass =
      visit (subject.withProgram program') call inner recording q current context b s pass := by
  apply Traced.Matches.eq
  refine (Traced.Matches.lift (Matched.entryAt h.blocks b)).bind fun x y hxy => ?_
  rw [hxy.headerOf, block_alike h program']
  exact .refl fun _ _ => rfl

theorem region_alike (h : p.Alike q) (program' : Program) (current : Option Nat)
    (order : List Nat) :
    region subject call inner recording p current context order =
      region (subject.withProgram program') call inner recording q current context order := by
  funext s pass
  cases order with
  | nil => rfl
  | cons b rest =>
    simp only [region, visit_alike h program', stateBefore_alike h]

/-! ### Loops and calls -/

theorem longestChain_alike (h : subject.program.Alike program') :
    longestChain subject = longestChain (subject.withProgram program') := by
  rw [longestChain, longestChain, h.instructions]
  rfl

/-- A loop is passed, repeated and settled in the same way. -/
theorem loopAt_alike (hprogram : subject.program.Alike program') (h : p.Alike q) (n : Nat) :
    loopAt subject call p n = loopAt (subject.withProgram program') call q n := by
  induction n with
  | zero => rfl
  | succ n ih =>
    funext recording id context entry pass
    simp only [loopAt, Procedure.loop, h.loops, h.name, region_alike h program', ih,
      longestChain_alike hprogram]

/-- Calls do the same in programs that differ in the order of neighbours. -/
theorem procedureAt_alike (subject : Subject) (hprogram : subject.program.Alike program')
    (n : Nat) :
    procedureAt subject n = procedureAt (subject.withProgram program') n := by
  induction n with
  | zero => rfl
  | succ n ih =>
    funext recording id entry findings
    apply Traced.Matches.eq
    refine (Traced.Matches.lift (Matched.entryAt hprogram id)).bind fun p q h => ?_
    simp only [h.loops, h.order, exitState, h.sinks, region_alike h program',
      loopAt_alike hprogram h, ih]
    exact .refl fun _ _ => rfl

/-- Programs that are alike are analysed in the same way: with the same classification, footprint
and exit state, and with the same reports. -/
theorem analyze_alike (h : program.Alike program') (entry : Nat) (config : Config)
    (upper : Option Classification) :
    analyze program entry config upper = analyze program' entry config upper := by
  have hcall := procedureAt_alike ⟨program, config, upper⟩ h (program.procedures.length + 1)
  apply Traced.Matches.eq
  unfold analyze
  dsimp only
  rw [hcall, h.length_eq]
  refine .bind_same fun result _ => ?_
  refine (Traced.Matches.lift (Matched.entryAt h entry)).bind fun p q hpq => ?_
  rw [hpq.name]
  exact .refl fun _ _ => rfl

end Level

end CycleBounds.Cache
