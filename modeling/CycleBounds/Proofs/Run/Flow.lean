import CycleBounds.Proofs.Run.Walk

/-!
# A logic for runs of procedures

Judgements about what holds of the history of an execution while control is in a part of a
procedure. `Flow` speaks about a set of blocks: if `pre` holds when control enters it, then `ok`
holds as long as control stays, and `post b` holds when control leaves it after block `b`. There is
a rule for each way in which procedures are put together:

* `flow_block` for a single block, `flow_pass` for a loop of bound zero;
* `flow_loop` for a loop, from one judgement about its body for each round;
* `flow_body` for a body, from one judgement for each block of its order, and `flow_kept` for a
  body of which only what all fetches keep matters;
* `contract_of_body` for a procedure, which may then be called.
-/

namespace CycleBounds.Run

open Code (Program Procedure Loop Block)

/-! ### Judgements -/

section Judgements

variable (policy : Policy) (program : Program) (ok : History → Prop)

/-- What runs of a procedure bring about: `post` when they return, and `ok` all along. -/
structure Contract (q : Nat) (pre post : History → Prop) : Prop where
  returns : ∀ {p start h}, program.procedures[q]? = some p → pre start →
    Completes policy program p start h → post h
  safe : ∀ {p start h}, program.procedures[q]? = some p → pre start →
    Execution policy program p start h → ok h

/-- The next instruction and the procedure that it calls lead to `next`. -/
def Steps (p : Procedure) (f : Frame) (h : History) (next : History → Prop) : Prop :=
  ∀ i, f.instruction? p = some i → ok (f.issue p i :: h) ∧
    match i.callee with
    | none => next (f.issue p i :: h)
    | some q => Contract policy program ok q (· = f.issue p i :: h) next

/-- All loops of some laps may be left after a block, from which a way leads out of them. -/
def Out (p : Procedure) (laps : Laps) (b : Nat) : Prop :=
  ∀ lap ∈ laps, ∀ loop, p.loops[lap.1]? = some loop → policy.leave loop lap.2 b ∧ p.LeftAt loop b

/-- A property of frames and histories that holds when control enters a set of blocks and is kept
while control stays there, in the rounds `base` of the loops around. -/
structure Invariant (p : Procedure) (inside : Nat → Prop) (base : Laps) (enter : Frame → Prop)
    (pre : History → Prop) (post : Nat → History → Prop) (I : Frame → History → Prop) : Prop where
  enters : ∀ {f h}, pre h → enter f → I f h
  block : ∀ {f h}, I f h → inside f.block
  laps : ∀ {f h}, I f h → ∃ laps, f.laps = laps ++ base ∧
    ∀ lap ∈ laps, ∃ loop, p.loops[lap.1]? = some loop ∧ ∀ b ∈ loop.blocks, inside b
  safe : ∀ {f h}, I f h → ok h
  steps : ∀ {f h}, I f h → Steps policy program ok p f h (I f.advance)
  follows : ∀ {f h b g}, I f h → Follows policy p f b g → inside b → I g h
  repeats : ∀ {f h l round outer g}, I f h → Repeats policy p l round outer f g →
    base.length ≤ outer.length → I g h
  leaves : ∀ {f h laps}, I f h → f.Ended p → f.laps = laps ++ base →
    Out policy p laps f.block → post f.block h

/-- If `pre` holds on entering a set of blocks, then `post b` holds on leaving it after block `b`,
and `ok` holds all along. -/
def Flow (p : Procedure) (inside : Nat → Prop) (base : Laps) (enter : Frame → Prop)
    (pre : History → Prop) (post : Nat → History → Prop) : Prop :=
  ∃ I, Invariant policy program ok p inside base enter pre post I

/-- Where control is when it arrives at a block of the order of a region. The header of the region
itself is a block like others there. -/
def Enters (p : Procedure) (region : Option Nat) (base : Laps) (r : Nat) (f : Frame) : Prop :=
  if p.headerOf? r = region then f = ⟨r, base, 0⟩ else Arrives p base r f

/-- The judgement about what a block of the order of a region stands for. -/
def FlowAt (p : Procedure) (region : Option Nat) (base : Laps) (r : Nat)
    (pre : History → Prop) (post : Nat → History → Prop) : Prop :=
  Flow policy program ok p (p.StandsFor region r) base (Enters p region base r) pre post

def EntersBody (p : Procedure) (region : Option Nat) (base : Laps) (f : Frame) : Prop :=
  ∃ r, (p.orderOf region).head? = some r ∧ Enters p region base r f

def FlowBody (p : Procedure) (region : Option Nat) (base : Laps) (pre : History → Prop)
    (post : Nat → History → Prop) : Prop :=
  Flow policy program ok p (p.Inside region) base (EntersBody p region base) pre post

end Judgements

variable {policy : Policy} {program : Program} {ok : History → Prop} {p : Procedure}
  {region : Option Nat} {base : Laps} {r : Nat} {pre : History → Prop}
  {post : Nat → History → Prop}

theorem Arrives.enters {f : Frame} (h : Arrives p base r f)
    (hr : p.headerOf? r = region → p.headerOf? r = none) : Enters p region base r f := by
  rw [Enters]
  split
  · exact h.of_block (hr (by assumption))
  · exact h

/-- Control that repeats a loop is in a round of it. -/
theorem Repeats.length_lt {f g : Frame} {l round : Nat} {outer : Laps}
    (h : Repeats policy p l round outer f g) : outer.length < f.laps.length := by
  rw [h.laps, List.length_cons]
  exact Nat.lt_succ_self _

theorem Contract.imp {q : Nat} {pre' next next' : History → Prop}
    (h : Contract policy program ok q pre next) (hpre : ∀ h, pre' h → pre h)
    (hnext : ∀ h, next h → next' h) : Contract policy program ok q pre' next' :=
  ⟨fun hq hs hw => hnext _ (h.returns hq (hpre _ hs) hw), fun hq hs => h.safe hq (hpre _ hs)⟩

/-- A step that leads somewhere leads to whatever follows from that. -/
theorem Steps.imp {f : Frame} {h : History} {next next' : History → Prop}
    (hs : Steps policy program ok p f h next) (himp : ∀ h, next h → next' h) :
    Steps policy program ok p f h next' := by
  intro i hi
  obtain ⟨hok, hnext⟩ := hs i hi
  refine ⟨hok, ?_⟩
  cases hc : i.callee with
  | none =>
    rw [hc] at hnext
    exact himp _ hnext
  | some q =>
    rw [hc] at hnext
    exact hnext.imp (fun _ => id) himp

theorem Flow.imp {inside : Nat → Prop} {enter : Frame → Prop} {pre' : History → Prop}
    {post' : Nat → History → Prop} (hf : Flow policy program ok p inside base enter pre post)
    (hpre : ∀ h, pre' h → pre h) (hpost : ∀ b h, inside b → post b h → post' b h) :
    Flow policy program ok p inside base enter pre' post' := by
  obtain ⟨I, hI⟩ := hf
  exact ⟨I, { hI with
    enters := fun h hf => hI.enters (hpre _ h) hf
    leaves := fun hi hend hlaps hrel => hpost _ _ (hI.block hi) (hI.leaves hi hend hlaps hrel) }⟩

/-- Two judgements about the same blocks hold at once. The second one takes care of `ok`. -/
theorem Flow.and {inside : Nat → Prop} {enter : Frame → Prop} {ok₀ pre' : History → Prop}
    {post' : Nat → History → Prop} (hf : Flow policy program ok₀ p inside base enter pre post)
    (hf' : Flow policy program ok p inside base enter pre' post') :
    Flow policy program ok p inside base enter
      (fun h => pre h ∧ pre' h) (fun b h => post b h ∧ post' b h) := by
  obtain ⟨I, hI⟩ := hf
  obtain ⟨J, hJ⟩ := hf'
  refine ⟨fun f h => I f h ∧ J f h, ?_⟩
  constructor
  case enters => exact fun h hf => ⟨hI.enters h.1 hf, hJ.enters h.2 hf⟩
  case block => exact fun h => hI.block h.1
  case laps => exact fun h => hI.laps h.1
  case safe => exact fun h => hJ.safe h.2
  case steps =>
    intro f h hh i hi
    obtain ⟨-, hnext⟩ := hI.steps hh.1 i hi
    obtain ⟨hok, hnext'⟩ := hJ.steps hh.2 i hi
    refine ⟨hok, ?_⟩
    cases hc : i.callee with
    | none =>
      rw [hc] at hnext hnext'
      exact ⟨hnext, hnext'⟩
    | some q =>
      rw [hc] at hnext hnext'
      exact ⟨fun hq hs hw => ⟨hnext.returns hq hs hw, hnext'.returns hq hs hw⟩, hnext'.safe⟩
  case follows => exact fun h hf hb => ⟨hI.follows h.1 hf hb, hJ.follows h.2 hf hb⟩
  case repeats => exact fun h hr hl => ⟨hI.repeats h.1 hr hl, hJ.repeats h.2 hr hl⟩
  case leaves =>
    exact fun h hend hlaps hrel => ⟨hI.leaves h.1 hend hlaps hrel, hJ.leaves h.2 hend hlaps hrel⟩

/-! ### Blocks -/

/-- A block, from what holds before each of its instructions. -/
theorem flow_block (hp : p.WellFormed) {block : Block} (hb : p.blocks[r]? = some block)
    (hr : p.headerOf? r = none ∨ p.headerOf? r = region) (before : Nat → History → Prop)
    (hsafe : ∀ n h, before n h → ok h)
    (hsteps : ∀ n h, before n h → Steps policy program ok p ⟨r, base, n⟩ h (before (n + 1))) :
    FlowAt policy program ok p region base r (before 0)
      (fun _ h => before block.instructions.length h) := by
  -- control stays in the block and in the laps it was entered with
  refine ⟨fun f h => f.block = r ∧ f.laps = base ∧ before f.next h, ?_⟩
  constructor
  case enters =>
    intro f h hpre hf
    have : f = ⟨r, base, 0⟩ := by
      rw [Enters] at hf
      split at hf
      · exact hf
      · exact hf.of_block (hr.resolve_right (by assumption))
    rw [this]
    exact ⟨rfl, rfl, hpre⟩
  case block =>
    rintro f h ⟨hf, -, -⟩
    exact .inl ⟨hf.symm, hr⟩
  case laps =>
    rintro f h ⟨-, hl, -⟩
    exact ⟨[], hl, by simp⟩
  case safe =>
    rintro f h ⟨-, -, hh⟩
    exact hsafe _ _ hh
  case steps =>
    rintro ⟨b, laps, n⟩ h ⟨rfl, rfl, hh⟩
    exact (hsteps n h hh).imp fun _ hnext => ⟨rfl, rfl, hnext⟩
  case follows =>
    rintro f h b g ⟨hf, -, -⟩ hfollow (⟨rfl, -⟩ | ⟨l, loop, hh, hne, -, -⟩)
    · exact absurd (hf ▸ hfollow.edge) (hp.not_edge_self _)
    · rcases hr with hr | hr
      · rw [hr] at hh; cases hh
      · exact absurd (hh.symm.trans hr) hne
  case repeats =>
    rintro f h l round outer g ⟨-, rfl, -⟩ hrep hlen
    exact absurd hrep.length_lt (Nat.not_lt.mpr hlen)
  case leaves =>
    rintro f h laps ⟨hf, -, hh⟩ ⟨block', hb', hnext⟩ - -
    rw [hf, hb] at hb'
    cases hb'
    rwa [hnext] at hh

/-! ### Loops -/

section Loops

variable {l : Nat} {loop : Loop}

/-- A loop of bound zero does nothing. -/
theorem flow_pass (hh : p.headerOf? r = some l) (hne : some l ≠ region)
    (hl : p.loops[l]? = some loop) (hbound : loop.bound = 0) (hsafe : ∀ h, pre h → ok h) :
    FlowAt policy program ok p region base r pre (fun _ => pre) := by
  have hstands {b : Nat} := Procedure.standsFor_header hh hne hl (u := b)
  -- control is at the end of some block of the loop, from where it can only leave
  refine ⟨fun f h => f.block ∈ loop.blocks ∧ f.laps = base ∧ f.Ended p ∧ pre h, ?_⟩
  constructor
  case enters =>
    intro f h hpre hf
    rw [Enters, if_neg (hh ▸ hne)] at hf
    rcases hf.of_header hh hl with ⟨hpos, -⟩ | ⟨-, hmem, hlaps, hend⟩
    · omega
    · exact ⟨hmem, hlaps, hend, hpre⟩
  case block =>
    rintro f h ⟨hmem, -⟩
    exact hstands.mpr hmem
  case laps =>
    rintro f h ⟨-, hlaps, -⟩
    exact ⟨[], hlaps, by simp⟩
  case safe =>
    rintro f h ⟨-, -, -, hpre⟩
    exact hsafe h hpre
  case steps =>
    rintro f h ⟨-, -, ⟨block, hb, hnext⟩, -⟩ i hi
    rw [Frame.instruction?, hb, Option.bind_some, hnext,
      List.getElem?_eq_none (Nat.le_refl _)] at hi
    cases hi
  case follows =>
    rintro f h b g ⟨hmem, -⟩ hfollow hb
    exact absurd (hstands.mp hb) (hfollow.outside l loop hl hbound hmem)
  case repeats =>
    rintro f h l round outer g ⟨-, rfl, -⟩ hrep hlen
    exact absurd hrep.length_lt (Nat.not_lt.mpr hlen)
  case leaves =>
    rintro f h laps ⟨-, -, -, hpre⟩ - - -
    exact hpre

/-- A loop, from what holds at the start of each round and what holds when the round is left after
a block. -/
theorem flow_loop (hp : p.WellFormed) (hh : p.headerOf? r = some l) (hne : some l ≠ region)
    (hl : p.loops[l]? = some loop) (hbound : 0 < loop.bound) (head : Nat → History → Prop)
    (ends : Nat → Nat → History → Prop)
    (hbody : ∀ k, (k = 0 ∨ policy.again loop k) →
      FlowBody policy program ok p (some l) ((l, k) :: base) (head k) (ends k))
    (hagain : ∀ k h, policy.again loop (k + 1) → ends k loop.sink h → head (k + 1) h)
    (hleave : ∀ k b h, b ∈ loop.blocks → policy.leave loop k b → p.LeftAt loop b → ends k b h →
      post b h) :
    FlowAt policy program ok p region base r (head 0) post := by
  have hstands {b : Nat} := Procedure.standsFor_header hh hne hl (u := b)
  have hinside {b : Nat} := Procedure.inside_loop hl (b := b)
  have hheader : r = loop.header := by
    obtain ⟨loop', hl', rfl⟩ := hp.headerOf_iff.mp hh
    rw [Option.some.inj (hl.symm.trans hl')]
  have henter : ∀ k, EntersBody p (some l) ((l, k) :: base) ⟨r, (l, k) :: base, 0⟩ := by
    intro k
    refine ⟨r, ?_, by rw [Enters, if_pos hh]⟩
    rw [hheader, Procedure.orderOf, hl]
    exact hp.head_loop hl
  -- the invariant of the round in progress, whose number is on top of the laps
  refine ⟨fun f h => ∃ k, (k = 0 ∨ policy.again loop k) ∧ ∃ J, Invariant policy program ok p
    (p.Inside (some l)) ((l, k) :: base) (EntersBody p (some l) ((l, k) :: base)) (head k)
    (ends k) J ∧ J f h, ?_⟩
  constructor
  case enters =>
    intro f h hpre hf
    rw [Enters, if_neg (hh ▸ hne)] at hf
    rcases hf.of_header hh hl with ⟨-, rfl⟩ | ⟨hzero, -⟩
    · obtain ⟨J, hJ⟩ := hbody 0 (.inl rfl)
      exact ⟨0, .inl rfl, J, hJ, hJ.enters hpre (henter 0)⟩
    · omega
  case block =>
    rintro f h ⟨k, -, J, hJ, hf⟩
    exact hstands.mpr (hinside.mp (hJ.block hf))
  case laps =>
    rintro f h ⟨k, -, J, hJ, hf⟩
    obtain ⟨laps, hlaps, hin⟩ := hJ.laps hf
    refine ⟨laps ++ [(l, k)], by simpa using hlaps, fun lap hlap => ?_⟩
    rcases List.mem_append.mp hlap with hlap | hlap
    · obtain ⟨loop', hl', hin'⟩ := hin lap hlap
      exact ⟨loop', hl', fun b hb => hstands.mpr (hinside.mp (hin' b hb))⟩
    · obtain rfl := List.mem_singleton.mp hlap
      exact ⟨loop, hl, fun b hb => hstands.mpr hb⟩
  case safe =>
    rintro f h ⟨k, -, J, hJ, hf⟩
    exact hJ.safe hf
  case steps =>
    rintro f h ⟨k, hk, J, hJ, hf⟩
    exact (hJ.steps hf).imp fun _ hnext => ⟨k, hk, J, hJ, hnext⟩
  case follows =>
    rintro f h b g ⟨k, hk, J, hJ, hf⟩ hfollow hb
    exact ⟨k, hk, J, hJ, hJ.follows hf hfollow (hinside.mpr (hstands.mp hb))⟩
  case repeats =>
    rintro f h l' round outer g ⟨k, hk, J, hJ, hf⟩ hrep hlen
    obtain ⟨laps, hlaps, -⟩ := hJ.laps hf
    cases laps with
    | cons lap laps =>
      -- an inner loop repeats
      have : outer = laps ++ (l, k) :: base := (List.cons.inj (hrep.laps.symm.trans hlaps)).2
      refine ⟨k, hk, J, hJ, hJ.repeats hf hrep ?_⟩
      rw [this, List.length_append]
      omega
    | nil =>
      -- this loop itself repeats: its round ends, and the invariant of the next one takes over
      have heq := hrep.laps.symm.trans hlaps
      obtain ⟨⟨rfl, rfl⟩, rfl⟩ : (l' = l ∧ round = k) ∧ outer = base := by simpa using heq
      obtain ⟨loop', hl', hsink, hag, rfl⟩ := hrep.loop
      obtain rfl := Option.some.inj (hl.symm.trans hl')
      have hend := hJ.leaves hf hrep.ended hlaps (fun lap hlap => by cases hlap)
      rw [hsink] at hend
      obtain ⟨J', hJ'⟩ := hbody (round + 1) (.inr hag)
      refine ⟨round + 1, .inr hag, J', hJ', ?_⟩
      rw [← hheader]
      exact hJ'.enters (hagain round h hag hend) (henter (round + 1))
  case leaves =>
    rintro f h laps ⟨k, hk, J, hJ, hf⟩ hend hlaps hrel
    obtain ⟨laps', hlaps', -⟩ := hJ.laps hf
    have heq : laps = laps' ++ [(l, k)] := by
      rw [hlaps'] at hlaps
      have : laps' ++ [(l, k)] ++ base = laps ++ base := by simpa using hlaps
      exact (List.append_cancel_right this).symm
    subst heq
    -- leaving the loop is leaving the round, with one lap more to be released from
    have hpost := hJ.leaves hf hend hlaps'
      (fun lap hlap => hrel lap (List.mem_append_left _ hlap))
    obtain ⟨hallowed, hleft⟩ :=
      hrel (l, k) (List.mem_append_right _ List.mem_cons_self) loop hl
    exact hleave k f.block h (hinside.mp (hJ.block hf)) hallowed hleft hpost

end Loops

/-! ### Bodies -/

theorem around_append (laps laps' : Laps) (b : Nat) :
    Laps.around p (laps ++ laps') b = Laps.around p laps b ++ Laps.around p laps' b :=
  List.filter_append ..

/-- Rounds of loops around a block. -/
theorem around_eq_self {laps : Laps} {b : Nat}
    (hlaps : ∀ lap ∈ laps, ∃ loop, p.loops[lap.1]? = some loop ∧ b ∈ loop.blocks) :
    Laps.around p laps b = laps := by
  unfold Laps.around
  rw [List.filter_eq_self]
  intro lap hlap
  obtain ⟨loop, hl, hb⟩ := hlaps lap hlap
  rw [hl, Option.any_some, Loop.contains, List.contains_iff_mem]
  exact hb

/-- Control that follows an edge out of some blocks to another block of the region is then in the
rounds of the loops around the region only. -/
theorem around_eq_base {inside : Nat → Prop} {laps : Laps} {b : Nat}
    (hin : ∀ lap ∈ laps, ∃ loop, p.loops[lap.1]? = some loop ∧ ∀ b ∈ loop.blocks, inside b)
    (hbase : ∀ lap ∈ base, ∃ loop, p.loops[lap.1]? = some loop ∧ b ∈ loop.blocks)
    (hb : ¬ inside b) : Laps.around p (laps ++ base) b = base := by
  have hleft : Laps.around p laps b = [] := by
    unfold Laps.around
    rw [List.filter_eq_nil_iff]
    intro lap hlap hany
    obtain ⟨loop, hl, hloop⟩ := hin lap hlap
    rw [hl, Option.any_some, Loop.contains, List.contains_iff_mem] at hany
    exact hb (hloop b hany)
  rw [around_append, hleft, around_eq_self hbase, List.nil_append]

/-- The loops of some laps lie around a region. -/
def Encloses (p : Procedure) (base : Laps) (region : Option Nat) : Prop :=
  ∀ lap ∈ base, ∃ loop, p.loops[lap.1]? = some loop ∧ ∀ b, p.Inside region b → b ∈ loop.blocks

/-- An inner loop is enclosed by one more lap. -/
theorem Encloses.inner {l : Nat} {loop : Loop} (hp : p.WellFormed) (hbase : Encloses p base region)
    (hr : r ∈ p.orderOf region) (hh : p.headerOf? r = some l) (hne : some l ≠ region)
    (hl : p.loops[l]? = some loop) (round : Nat) : Encloses p ((l, round) :: base) (some l) := by
  have hinside {b : Nat} := Procedure.inside_loop hl (b := b)
  intro lap hlap
  rcases List.mem_cons.mp hlap with rfl | hlap
  · exact ⟨loop, hl, fun b => hinside.mp⟩
  · obtain ⟨outer, ho, hin⟩ := hbase lap hlap
    refine ⟨outer, ho, fun b hb => hin b (hp.inside hr ?_)⟩
    exact .inr ⟨l, loop, hh, hne, hl, hinside.mp hb⟩

/-- Control that follows an edge out of some blocks leaves all loops among them. -/
theorem Follows.out {inside : Nat → Prop} {laps : Laps} {f g : Frame} {b : Nat}
    (h : Follows policy p f b g) (hlaps : f.laps = laps ++ base)
    (hin : ∀ lap ∈ laps, ∃ loop, p.loops[lap.1]? = some loop ∧ ∀ b ∈ loop.blocks, inside b)
    (hb : ¬ inside b) : Out policy p laps f.block := by
  intro lap hlap loop hl
  obtain ⟨loop', hl', hloop⟩ := hin lap hlap
  obtain rfl := Option.some.inj (hl.symm.trans hl')
  have hout : b ∉ loop.blocks := fun hmem => hb (hloop b hmem)
  exact ⟨h.released lap (hlaps ▸ List.mem_append_left _ hlap) loop hl hout,
    .inl ⟨b, h.edge, hout⟩⟩

/-- Control that follows an edge out of some blocks to a block of the order enters that block. -/
theorem Follows.enters {inside : Nat → Prop} {laps : Laps} {f g : Frame} {b : Nat}
    (h : Follows policy p f b g) (hp : p.WellFormed) (hbase : Encloses p base region)
    (hlaps : f.laps = laps ++ base)
    (hin : ∀ lap ∈ laps, ∃ loop, p.loops[lap.1]? = some loop ∧ ∀ b ∈ loop.blocks, inside b)
    (hb : ¬ inside b) (hfrom : p.Inside region f.block) (hto : p.Inside region b) :
    Enters p region base b g := by
  have harr := h.arrives
  rw [hlaps, around_eq_base hin (fun lap hlap => ?_) hb] at harr
  · refine harr.enters fun hreg => ?_
    cases region with
    | none => exact hreg
    | some l =>
      -- no edge leads back to the header
      obtain ⟨loop, hl, rfl⟩ := hp.headerOf_iff.mp hreg
      refine absurd hfrom (hp.not_inside_of_edge_head ?_ h.edge)
      rw [Procedure.orderOf, hl]
      exact hp.head_loop hl
  · obtain ⟨loop, hl, hloop⟩ := hbase lap hlap
    exact ⟨loop, hl, hloop b hto⟩

/-- A body, from what holds before each block of its order: what holds when control leaves a
predecessor. -/
theorem flow_body (hp : p.WellFormed) (before : Nat → History → Prop)
    (hbase : Encloses p base region)
    (hflow : ∀ s ∈ p.orderOf region, FlowAt policy program ok p region base s (before s) post)
    (hedge : ∀ {first v rest u}, p.orderOf region = first ++ v :: rest → first ≠ [] →
      p.Edge u v → ∀ h, post u h → before v h)
    (hhead : (p.orderOf region).head? = some r) :
    FlowBody policy program ok p region base (before r) post := by
  -- the invariant of the block of the order that stands for where control is
  refine ⟨fun f h => ∃ s ∈ p.orderOf region, ∃ J, Invariant policy program ok p
    (p.StandsFor region s) base (Enters p region base s) (before s) post J ∧ J f h, ?_⟩
  constructor
  case enters =>
    rintro f h hpre ⟨s, hs, hf⟩
    obtain rfl : r = s := Option.some.inj (hhead.symm.trans hs)
    have hr := List.mem_of_mem_head? hhead
    obtain ⟨J, hJ⟩ := hflow r hr
    exact ⟨r, hr, J, hJ, hJ.enters hpre hf⟩
  case block =>
    rintro f h ⟨s, hs, J, hJ, hf⟩
    exact hp.inside hs (hJ.block hf)
  case laps =>
    rintro f h ⟨s, hs, J, hJ, hf⟩
    obtain ⟨laps, hlaps, hin⟩ := hJ.laps hf
    refine ⟨laps, hlaps, fun lap hlap => ?_⟩
    obtain ⟨loop, hl, hloop⟩ := hin lap hlap
    exact ⟨loop, hl, fun b hb => hp.inside hs (hloop b hb)⟩
  case safe =>
    rintro f h ⟨s, -, J, hJ, hf⟩
    exact hJ.safe hf
  case steps =>
    rintro f h ⟨s, hs, J, hJ, hf⟩
    exact (hJ.steps hf).imp fun _ hnext => ⟨s, hs, J, hJ, hnext⟩
  case follows =>
    rintro f h b g ⟨s, hs, J, hJ, hf⟩ hfollow hb
    by_cases hsb : p.StandsFor region s b
    · exact ⟨s, hs, J, hJ, hJ.follows hf hfollow hsb⟩
    -- control leaves what `s` stands for and arrives at another block of the order
    obtain ⟨laps, hlaps, hin⟩ := hJ.laps hf
    have hpost := hJ.leaves hf hfollow.ended hlaps (hfollow.out hlaps hin hsb)
    obtain ⟨t, ht, htb⟩ := hp.exists_standsFor hb
    obtain ⟨rfl, first, rest, hne, ho⟩ :=
      hp.enters_at hs ht (hJ.block hf) htb hsb hfollow.edge
    obtain ⟨K, hK⟩ := hflow b ht
    refine ⟨b, ht, K, hK, hK.enters (hedge ho hne hfollow.edge h hpost) ?_⟩
    exact hfollow.enters hp hbase hlaps hin hsb (hp.inside hs (hJ.block hf)) hb
  case repeats =>
    rintro f h l round outer g ⟨s, hs, J, hJ, hf⟩ hrep hlen
    exact ⟨s, hs, J, hJ, hJ.repeats hf hrep hlen⟩
  case leaves =>
    rintro f h laps ⟨s, -, J, hJ, hf⟩ hend hlaps hrel
    exact hJ.leaves hf hend hlaps hrel

theorem keep_of_suffix {keep : History → Prop} (hkeep : ∀ i h, keep h → keep (i :: h))
    {h h' : History} (hs : h <:+ h') (hh : keep h) : keep h' := by
  obtain ⟨t, rfl⟩ := hs
  induction t with
  | nil => exact hh
  | cons i t ih => exact hkeep i _ ih

/-- Control is in a region and in some rounds of loops of the region. -/
def Stays (p : Procedure) (region : Option Nat) (base : Laps) (f : Frame) : Prop :=
  p.Inside region f.block ∧ ∃ laps, f.laps = laps ++ base ∧
    ∀ lap ∈ laps, ∃ loop, p.loops[lap.1]? = some loop ∧ ∀ b ∈ loop.blocks, p.Inside region b

/-- Control arrives at a block of a region, be it the header of a loop or not. -/
theorem Arrives.stays (hp : p.WellFormed) {laps : Laps} {f : Frame} {b : Nat}
    (h : Arrives p (laps ++ base) b f) (hb : p.Inside region b)
    (hlaps : ∀ lap ∈ laps, ∃ loop, p.loops[lap.1]? = some loop ∧
      ∀ b ∈ loop.blocks, p.Inside region b) : Stays p region base f := by
  cases h with
  | block => exact ⟨hb, laps, rfl, hlaps⟩
  | enter hheader hl _ =>
    obtain ⟨loop, hloop, rfl⟩ := hp.headerOf_iff.mp hheader
    refine ⟨hb, _ :: laps, rfl, fun lap hlap => ?_⟩
    rcases List.mem_cons.mp hlap with rfl | hlap
    · exact ⟨loop, hloop, fun b hmem => hp.nested hloop hb hmem⟩
    · exact hlaps lap hlap
  | pass hheader hl _ hmem heq _ =>
    obtain ⟨loop, hloop, rfl⟩ := hp.headerOf_iff.mp hheader
    obtain rfl := Option.some.inj (hl.symm.trans hloop)
    exact ⟨hp.nested hl hb hmem, laps, heq, hlaps⟩

/-- Control that moves on inside a region stays in the laps of the region. -/
theorem Stays.follows (hp : p.WellFormed) (hbase : Encloses p base region) {f g : Frame} {b : Nat}
    (h : Stays p region base f) (hf : Follows policy p f b g) (hb : p.Inside region b) :
    Stays p region base g := by
  obtain ⟨-, laps, hlaps, hloops⟩ := h
  have hself : Laps.around p base b = base := by
    apply around_eq_self
    intro lap hlap
    obtain ⟨loop, hl, hloop⟩ := hbase lap hlap
    exact ⟨loop, hl, hloop b hb⟩
  have harr := hf.arrives
  rw [hlaps, around_append, hself] at harr
  exact harr.stays hp hb fun lap hlap => hloops lap (List.mem_of_mem_filter hlap)

/-- Control that repeats a loop of a region stays in the laps of the region. -/
theorem Stays.repeats (hp : p.WellFormed) {f g : Frame} {l round : Nat} {outer : Laps}
    (h : Stays p region base f) (hr : Repeats policy p l round outer f g)
    (hlen : base.length ≤ outer.length) : Stays p region base g := by
  obtain ⟨-, laps, hlaps, hloops⟩ := h
  obtain ⟨loop, hl, -, -, rfl⟩ := hr.loop
  cases laps with
  | nil =>
    obtain rfl : f.laps = base := hlaps
    exact absurd hr.length_lt (Nat.not_lt.mpr hlen)
  | cons lap laps =>
    obtain ⟨rfl, rfl⟩ := List.cons.inj (hr.laps.symm.trans hlaps)
    obtain ⟨loop', hl', hin⟩ := hloops _ List.mem_cons_self
    obtain rfl := Option.some.inj (hl.symm.trans hl')
    refine ⟨hin _ (hp.header_mem hl), (l, round + 1) :: laps, rfl, fun lap hlap => ?_⟩
    rcases List.mem_cons.mp hlap with rfl | hlap
    · exact ⟨loop, hl, hin⟩
    · exact hloops lap (List.mem_cons_of_mem _ hlap)

/-- What is kept by every fetch is kept by a whole region. -/
theorem flow_kept (hp : p.WellFormed) (hbase : Encloses p base region) {keep : History → Prop}
    (hkeep : ∀ i h, keep h → keep (i :: h)) :
    FlowBody policy program (fun _ => True) p region base keep (fun _ => keep) := by
  refine ⟨fun f h => keep h ∧ Stays p region base f, ?_⟩
  constructor
  case enters =>
    rintro f h hh ⟨r, hr, hf⟩
    have hin : p.Inside region r := hp.inside_of_mem_order (List.mem_of_mem_head? hr)
    refine ⟨hh, ?_⟩
    rw [Enters] at hf
    split at hf
    · rw [hf]
      exact ⟨hin, [], rfl, by simp⟩
    · -- the region starts with an inner loop, entered with no laps but those of the base
      have harr : Arrives p ([] ++ base) r f := hf
      exact harr.stays hp hin (by simp)
  case block => exact fun h => h.2.1
  case laps => exact fun h => h.2.2
  case safe => exact fun _ => trivial
  case steps =>
    rintro f h ⟨hh, hstays⟩ i -
    refine ⟨trivial, ?_⟩
    cases i.callee with
    | none => exact ⟨hkeep _ _ hh, hstays⟩
    | some q =>
      refine ⟨?_, fun _ _ _ => trivial⟩
      rintro callee _ h' - rfl ⟨g, hw, -⟩
      exact ⟨keep_of_suffix hkeep hw.suffix (hkeep _ _ hh), hstays⟩
  case follows => exact fun h hf hb => ⟨h.1, h.2.follows hp hbase hf hb⟩
  case repeats => exact fun h hr hlen => ⟨h.1, h.2.repeats hp hr hlen⟩
  case leaves => exact fun h _ _ _ => h.1

/-! ### Procedures -/

/-- A procedure, from a judgement about its body. -/
theorem contract_of_body (hp : p.WellFormed) {q : Nat} (hq : program.procedures[q]? = some p)
    {result : History → Prop} (hbody : FlowBody policy program ok p none [] pre post)
    (hsinks : ∀ b ∈ p.sinks, ∀ h, post b h → result h) :
    Contract policy program ok q pre result := by
  obtain ⟨I, hI⟩ := hbody
  -- a procedure has no laps below it, so the invariant of its body is one of all its walks
  have hwalk : ∀ {start f h}, pre start → Walk policy program p start f h → I f h := by
    intro start f h hpre hw
    refine hw.invariant ?_ ?_ ?_ ?_ ?_
    · intro f hf
      exact hI.enters hpre ⟨0, hp.head_order, hf.enters id⟩
    · intro f h i hf hi hc
      have hnext := (hI.steps hf i hi).2
      rwa [hc] at hnext
    · intro f h i q callee h' hf hi hc hcallee hcomp
      have hnext := (hI.steps hf i hi).2
      rw [hc] at hnext
      exact hnext.returns hcallee rfl hcomp
    · intro f h b g hf hfollow
      obtain ⟨block, hb, -⟩ := hp.edge_iff.mp hfollow.edge
      exact hI.follows hf hfollow (List.getElem?_eq_some_iff.mp hb).1
    · intro f h l round outer g hf hrep
      exact hI.repeats hf hrep (Nat.zero_le _)
  constructor
  case returns =>
    rintro p' start h hp' hpre ⟨f, hw, hleave⟩
    obtain rfl := Option.some.inj (hq.symm.trans hp')
    exact hsinks _ hleave.sink h (hI.leaves (hwalk hpre hw) hleave.ended (List.append_nil _).symm
      fun lap hlap loop hl => ⟨hleave.released lap hlap loop hl, .inr hleave.sink⟩)
  case safe =>
    intro p' start h hp' hpre hexec
    obtain rfl := Option.some.inj (hq.symm.trans hp')
    cases hexec with
    | here hw => exact hI.safe (hwalk hpre hw)
    | inside hw hi hc hcallee hexec =>
      have hnext := (hI.steps (hwalk hpre hw) _ hi).2
      rw [hc] at hnext
      exact hnext.safe hcallee rfl hexec

end CycleBounds.Run
