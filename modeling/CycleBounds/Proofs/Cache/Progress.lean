import CycleBounds.Proofs.Cache.Chains
import CycleBounds.Proofs.Cache.Lines
import CycleBounds.Proofs.Run.Parts

/-!
# Cache analyses come to their end

The analysis of an accepted program has a result unless a number overflows, if no more loops are
nested than a context can tell apart. Blocks are reached after their predecessors, a block is always
recorded with the same lines, and the search for a steady state ends, since the states of a program
do not grow for ever.

* `Followable.ensures_region`: a body is followed to its end if calls and inner loops are.
* `ensures_settle`: the search for a steady state ends.
* `BodyEnds.innerEnds`: a loop is followed to its end if its body is.
* `Followable.innerEnds`, `ensures_procedureAt`: loops and calls are.
* `Hierarchy.ensures_analyze`: all levels of a hierarchy can be analysed.
-/

namespace CycleBounds.Cache.Level

open Code (Program Procedure Loop Instruction)
open Run (Sweep NestedIn nestedIn_root nestedIn_nest)

variable {subject : Subject} {call : Call} {inner : Inner} {recording : Bool} {p : Procedure}
  {context : Context} {s : State}

def programLines (subject : Subject) : List Nat :=
  linesOf subject.config
    (subject.program.procedures.flatMap fun p => p.blocks.flatMap (·.instructions))

/-- The lines of a state are lines of the program. -/
def Known (subject : Subject) (s : State) : Prop :=
  s.Within subject.config (programLines subject)

/-- The number of rounds for which a loop is given is enough for every chain of states. -/
theorem Known.rank_le (hs : Known subject s) :
    s.rank subject.config (programLines subject) ≤ longestChain subject := by
  have hle := State.Within.rank_le hs
  rwa [programLines, linesOf, List.length_map] at hle

/-- The sums of what is recorded may overflow. Nothing else does. -/
def Overflows (recording : Bool) (cause : Fault) : Prop :=
  recording = true ∧ cause = .overflow

theorem not_overflows_silent (cause : Fault) : ¬ Overflows false cause := by
  rintro ⟨⟨⟩, -⟩

/-! ### Blocks -/

theorem Known.fetch (hs : Known subject s) {above : Option Access} {address : Nat}
    (hline : subject.config.line address ∈ programLines subject) :
    Known subject (fetch subject.config above s address).2 := by
  rw [Level.fetch.eq_def]
  split
  case h_1 | h_2 => exact hs.accessLine hline
  case h_3 | h_4 => exact hs
  case h_5 | h_6 => exact State.Within.accessMaybe hs hline

def Returns (subject : Subject) (call : Call) (q : Nat) : Prop :=
  ∀ recording s f, Known subject s → Located subject f.records →
    Ensures (Overflows recording) (call recording q s f).result fun r => Known subject r.1

/-- An instruction is followed to its end if its call has a result. -/
theorem ensures_instruction (hlocates : CallLocates subject call) {i : Instruction × Option Access}
    (hcall : ∀ q, i.1.callee = some q → Returns subject call q)
    (hline : subject.config.line i.1.address ∈ programLines subject) {x : Progress}
    (hx : Known subject x.state ∧ Located subject x.findings.records) :
    Ensures (Overflows recording) (instruction subject.config call recording x i).result
      fun y => Known subject y.state ∧ Located subject y.findings.records := by
  have hfetch : Known subject (fetch subject.config i.2 x.state i.1.address).2 :=
    hx.1.fetch hline
  have hended : Ensures (Overflows recording) (instruction subject.config call recording x i).result
      fun y => Known subject y.state := by
    cases hc : i.1.callee with
    | none =>
      simp only [instruction, hc]
      exact hfetch
    | some q =>
      simp only [instruction, hc, Traced.result_bind]
      refine (hcall q hc _ _ _ hfetch ?_).bind fun r _ hr => ?_
      · exact (records_noted (f := x.findings)).symm ▸ hx.2
      · exact hr.join hfetch
  -- what is recorded stays located whenever the instruction is followed to its end
  refine hended.imp fun y hy hknown => ⟨hknown, ?_⟩
  exact instruction_located hlocates hy hx.2

theorem ensures_ofFetches {c : Config} {fetches : List Fetch} :
    Ensures (Overflows true) (Record.ofFetches c context fetches) fun _ => True := by
  have hsum : ∀ costs, Ensures (Overflows true) (Word.sum costs) fun _ => True :=
    fun costs => (Word.ensures_sum costs).allow fun cause => And.intro rfl
  exact (hsum _).bind fun bcost _ _ => (hsum _).bind fun wcost _ _ => trivial

/-- A block is recorded with as many fetches as before. -/
theorem Located.ensures_record {k : Classification} (h : Located subject k) {place : Place}
    {fetches : List Fetch} {block : Code.Block}
    (hp : subject.program.procedures[place.procedure]? = some p)
    (hblock : p.blocks[place.block]? = some block)
    (hlines : fetches.map (·.line) = linesOf subject.config block.instructions) :
    Ensures (Overflows true) (k.record place fetches) fun _ => True := by
  refine ensures_ofFetches.bind fun fresh hfresh _ => ?_
  cases hget : k.get? place with
  | none => trivial
  | some old =>
    -- all records of a place have the lines of its block, so the lists to be joined are of one
    -- length
    have hlength : old.fetches.length = fresh.fetches.length := by
      obtain ⟨p', block', hp', hblock', hold⟩ := h.lines hget
      obtain rfl := Option.some.inj (hp.symm.trans hp')
      obtain rfl := Option.some.inj (hblock.symm.trans hblock')
      have := congrArg List.length (hold.trans hlines.symm)
      rw [Record.ofFetches_eq_ok hfresh]
      simpa using this
    have hjoin : Ensures (Overflows true) (old.join k.config place.context fresh)
        fun _ => True := by
      have hassume : assume (old.fetches.length = fresh.fetches.length) .differentBlocks = .ok () :=
        assume_eq_ok.mpr (decide_eq_true hlength)
      exact (Ensures.of_ok (P := fun _ => True) hassume trivial).bind fun _ _ _ => ensures_ofFetches
    exact hjoin.bind fun stored _ _ => trivial

def CallsReturn (subject : Subject) (call : Call) (p : Procedure) : Prop :=
  ∀ q ∈ p.callees, Returns subject call q

theorem mem_programLines {q b : Nat} {block : Code.Block} {i : Instruction}
    (hp : subject.program.procedures[q]? = some p) (hblock : p.blocks[b]? = some block)
    (hi : i ∈ block.instructions) : subject.config.line i.address ∈ programLines subject := by
  refine List.mem_map.mpr ⟨i, List.mem_flatMap.mpr ⟨p, List.mem_of_getElem? hp, ?_⟩, rfl⟩
  exact List.mem_flatMap.mpr ⟨block, List.mem_of_getElem? hblock, hi⟩

theorem mem_of_mem_withUpper {place : Place} {is : List Instruction}
    {i : Instruction × Option Access} (hi : i ∈ withUpper subject.upper place is) : i.1 ∈ is := by
  obtain ⟨n, hn⟩ := List.getElem?_of_mem hi
  rw [withUpper_getElem?, Option.map_eq_some_iff] at hn
  obtain ⟨i', hi', rfl⟩ := hn
  exact List.mem_of_getElem? hi'

/-- Instructions of a block are followed one after the other. -/
theorem ensures_instructions (hp : subject.program.procedures[p.id]? = some p)
    (hlocates : CallLocates subject call) (hcalls : CallsReturn subject call p) {b : Nat}
    {block : Code.Block} (hblock : p.blocks[b]? = some block)
    {is : List (Instruction × Option Access)} (his : ∀ i ∈ is, i.1 ∈ block.instructions)
    {x : Progress} (hx : Known subject x.state ∧ Located subject x.findings.records) :
    Ensures (Overflows recording)
      (is.foldlM (fun x i => (instruction subject.config call recording x i).result) x)
      fun y => Known subject y.state ∧ Located subject y.findings.records := by
  refine Ensures.foldlM_keep (fun i hi x hx => ?_) hx
  refine ensures_instruction hlocates (fun q hq => hcalls q ?_)
    (mem_programLines hp hblock (his i hi)) hx
  exact Procedure.mem_callees hblock (his i hi) hq

/-- A block is followed to its end if its calls have results. -/
theorem ensures_block (hp : subject.program.procedures[p.id]? = some p)
    (hlocates : CallLocates subject call) (hcalls : CallsReturn subject call p) {b : Nat}
    (hb : b < p.blocks.length) (hs : Known subject s) {f : Findings}
    (hf : Located subject f.records) :
    Ensures (Overflows recording) (block subject call recording p b context s f).result
      fun r => Known subject r.1 := by
  have hget : p.blocks[b]? = some p.blocks[b] := List.getElem?_eq_getElem hb
  have hblock : p.block b = .ok p.blocks[b] := entryAt_eq_ok.mpr hget
  simp only [block, Traced.result_bind, Traced.result_foldlM, Traced.result_liftM, hblock]
  refine (ensures_instructions hp hlocates hcalls hget (fun i => mem_of_mem_withUpper)
    ⟨hs, hf⟩).bind fun x hfold hx => ?_
  cases recording with
  | false => exact hx.1
  | true =>
    obtain ⟨g, hg, -, rfl⟩ := exists_course rfl hfold
    have hlines := hg.lines_fetched (Nat.le_refl _)
    rw [List.take_length] at hlines
    simp only [if_true, Traced.result_bind, Traced.result_emit, Traced.result_liftM]
    exact (hx.2.ensures_record hp hget hlines).bind fun records _ _ => hx.1

/-! ### Bodies -/

/-- A procedure that can be followed: its blocks are reached in their order, its loops do not nest
too deep, and its calls have results. -/
structure Followable (subject : Subject) (call : Call) (p : Procedure) : Prop where
  wellFormed : p.WellFormed
  passable : p.Passable
  self : subject.program.procedures[p.id]? = some p
  level_lt : ∀ {l : Nat} {loop : Loop}, p.loops[l]? = some loop → loop.level < Context.maxDepth
  sound : ∀ (final : Findings) (feed : Feed subject.config), CallSound subject final feed call
  locates : CallLocates subject call
  returns : CallsReturn subject call p

def Ended (subject : Subject) (p : Procedure) (region : Option Nat) (out : Table Nat State) :
    Prop :=
  ∀ b, p.Inside region b → ∃ o, out.get? b = some o ∧ Known subject o

def InnerEnds (subject : Subject) (p : Procedure) (inner : Inner) (l : Nat) (context : Context) :
    Prop :=
  ∀ recording s pass, Known subject s → Located subject pass.findings.records →
    Ensures (Overflows recording) (inner recording l context s pass).result
      fun pass' => Ended subject p (some l) pass'.out

def InnersEnd (subject : Subject) (p : Procedure) (inner : Inner) (region : Option Nat)
    (context : Context) : Prop :=
  ∀ r l, r ∈ p.orderOf region → p.headerOf? r = some l → some l ≠ region →
    InnerEnds subject p inner l context

/-- A block has a known state to start from if an edge leads to it. -/
theorem ensures_stateBefore {allowed : Fault → Prop} (hp : p.WellFormed) {out : Table Nat State}
    {u v : Nat} (hedge : p.Edge u v)
    (hpreds : ∀ u, p.Edge u v → ∃ o, out.get? u = some o ∧ Known subject o) :
    Ensures allowed (stateBefore p out v) (Known subject) := by
  obtain ⟨block, hblock, hu⟩ := hp.edge_iff.mp hedge
  obtain ⟨o, ho, -⟩ := hpreds u hedge
  have hmem : o ∈ block.preds.filterMap out.get? := List.mem_filterMap.mpr ⟨u, hu, ho⟩
  have hknown : ∀ o ∈ block.preds.filterMap out.get?, Known subject o := by
    intro o ho
    obtain ⟨u, hu, hget⟩ := List.mem_filterMap.mp ho
    obtain ⟨o', hget', ho'⟩ := hpreds u (hp.edge_iff.mpr ⟨block, hblock, hu⟩)
    obtain rfl := Option.some.inj (hget.symm.trans hget')
    exact ho'
  have hentry : Ensures allowed (p.block v) (· = block) :=
    .of_ok (entryAt_eq_ok.mpr hblock) rfl
  unfold stateBefore
  refine hentry.bind fun _ _ heq => ?_
  subst heq
  -- an edge leads here, so there is a state to start the join from
  split
  · rename_i hlist
    rw [hlist] at hmem
    cases hmem
  · rename_i t rest hlist
    rw [hlist] at hknown
    exact State.foldl_join_of_forall State.Within.join hknown

namespace Followable

variable {region : Option Nat} {m : Nat} {pass : Pass}

/-- A block of a body is followed to its end, and so is the inner loop that it stands for. -/
theorem ensures_visit (h : Followable subject call p)
    (hinner : InnersEnd subject p inner region context) {r : Nat} (hr : r ∈ p.orderOf region)
    (hs : Known subject s) (hlocated : Located subject pass.findings.records) :
    Ensures (Overflows recording)
      (visit subject call inner recording p region context r s pass).result fun pass' =>
        ∀ b, p.StandsFor region r b → ∃ o, pass'.out.get? b = some o ∧ Known subject o := by
  have hlt : r < p.blocks.length := h.passable.lt_length (h.wellFormed.inside_of_mem_order hr)
  have hget : p.blocks[r]? = some p.blocks[r] := List.getElem?_eq_getElem hlt
  have hblock : p.block r = .ok p.blocks[r] := entryAt_eq_ok.mpr hget
  have hcases := Procedure.headerOf?_cases hget region
  have hentry : Ensures (Overflows recording) (p.block r) (· = p.blocks[r]) := .of_ok hblock rfl
  simp only [visit, Traced.result_bind, Traced.result_liftM]
  refine hentry.bind fun _ _ heq => ?_
  subst heq
  cases hfilter : p.blocks[r].headerOf.filter fun l => some l ≠ region with
  | some l =>
    rw [hfilter] at hcases
    refine (hinner r l hr hcases.1 hcases.2 recording s pass hs hlocated).imp ?_
    intro pass' _ hended b hb
    exact hended b (hb.inside_inner hcases.1 hcases.2)
  | none =>
    rw [hfilter] at hcases
    simp only [Traced.result_bind]
    refine (ensures_block h.self h.locates h.returns hlt hs hlocated).bind fun after _ hafter => ?_
    intro b hb
    obtain rfl := hb.eq_self hcases
    exact ⟨after.1, Table.get?_insert_self _ _ _, hafter⟩

theorem local_sweep (h : Followable subject call p) :
    (sweep subject call (loopAt subject call p m) recording p region context).Local p region :=
  sweep_local (innerSound_loopAt h.wellFormed
    (h.sound ⟨.empty subject.config, .empty⟩ (firstFeed subject.config)) m)

/-- The blocks of a body are visited one after the other. -/
theorem advances (h : Followable subject call p)
    (hinner : InnersEnd subject p (loopAt subject call p m) region context) :
    (sweep subject call (loopAt subject call p m) recording p region context).Advances p region
      (Overflows recording) (fun pass => Located subject pass.findings.records)
      (Known subject) := by
  constructor
  case visit =>
    intro r hr s pass hs hlocated
    apply (h.ensures_visit hinner hr hs hlocated).imp
    intro pass' hv hended
    refine ⟨?_, hended⟩
    exact visit_located h.locates (innerLocates_loopAt h.locates h.self m) h.self hv hlocated
  case before =>
    intro pre v post pass ho hne hpreds
    obtain ⟨u, hu⟩ := h.passable.exists_pred ho hne
    exact ensures_stateBefore h.wellFormed hu hpreds

/-- A body is followed to its end. -/
theorem ensures_region (h : Followable subject call p)
    (hinner : InnersEnd subject p (loopAt subject call p m) region context) (hs : Known subject s)
    (hlocated : Located subject pass.findings.records) :
    Ensures (Overflows recording) (Level.region subject call (loopAt subject call p m) recording p
      region context (p.orderOf region) s pass).result fun pass' =>
        Located subject pass'.findings.records ∧ Ended subject p region pass'.out := by
  rw [region_result]
  exact (h.advances hinner).ensures_run h.wellFormed h.local_sweep hs hlocated

end Followable

/-! ### Loops -/

/-- The search for a steady state ends: the rank of the state grows with every round. -/
theorem ensures_settle {allowed : Fault → Prop} {run : State → Pass → Traced Fault Pass}
    {sink : Nat} {unstable : Defect} {kept ended : Pass → Prop}
    (hrun : ∀ s pass, Known subject s → kept pass →
      Ensures allowed (run s pass).result fun pass' => kept pass' ∧ ended pass')
    (hsink : ∀ pass, ended pass → ∃ o, pass.out.get? sink = some o ∧ Known subject o)
    {fuel rounds : Nat} {head : State} {pass : Pass} (hhead : Known subject head)
    (hpass : kept pass)
    (hfuel : longestChain subject < fuel + head.rank subject.config (programLines subject)) :
    Ensures allowed (settle run sink unstable fuel rounds head pass).result
      fun r => Known subject r.1 ∧ kept r.2.2 ∧ ended r.2.2 := by
  induction fuel generalizing rounds head pass with
  | zero =>
    -- no state ranks above the longest chain, so there is fuel left
    have := hhead.rank_le
    omega
  | succ fuel ih =>
    simp only [settle, Traced.result_bind, Traced.result_liftM]
    refine (hrun head pass hhead hpass).bind fun pass' _ hafter => ?_
    obtain ⟨hpass', hended⟩ := hafter
    obtain ⟨o, ho, hknown⟩ := hsink pass' hended
    rw [stateAfter_eq_ok.mpr ho]
    show Ensures _ (Traced.result (if head.join o = head then _ else _)) _
    split
    · exact ⟨hhead, hpass', hended⟩
    · rename_i hne
      have hrank := State.Within.rank_lt_join hhead hknown hne
      exact ih (hhead.join hknown) hpass' (by omega)

/-- The states of the first and the steady iterations are joined. -/
theorem ensures_joinPasses {allowed : Fault → Prop} {l : Nat} {loop : Loop}
    (hl : p.loops[l]? = some loop) {first out : Table Nat State}
    (hfirst : Ended subject p (some l) first) (hout : Ended subject p (some l) out) :
    Ensures allowed (joinPasses (ends loop first) out) (Ended subject p (some l)) := by
  refine Ensures.foldlM_keep (fun e he out hout => ?_) hout
  obtain ⟨b, s⟩ := e
  obtain ⟨hmem, hget⟩ := mem_ends.mp he
  have hin : p.Inside (some l) b := ⟨loop, hl, hmem⟩
  obtain ⟨t, ht, htknown⟩ := hout b hin
  obtain ⟨s', hs', hsknown⟩ := hfirst b hin
  obtain rfl := Option.some.inj (hget.symm.trans hs')
  simp only [stateAfter_eq_ok.mpr ht]
  intro b' hb'
  by_cases heq : b' = b
  · exact ⟨s.join t, heq ▸ Table.get?_insert_self _ _ _, hsknown.join htknown⟩
  · obtain ⟨o, ho, hoknown⟩ := hout b' hb'
    exact ⟨o, (Table.get?_insert_of_ne _ heq _).trans ho, hoknown⟩

theorem ensures_enter {allowed : Fault → Prop} (hdepth : context.depth < Context.maxDepth)
    (it : Iteration) : Ensures allowed (context.enter it) (· = context.nest it) := by
  unfold Context.enter
  rw [if_pos hdepth]
  rfl

def BodyEnds (subject : Subject) (call : Call) (inner : Inner) (p : Procedure) (l : Nat)
    (loop : Loop) (context : Context) : Prop :=
  ∀ it recording s pass, Known subject s → Located subject pass.findings.records →
    Ensures (Overflows recording) (region subject call inner recording p (some l) (context.nest it)
      loop.order s pass).result fun pass' =>
        Located subject pass'.findings.records ∧ Ended subject p (some l) pass'.out

/-- A loop is followed to its end if its body is. -/
theorem BodyEnds.innerEnds (hp : p.WellFormed) {n l : Nat} {loop : Loop}
    (hl : p.loops[l]? = some loop) (hdepth : context.depth < Context.maxDepth)
    (hbody : BodyEnds subject call (loopAt subject call p n) p l loop context) :
    InnerEnds subject p (loopAt subject call p (n + 1)) l context := by
  intro recording s pass hs hlocated
  have hentry : p.loop l = .ok loop := entryAt_eq_ok.mpr hl
  have hsink : ∀ pass : Pass, Ended subject p (some l) pass.out →
      ∃ o, pass.out.get? loop.sink = some o ∧ Known subject o :=
    fun pass hended => hended loop.sink (hp.sink_inside hl)
  simp only [loopAt, Traced.result_bind, Traced.result_liftM, hentry]
  show Ensures _ (Traced.result (if loop.bound = 0 then _ else _)) _
  -- a loop of bound zero leaves the state as it is after all its blocks
  split
  · rintro b ⟨loop', hl', hmem⟩
    obtain rfl := Option.some.inj (hl.symm.trans hl')
    exact ⟨s, get?_spread.trans (if_pos hmem), hs⟩
  simp only [Traced.result_bind, Traced.result_liftM, Traced.result_emit]
  refine (ensures_enter hdepth .first).bind fun _ _ heq => ?_
  rw [heq]
  refine (ensures_enter hdepth .steady).bind fun _ _ heq => ?_
  rw [heq]
  refine (hbody .first recording s pass hs hlocated).bind fun pass₁ _ hfirst => ?_
  obtain ⟨hlocated₁, hended₁⟩ := hfirst
  obtain ⟨head₁, hget, hhead₁⟩ := hsink pass₁ hended₁
  rw [stateAfter_eq_ok.mpr hget]
  -- the search does not record, so nothing overflows in it
  have hsilent : ∀ cause, Overflows false cause → Overflows recording cause :=
    fun cause hcause => absurd hcause (not_overflows_silent cause)
  refine ((ensures_settle (hbody .steady false) hsink hhead₁ hlocated₁ (by omega)).allow
    hsilent).bind ?_
  rintro ⟨head, rounds, pass₂⟩ - ⟨hhead, hlocated₂, hended₂⟩
  -- the steady iteration is followed once more if it is to be recorded
  cases recording with
  | false =>
    simp only [Bool.false_eq_true, if_false, Traced.result_bind, Traced.result_pure,
      Traced.result_liftM]
    exact (ensures_joinPasses hl hended₁ hended₂).bind fun out _ hended => hended
  | true =>
    simp only [if_true, Traced.result_bind, Traced.result_liftM]
    refine (hbody .steady true head pass₂ hhead hlocated₂).bind fun pass₃ _ hsteady => ?_
    exact (ensures_joinPasses hl hended₁ hsteady.2).bind fun out _ hended => hended

namespace Followable

variable {region : Option Nat} {m l : Nat} {loop : Loop}

theorem bodyEnds (h : Followable subject call p) (hl : p.loops[l]? = some loop)
    (hinner : ∀ it, InnersEnd subject p (loopAt subject call p m) (some l) (context.nest it)) :
    BodyEnds subject call (loopAt subject call p m) p l loop context := by
  intro it recording s pass hs hlocated
  rw [← Procedure.orderOf_loop hl]
  exact h.ensures_region (hinner it) hs hlocated

/-- Loops are followed to their ends. -/
theorem innerEnds (h : Followable subject call p) (hl : p.loops[l]? = some loop)
    (hdepth : context.depth ≤ loop.level) (hlength : p.loops.length ≤ m + context.depth) :
    InnerEnds subject p (loopAt subject call p m) l context := by
  induction m generalizing l loop context with
  | zero =>
    have := h.passable.level_lt hl
    omega
  | succ m ih =>
    apply BodyEnds.innerEnds h.wellFormed hl (Nat.lt_of_le_of_lt hdepth (h.level_lt hl))
    apply h.bodyEnds hl
    intro it r l' hr hh hne
    obtain ⟨inner, hl', -⟩ := h.wellFormed.headerOf_iff.mp hh
    apply ih hl' (nestedIn_nest h.passable hl hdepth it hr hh hne hl')
    show p.loops.length ≤ m + (context.depth + 1)
    omega

theorem innersEnd (h : Followable subject call p) (hnested : NestedIn p region context)
    (hlength : p.loops.length ≤ m + context.depth) :
    InnersEnd subject p (loopAt subject call p m) region context := by
  intro r l hr hh hne
  obtain ⟨loop, hl, -⟩ := h.wellFormed.headerOf_iff.mp hh
  exact h.innerEnds hl (hnested hr hh hne hl) hlength

end Followable

/-! ### Procedures -/

theorem Known.exitState (hs : Known subject s) {out : Table Nat State}
    (hout : ∀ b ∈ p.sinks, ∃ o, out.get? b = some o ∧ Known subject o) :
    Known subject (exitState p s out) := by
  refine exitState_of_forall State.Within.join hs fun b hb o hget => ?_
  obtain ⟨o', hget', hknown⟩ := hout b hb
  obtain rfl := Option.some.inj (hget.symm.trans hget')
  exact hknown

/-- A procedure of an accepted program can be followed if its calls have results. -/
theorem followable_of_returns (hprogram : subject.program.Accepted)
    (hnests : subject.program.NestsAtMost Context.maxDepth) {n q : Nat}
    (hentry : subject.program.procedures[q]? = some p)
    (hreturns : CallsReturn subject (procedureAt subject n) p) :
    Followable subject (procedureAt subject n) p where
  wellFormed := hprogram.wellFormed hentry
  passable := hprogram.passable hentry
  self := by rwa [hprogram.id_eq hentry]
  level_lt := hprogram.level_lt hnests hentry
  sound _ _ := callSound_procedureAt hprogram n
  locates := callLocates_procedureAt hprogram n
  returns := hreturns

section Ranked

variable (hprogram : subject.program.Accepted)
  (hnests : subject.program.NestsAtMost Context.maxDepth) {rank : Nat → Nat}
  (hranked : subject.program.Ranked rank) {n q : Nat}
include hprogram hnests hranked

/-- Calls have results if the chain of calls that may follow is long enough. -/
theorem ensures_procedureAt (hq : q < subject.program.procedures.length) (hrank : rank q < n) :
    Returns subject (procedureAt subject n) q := by
  induction n generalizing q with
  | zero => cases hrank
  | succ n ih =>
    intro recording s f hs hf
    obtain ⟨p, hentry⟩ : ∃ p, subject.program.procedures[q]? = some p :=
      ⟨_, List.getElem?_eq_getElem hq⟩
    -- callees rank lower, so the chain that is left is long enough for them
    have hreturns : CallsReturn subject (procedureAt subject n) p := by
      intro c hc
      obtain ⟨hlt, hlower⟩ := hranked.callee hentry hc
      exact ih hlt (by omega)
    have h := followable_of_returns hprogram hnests hentry hreturns
    have hprocedure : subject.program.procedure q = .ok p := entryAt_eq_ok.mpr hentry
    simp only [procedureAt, Traced.result_bind, Traced.result_liftM, hprocedure]
    have hinner := h.innersEnd nestedIn_root (Nat.le_add_right p.loops.length 0)
    refine (h.ensures_region hinner hs hf).bind fun pass _ hended => ?_
    apply hs.exitState
    intro b hb
    exact hended.2 b (h.wellFormed.inside_of_mem_order (h.wellFormed.sinks_mem hb))

theorem followable_procedureAt (hentry : subject.program.procedures[q]? = some p)
    (hrank : rank q ≤ n) : Followable subject (procedureAt subject n) p := by
  apply followable_of_returns hprogram hnests hentry
  intro c hc
  obtain ⟨hlt, hlower⟩ := hranked.callee hentry hc
  exact ensures_procedureAt hprogram hnests hranked hlt (by omega)

end Ranked

/-- One level can be analysed. -/
theorem ensures_analyze {program : Program} (hprogram : program.Accepted)
    (hnests : program.NestsAtMost Context.maxDepth) {entry : Nat}
    (hentry : entry < program.procedures.length) (config : Config)
    (upper : Option Classification) :
    Ensures (· = .overflow) (analyze program entry config upper).result fun _ => True := by
  obtain ⟨rank, hranked⟩ := hprogram.exists_ranked
  have hreturns : Returns ⟨program, config, upper⟩
      (procedureAt ⟨program, config, upper⟩ (program.procedures.length + 1)) entry :=
    ensures_procedureAt hprogram hnests hranked hentry (Nat.lt_succ_of_le (hranked.le entry))
  have hprocedure : program.procedure entry = .ok program.procedures[entry] :=
    entryAt_eq_ok.mpr (List.getElem?_eq_getElem hentry)
  simp only [analyze, Traced.result_bind, Traced.result_liftM, Traced.result_emit, hprocedure]
  have hcall := (hreturns true .empty ⟨.empty config, .empty⟩ State.within_empty
    located_empty).allow fun _ hcause => hcause.2
  exact hcall.bind fun _ _ _ => trivial

end CycleBounds.Cache.Level

namespace CycleBounds.Cache

open Code (Program)

/-- All levels of a hierarchy can be analysed. -/
theorem Hierarchy.ensures_analyze (levels : Hierarchy) {program : Program}
    (hprogram : program.Accepted) (hnests : program.NestsAtMost Context.maxDepth) {entry : Nat}
    (hentry : entry < program.procedures.length) :
    Ensures (· = .overflow) (levels.analyze program entry).result fun _ => True := by
  simp only [Hierarchy.analyze, Traced.result_bind]
  refine (Level.ensures_analyze hprogram hnests hentry levels.l1 none).bind fun first _ _ => ?_
  cases levels.l2 with
  | none => trivial
  | some c =>
    simp only [Traced.result_bind]
    exact (Level.ensures_analyze hprogram hnests hentry c _).bind fun second _ _ => trivial

end CycleBounds.Cache
