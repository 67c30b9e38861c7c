import CycleBounds.Proofs.Cache.Progress

/-!
# All searches for steady states end

The analysis of a level starts one part after the other (`Subject.plan`). A loop is followed by its
first iteration, by every round of the search for a steady state, and once more by the steady
iteration if findings are recorded.

Whatever has been started that way can be followed to its end, and so every search ends: in the
entry procedure, in loops within loops that are being searched, and in procedures called from there.

* `Valid.starts`: what a part starts can be followed if the part can.
* `Reached.valid`: so everything in an analysis can.
* `loopAt_eq_search`: which search a loop makes.
* `searches_end`: all searches end, in states that absorb their own ends.
-/

namespace CycleBounds.Cache.Level

open Code (Draft Program Procedure Loop Instruction)
open Run (Sweep Setting Plan NestedIn)

/-! ### The parts of an analysis -/

namespace Subject

def follow (subject : Subject) (x : Setting Bool) (region : Option Nat) :
    State → Pass → Traced Fault Pass :=
  Level.region subject (procedureAt subject x.calls)
    (loopAt subject (procedureAt subject x.calls) x.procedure x.loops) x.mode x.procedure
    region x.context (x.procedure.orderOf region)

/-- The search for the state before the steady iterations of a loop, in so many rounds at most. -/
def search (subject : Subject) (x : Setting Bool) (l : Nat) (loop : Loop) (limit : Nat) :
    State → Pass → Traced Fault (State × Nat × Pass) :=
  settle (subject.follow (x.nest .steady false) (some l)) loop.sink
    (.neverStable l x.procedure.name) limit 0

/-- What a loop does after its search: the steady iteration is followed once more if it is to be
recorded, and the blocks end as they do in it or in the first one. -/
def conclude (subject : Subject) (x : Setting Bool) (l : Nat) (loop : Loop) (first : Pass)
    (head : State) (last : Pass) : Traced Fault Pass := do
  let last ← if x.mode then subject.follow (x.nest .steady true) (some l) head last else pure last
  let out ← joinPasses (ends loop first.out) last.out
  return { last with out }

end Subject

/-- A search has come to a round that starts from a state. -/
inductive Searching (subject : Subject) (x : Setting Bool) (l : Nat) (loop : Loop) (s : State)
    (pass : Pass) : State → Pass → Prop
  | first {head first} :
      (subject.follow (x.nest .first x.mode) (some l) s pass).result = .ok first →
      first.out.get? loop.sink = some head → Searching subject x l loop s pass head first
  | next {head before after o} : Searching subject x l loop s pass head before →
      (subject.follow (x.nest .steady false) (some l) head before).result = .ok after →
      after.out.get? loop.sink = some o → head.join o ≠ head →
      Searching subject x l loop s pass (head.join o) after

inductive Repeats (subject : Subject) (x : Setting Bool) (l : Nat) (loop : Loop) (s : State)
    (pass : Pass) : Iteration → Bool → State → Pass → Prop
  | first : Repeats subject x l loop s pass .first x.mode s pass
  | round {head before} : Searching subject x l loop s pass head before →
      Repeats subject x l loop s pass .steady false head before
  /-- The search has ended, and the steady iterations are to be recorded. -/
  | again {head before after o} : x.mode = true → Searching subject x l loop s pass head before →
      (subject.follow (x.nest .steady false) (some l) head before).result = .ok after →
      after.out.get? loop.sink = some o → head.join o = head →
      Repeats subject x l loop s pass .steady true head after

/-- The instructions of a block before a call have been followed, and the call is fetched. -/
def Issues (subject : Subject) (x : Setting Bool) (b : Nat) (s : State) (pass : Pass) (q : Nat)
    (called : State × Findings) : Prop :=
  ∃ block done i rest y, x.procedure.blocks[b]? = some block ∧
    withUpper subject.upper ⟨x.procedure.id, b, x.context⟩ block.instructions =
      done ++ i :: rest ∧
    done.foldlM (fun y i => (instruction subject.config (procedureAt subject x.calls) x.mode y
      i).result) ⟨s, pass.findings, []⟩ = .ok y ∧
    i.1.callee = some q ∧ called = ((fetch subject.config i.2 y.state i.1.address).2,
      noted subject.config x.mode y.findings (fetch subject.config i.2 y.state i.1.address).1
        i.1.address)

/-- How the analysis of a level follows the parts of a program. In a setting, findings are recorded
or not. -/
def Subject.plan (subject : Subject) : Plan Fault State Pass (State × Findings) Bool where
  program := subject.program
  sweep x region := Level.sweep subject (procedureAt subject x.calls)
    (loopAt subject (procedureAt subject x.calls) x.procedure x.loops) x.mode x.procedure region
    x.context
  enter called := (called.1, ⟨called.2, ∅⟩)
  Issues := Issues subject
  Repeats := Repeats subject

abbrev Part := Plan.Part State Pass (State × Findings) Bool

/-- A part of the analysis that starts in a procedure with an empty cache. -/
abbrev Reached (subject : Subject) (entry : Nat) : Part → Prop :=
  subject.plan.Reached true entry (.empty, ⟨.empty subject.config, .empty⟩)

/-- Blocks are followed with the calls of their own instructions. -/
theorem Subject.plan_faithful (subject : Subject) : subject.plan.Faithful := by
  rintro x b s pass q called ⟨block, done, i, rest, y, hblock, hsplit, -, hcallee, -⟩
  have hi : i ∈ done ++ i :: rest := List.mem_append_right done List.mem_cons_self
  rw [← hsplit] at hi
  exact ⟨block, hblock, i.1, mem_of_mem_withUpper hi, hcallee⟩

/-! ### Parts that can be followed -/

/-- A part starts from a known state, and neither calls nor loops go too deep from there. -/
structure Valid (subject : Subject) (rank : Nat → Nat) (a : Part) : Prop where
  placed : a.Placed subject.program rank
  known : Known subject (subject.plan.start a).1
  located : Located subject (subject.plan.start a).2.findings.records

section Validity

variable {subject : Subject} {rank : Nat → Nat} {x : Setting Bool} {region : Option Nat} {l : Nat}
  {loop : Loop} {s head : State} {pass before : Pass}
variable (hprogram : subject.program.Accepted)
  (hnests : subject.program.NestsAtMost Context.maxDepth) (hranked : subject.program.Ranked rank)
include hprogram hnests hranked

theorem followable_of_placed (h : x.Placed subject.program rank) :
    Followable subject (procedureAt subject x.calls) x.procedure :=
  followable_procedureAt hprogram hnests hranked h.self h.rank_le

/-- Wherever a body comes to, the state is known. -/
theorem Valid.arrives {r : Nat} {s' : State} {pass' : Pass}
    (h : Valid subject rank (.body x region s pass))
    (harrives : (subject.plan.sweep x region).Arrives (x.procedure.orderOf region) s pass r s'
      pass') : Known subject s' ∧ Located subject pass'.findings.records := by
  obtain ⟨⟨hx, hnested⟩, hs, hlocated⟩ := h
  have hfollow := followable_of_placed hprogram hnests hranked hx
  have hinner := hfollow.innersEnd hnested hx.length_le
  exact (hfollow.advances hinner).arrives hfollow.wellFormed hfollow.local_sweep hs hlocated
    harrives

/-- The state at a call is known, as the one is in which the block starts. -/
theorem Valid.issues {b q : Nat} {s' : State} {pass' : Pass} {called : State × Findings}
    (h : Valid subject rank (.body x region s pass))
    (hs : Known subject s') (hlocated : Located subject pass'.findings.records)
    (hissues : Issues subject x b s' pass' q called) :
    Known subject called.1 ∧ Located subject called.2.records := by
  obtain ⟨block, done, i, rest, y, hblock, hsplit, hdone, -, rfl⟩ := hissues
  have hfollow := followable_of_placed hprogram hnests hranked h.placed.1
  have hmem : ∀ j ∈ done ++ i :: rest, j.1 ∈ block.instructions := by
    intro j hj
    rw [← hsplit] at hj
    exact mem_of_mem_withUpper hj
  obtain ⟨hy, hrecords⟩ := (ensures_instructions hfollow.self hfollow.locates hfollow.returns
    hblock (fun j hj => hmem j (List.mem_append_left _ hj)) ⟨hs, hlocated⟩).result hdone
  refine ⟨hy.fetch (mem_programLines hfollow.self hblock (hmem i (by simp))), ?_⟩
  rw [records_noted]
  exact hrecords

/-- An iteration of a loop is followed to its end. -/
theorem Valid.ensures_iteration (h : Valid subject rank (.loop x l s pass)) (it : Iteration)
    (recording : Bool) (head : State) (before : Pass) (hhead : Known subject head)
    (hbefore : Located subject before.findings.records) :
    Ensures (Overflows recording)
      (subject.follow (x.nest it recording) (some l) head before).result fun after =>
        Located subject after.findings.records ∧
          Ended subject x.procedure (some l) after.out := by
  obtain ⟨hx, loop, hl, hdepth⟩ := h.placed
  obtain ⟨-, hplaced, hnested⟩ := hx.nest hprogram hl hdepth
  have hfollow := followable_of_placed hprogram hnests hranked hx
  exact hfollow.ensures_region
    (hfollow.innersEnd (hnested it) (hplaced it recording).length_le) hhead hbefore

/-- An iteration of a loop comes to the sink in a known state. -/
theorem Valid.known_sink (h : Valid subject rank (.loop x l s pass))
    (hl : x.procedure.loops[l]? = some loop) {it : Iteration} {recording : Bool} {o : State}
    {after : Pass} (hbefore : Known subject head ∧ Located subject before.findings.records)
    (hrun : (subject.follow (x.nest it recording) (some l) head before).result = .ok after)
    (ho : after.out.get? loop.sink = some o) :
    Known subject o ∧ Located subject after.findings.records := by
  have hiteration := h.ensures_iteration hprogram hnests hranked it recording head before
    hbefore.1 hbefore.2
  obtain ⟨hlocated, hended⟩ := hiteration.result hrun
  have hfollow := followable_of_placed hprogram hnests hranked h.placed.1
  obtain ⟨o', ho', hknown⟩ := hended loop.sink (hfollow.wellFormed.sink_inside hl)
  obtain rfl := Option.some.inj (ho.symm.trans ho')
  exact ⟨hknown, hlocated⟩

/-- Every round of a search starts from a known state. -/
theorem Searching.known (h : Searching subject x l loop s pass head before)
    (hvalid : Valid subject rank (.loop x l s pass)) (hl : x.procedure.loops[l]? = some loop) :
    Known subject head ∧ Located subject before.findings.records := by
  induction h with
  | first hrun hget =>
    exact hvalid.known_sink hprogram hnests hranked hl ⟨hvalid.known, hvalid.located⟩ hrun hget
  | next _ hrun hget _ ih =>
    obtain ⟨hknown, hlocated⟩ := hvalid.known_sink hprogram hnests hranked hl ih hrun hget
    exact ⟨ih.1.join hknown, hlocated⟩

/-- Every iteration of a loop that is followed starts from a known state. -/
theorem Repeats.known {it : Iteration} {mode : Bool}
    (h : Repeats subject x l loop s pass it mode head before)
    (hvalid : Valid subject rank (.loop x l s pass)) (hl : x.procedure.loops[l]? = some loop) :
    Known subject head ∧ Located subject before.findings.records := by
  cases h with
  | first => exact ⟨hvalid.known, hvalid.located⟩
  | round hsearching => exact hsearching.known hprogram hnests hranked hvalid hl
  | again _ hsearching hrun hget _ =>
    have hbefore := hsearching.known hprogram hnests hranked hvalid hl
    have hafter := hvalid.known_sink hprogram hnests hranked hl hbefore hrun hget
    exact ⟨hbefore.1, hafter.2⟩

/-- What a part starts can be followed if the part can. -/
theorem Valid.starts {a b : Part} (ha : Valid subject rank a) (h : subject.plan.Starts a b) :
    Valid subject rank b := by
  have hplaced := h.placed hprogram hranked subject.plan_faithful ha.placed
  cases h with
  | procedure _ => exact ⟨hplaced, ha.known, ha.located⟩
  | inner harrives _ _ =>
    obtain ⟨hs, hlocated⟩ := ha.arrives hprogram hnests hranked harrives
    exact ⟨hplaced, hs, hlocated⟩
  | call harrives _ hissues =>
    obtain ⟨hs, hlocated⟩ := ha.arrives hprogram hnests hranked harrives
    obtain ⟨hcalled, hrecords⟩ := ha.issues hprogram hnests hranked hs hlocated hissues
    exact ⟨hplaced, hcalled, hrecords⟩
  | iteration hl _ hrepeats =>
    obtain ⟨hhead, hbefore⟩ := Repeats.known hprogram hnests hranked hrepeats ha hl
    exact ⟨hplaced, hhead, hbefore⟩

/-- Everything in an analysis can be followed. -/
theorem Reached.valid {entry : Nat} {a : Part} (h : Reached subject entry a) :
    Valid subject rank a := by
  induction h with
  | refl =>
    exact ⟨Nat.lt_succ_of_le (hranked.le entry), State.within_empty, located_empty⟩
  | tail _ hstarts ih => exact ih.starts hprogram hnests hranked hstarts

/-- The search of a loop ends, in a state that absorbs the end of its own iteration. -/
theorem Valid.exists_search (h : Valid subject rank (.loop x l s pass))
    (hl : x.procedure.loops[l]? = some loop) {start : State} (hstart : Known subject start)
    {first : Pass} (hfirst : Located subject first.findings.records) :
    ∃ head rounds before last o, rounds ≤ longestChain subject + 1 ∧
      (∀ limit, rounds ≤ limit →
        (subject.search x l loop limit start first).result = .ok (head, rounds, last)) ∧
      (subject.follow (x.nest .steady false) (some l) head before).result = .ok last ∧
      last.out.get? loop.sink = some o ∧ head.join o = head := by
  have hfollow := followable_of_placed hprogram hnests hranked h.placed.1
  have hround := h.ensures_iteration hprogram hnests hranked .steady false
  have hsink : ∀ pass : Pass, Ended subject x.procedure (some l) pass.out →
      ∃ o, pass.out.get? loop.sink = some o ∧ Known subject o :=
    fun pass hended => hended loop.sink (hfollow.wellFormed.sink_inside hl)
  have hsearch : Ensures (Overflows false)
      (subject.search x l loop (longestChain subject + 1) start first).result
      fun r => Known subject r.1 ∧ Located subject r.2.2.findings.records ∧
        Ended subject x.procedure (some l) r.2.2.out :=
    ensures_settle hround hsink hstart hfirst (by omega)
  -- nothing overflows where nothing is recorded
  obtain ⟨⟨head, rounds, last⟩, hresult, -⟩ := hsearch.exists_ok not_overflows_silent
  obtain ⟨-, hle, hmore⟩ := settle_of_le hresult
  obtain ⟨before, o, hlast, ho, hstable⟩ := (settle_eq_ok hresult).last
  refine ⟨head, rounds, before, last, o, by omega, ?_, hlast, ho, hstable⟩
  intro limit hlimit
  exact hmore limit (by omega)

end Validity

/-! ### Searches -/

section Search

variable {subject : Subject} {x : Setting Bool} {l : Nat} {loop : Loop}

/-- A loop is followed by its first iteration, a search, and what comes after it. -/
theorem loopAt_eq_search (hl : x.procedure.loops[l]? = some loop) (hbound : loop.bound ≠ 0)
    (hloops : 0 < x.loops) (hdepth : x.context.depth < Context.maxDepth) (s : State)
    (pass : Pass) :
    loopAt subject (procedureAt subject x.calls) x.procedure x.loops x.mode l x.context s
      pass = (do
        let first ← subject.follow (x.nest .first x.mode) (some l) s pass
        let start ← stateAfter first.out loop.sink
        let (head, rounds, last) ← subject.search x l loop (longestChain subject + 1) start first
        Traced.emit (.loopStable l x.procedure.name rounds)
        subject.conclude x l loop first head last) := by
  obtain ⟨p, context, recording, calls, loops⟩ := x
  obtain ⟨n, rfl⟩ := Nat.exists_eq_add_one.mpr hloops
  have horder : p.orderOf (some l) = loop.order := Procedure.orderOf_loop hl
  have hentry : p.loop l = .ok loop := entryAt_eq_ok.mpr hl
  have henter : ∀ it, context.enter it = .ok (context.nest it) := fun it => if_pos hdepth
  simp only [loopAt, Subject.follow, Subject.search, Subject.conclude, Setting.nest,
    Nat.add_sub_cancel, hentry, henter, horder]
  have hok : ∀ {α β : Type} (a : α) (f : α → Traced Fault β),
      (liftM (Except.ok a : Except Fault α) >>= f) = f a := fun a f => pure_bind a f
  rw [hok, if_neg hbound, hok, hok]
  rfl

/-- The result of a loop is what its search leads to. -/
theorem loopAt_result (hl : x.procedure.loops[l]? = some loop) (hbound : loop.bound ≠ 0)
    (hloops : 0 < x.loops) (hdepth : x.context.depth < Context.maxDepth) {s start head : State}
    {pass first last : Pass} {rounds : Nat}
    (hfirst : (subject.follow (x.nest .first x.mode) (some l) s pass).result = .ok first)
    (hstart : first.out.get? loop.sink = some start)
    (hsearch : (subject.search x l loop (longestChain subject + 1) start first).result =
      .ok (head, rounds, last)) :
    (loopAt subject (procedureAt subject x.calls) x.procedure x.loops x.mode l x.context s
      pass).result = (subject.conclude x l loop first head last).result := by
  have hafter : stateAfter first.out loop.sink = .ok start := by
    rw [stateAfter, hstart]
  rw [loopAt_eq_search hl hbound hloops hdepth]
  simp only [Traced.result_bind, Traced.result_liftM, Traced.result_emit, hfirst]
  show (stateAfter first.out loop.sink >>= _) = _
  rw [hafter]
  show ((subject.search x l loop (longestChain subject + 1) start first).result >>= _) = _
  rw [hsearch]
  rfl

end Search

/-- All searches of an analysis end. Wherever a loop is followed, its first iteration comes to the
sink unless the sums of what is recorded overflow. The search from there ends after no more rounds
than states of the program can grow, and it takes no more of them if it may. The state that it ends
with absorbs the state in which its own iteration comes to the sink. This is the search on which the
result of the loop depends, unless the loop is passed over. -/
theorem searches_end {program : Program} (hprogram : program.Accepted)
    (hnests : program.NestsAtMost Context.maxDepth) (config : Config)
    (upper : Option Classification) {entry : Nat} {x : Setting Bool} {l : Nat} {s : State}
    {pass : Pass} (hreached : Reached ⟨program, config, upper⟩ entry (.loop x l s pass)) :
    let subject : Subject := ⟨program, config, upper⟩
    ∃ loop, x.procedure.loops[l]? = some loop ∧ 0 < x.loops ∧
      x.context.depth < Context.maxDepth ∧
      Ensures (Overflows x.mode)
        (subject.follow (x.nest .first x.mode) (some l) s pass).result fun first =>
          ∃ start, first.out.get? loop.sink = some start ∧ ∃ head rounds before last o,
            rounds ≤ longestChain subject + 1 ∧
            (∀ limit, rounds ≤ limit →
              (subject.search x l loop limit start first).result = .ok (head, rounds, last)) ∧
            (subject.follow (x.nest .steady false) (some l) head before).result = .ok last ∧
            last.out.get? loop.sink = some o ∧ head.join o = head ∧
            (loop.bound ≠ 0 →
              (loopAt subject (procedureAt subject x.calls) x.procedure x.loops x.mode l x.context
                s pass).result = (subject.conclude x l loop first head last).result) := by
  intro subject
  obtain ⟨rank, hranked⟩ := hprogram.exists_ranked
  have hvalid : Valid subject rank (.loop x l s pass) :=
    Reached.valid hprogram hnests hranked hreached
  obtain ⟨hx, loop, hl, hlevel⟩ := hvalid.placed
  have hfollow := followable_of_placed hprogram hnests hranked hx
  have hloops := (hx.nest hprogram hl hlevel).1
  have hdepth := Nat.lt_of_le_of_lt hlevel (hfollow.level_lt hl)
  refine ⟨loop, hl, hloops, hdepth, ?_⟩
  apply (hvalid.ensures_iteration hprogram hnests hranked .first x.mode s pass hvalid.known
    hvalid.located).imp
  rintro first hrun ⟨hfirst, hended⟩
  obtain ⟨start, hget, hstart⟩ := hended loop.sink (hfollow.wellFormed.sink_inside hl)
  obtain ⟨head, rounds, before, last, o, hle, hsearch, hlast, ho, hstable⟩ :=
    hvalid.exists_search hprogram hnests hranked hl hstart hfirst
  refine ⟨start, hget, head, rounds, before, last, o, hle, hsearch, hlast, ho, hstable, ?_⟩
  intro hbound
  exact loopAt_result hl hbound hloops hdepth hrun hget (hsearch _ hle)

/-! A loop that calls a procedure with a loop. -/

def repeatingDraft : Draft where
  id := 0
  name := "repeating"
  blocks := [[⟨0, some 1⟩], []]
  edges := [(0, 1)]
  loops := [{ header := 0, sink := 0, members := [], bound := 2, naturalExit := true }]

def repeatedDraft : Draft where
  id := 1
  name := "repeated"
  blocks := [[⟨16, none⟩, ⟨32, none⟩], []]
  edges := [(0, 1)]
  loops := [{ header := 0, sink := 0, members := [], bound := 3, naturalExit := true }]

def repeating : Procedure where
  id := 0
  name := "repeating"
  blocks := [⟨[⟨0, some 1⟩], [], [1], some 0, some 0⟩, ⟨[], [0], [], none, none⟩]
  loops := [⟨0, 0, 2, true, none, 0, [0], [0]⟩]
  order := [0, 1]
  sinks := [1]

def repeated : Procedure where
  id := 1
  name := "repeated"
  blocks := [⟨[⟨16, none⟩, ⟨32, none⟩], [], [1], some 0, some 0⟩, ⟨[], [0], [], none, none⟩]
  loops := [⟨0, 0, 3, true, none, 0, [0], [0]⟩]
  order := [0, 1]
  sinks := [1]

theorem repeating_accepted : Program.Accepted ⟨[repeating, repeated]⟩ :=
  ⟨[repeatingDraft, repeatedDraft], [repeating, repeated], rfl, rfl⟩

/-- The loop of a called procedure is searched while the loop that calls it is being searched. -/
theorem searches_end_repeated :
    let subject : Subject := ⟨⟨[repeating, repeated]⟩, twoLines, none⟩
    let x : Setting Bool := ⟨repeated, .root, false, 1, 1⟩
    let loop : Loop := ⟨0, 0, 3, true, none, 0, [0], [0]⟩
    ∃ s pass, Reached subject 0 (.loop x 0 s pass) ∧ ∃ first start head rounds last o,
      (subject.follow (x.nest .first false) (some 0) s pass).result = .ok first ∧
      first.out.get? 0 = some start ∧ rounds ≤ longestChain subject + 1 ∧
      (subject.search x 0 loop rounds start first).result = .ok (head, rounds, last) ∧
      last.out.get? 0 = some o ∧ head.join o = head ∧
      (loopAt subject (procedureAt subject 1) repeated 1 false 0 .root s pass).result =
        (subject.conclude x 0 loop first head last).result := by
  intro subject x loop
  have hnests : subject.program.NestsAtMost Context.maxDepth := by
    intro p hp b
    refine Nat.le_trans List.countP_le_length ?_
    rcases List.mem_pair.mp hp with rfl | rfl <;> decide
  let outer : Setting Bool := ⟨repeating, .root, true, 2, 1⟩
  let nothing : Findings := ⟨.empty twoLines, .empty⟩
  have hfirst : ((subject.follow (outer.nest .first true) (some 0) .empty
      ⟨nothing, ∅⟩).result.toOption.bind fun first => first.out.get? 0).isSome = true := by
    decide +kernel
  obtain ⟨head, hhead⟩ := Option.isSome_iff_exists.mp hfirst
  obtain ⟨first, hfollow, hsink⟩ := Option.bind_eq_some_iff.mp hhead
  rw [toOption_eq_some] at hfollow
  have hbody : Reached subject 0 (.body outer none .empty ⟨nothing, ∅⟩) :=
    .single (.procedure rfl)
  have hloop : Reached subject 0 (.loop outer 0 .empty ⟨nothing, ∅⟩) :=
    hbody.tail (.inner ⟨[], [1], rfl, rfl, fun _ => rfl, fun hne => absurd rfl hne⟩ rfl (by decide))
  have hround : Reached subject 0 (.body (outer.nest .steady false) (some 0) head first) :=
    hloop.tail (.iteration rfl (by decide) (.round (.first hfollow hsink)))
  -- the header is followed as a block of the round, and calls with its first instruction
  obtain ⟨s, f, hcall⟩ : ∃ s f, Reached subject 0 (.call 2 false 1 (s, f)) := by
    refine ⟨_, _, hround.tail (.call ⟨[], [], rfl, rfl, fun _ => rfl, fun hne => absurd rfl hne⟩
      (.inr rfl) ⟨_, [], _, _, _, rfl, (List.nil_append _).symm, rfl, rfl, rfl⟩)⟩
  have hcalled : Reached subject 0 (.body x none s ⟨f, ∅⟩) := hcall.tail (.procedure rfl)
  have hsearched : Reached subject 0 (.loop x 0 s ⟨f, ∅⟩) :=
    hcalled.tail
      (.inner ⟨[], [1], rfl, rfl, fun _ => rfl, fun hne => absurd rfl hne⟩ rfl (by decide))
  obtain ⟨loop', hl, -, -, hends⟩ :=
    searches_end repeating_accepted hnests twoLines none hsearched
  obtain rfl : loop = loop' := Option.some.inj hl
  obtain ⟨first', hfirst', start, hstart, hsearch⟩ := hends.exists_ok not_overflows_silent
  obtain ⟨head', rounds, -, last, o, hle, hsearch, -, ho, hstable, hresult⟩ := hsearch
  exact ⟨s, ⟨f, ∅⟩, hsearched, first', start, head', rounds, last, o, hfirst', hstart, hle,
    hsearch rounds (Nat.le_refl _), ho, hstable, hresult (by decide)⟩

end CycleBounds.Cache.Level
