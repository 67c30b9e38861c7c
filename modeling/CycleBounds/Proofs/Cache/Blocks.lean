import CycleBounds.Proofs.Cache.Findings
import CycleBounds.Proofs.Run.Sweep

/-!
# Following a block at one cache level

The fetches of an execution reach a cache level or not, as a `Feed` has it, and the classes of the
level above have to agree with that (`Admits`). Then the state of the analysis covers the cache all
along a block, and what is recorded about the fetches of the block is right (`Sound`).

* `fetch_describes` and `fetch_covers`: what one fetch does.
* `flow_of_block`: what a block does, given what calls do (`CallSound`).
-/

namespace CycleBounds.Cache.Level

open Code (Program Procedure Instruction)
open Run (History Issue Laps Frame Policy Contract Steps FlowAt)

/-! ### Caches in executions -/

/-- The cache of a level along an execution, which a fetch changes only if it reaches the level. -/
structure Feed (c : Config) where
  reaches : History → Issue → Prop
  cache : History → Lru c
  cache_of_reaches : ∀ {h i}, reaches h i → cache (i :: h) = (cache h).access (c.line i.address)
  cache_of_not_reaches : ∀ {h i}, ¬ reaches h i → cache (i :: h) = cache h

/-- A class at the level above agrees with whether the fetch reaches this level. There is no class
if there is no level above, and then every fetch does. -/
def Admits (above : Option Access) (reaches : Prop) : Prop :=
  match above with
  | none => reaches
  | some .alwaysMiss => reaches
  | some .hitUpper => ¬ reaches
  | some (.alwaysHit _) => ¬ reaches
  | some .firstMiss => True
  | some .unknown => True

def Subject.above (subject : Subject) (place : Place) (n : Nat) : Option Access :=
  subject.upper.map fun k => (k.access? place n).getD .unknown

theorem withUpper_getElem? (subject : Subject) (place : Place) (is : List Instruction) (n : Nat) :
    (withUpper subject.upper place is)[n]? = is[n]?.map fun i => (i, subject.above place n) := by
  cases hu : subject.upper with
  | none => simp [withUpper, Subject.above, hu]
  | some k =>
    simp only [withUpper, List.getElem?_map, Classification.classified_getElem?, Subject.above, hu,
      Option.map_some, Option.map_map]
    rfl

theorem length_withUpper (subject : Subject) (place : Place) (is : List Instruction) :
    (withUpper subject.upper place is).length = is.length :=
  length_eq_of_getElem? (withUpper_getElem? subject place is)

/-! ### Fetches -/

section Fetches

variable {c : Config} {above : Option Access} {s : State} {address : Nat} {m : Lru c}
  {reaches : Prop}

theorem classify_ne_hitUpper : s.classify c address ≠ .hitUpper := by
  rw [State.classify, State.classifyLine]
  split
  · rintro ⟨⟩
  · split
    · rintro ⟨⟩
    · split <;> rintro ⟨⟩

theorem fetch_fits (hs : s.Fits c) : (fetch c above s address).2.Fits c := by
  rw [fetch.eq_def]
  split
  case h_1 | h_2 => exact hs.accessLine _
  case h_3 | h_4 => exact hs
  case h_5 | h_6 => exact hs.accessMaybe _

/-- The class of a fetch is right. -/
theorem fetch_describes (hm : s.Covers m) (ha : Admits above reaches) :
    (fetch c above s address).1.Describes reaches m (c.line address) := by
  rw [fetch.eq_def]
  split
  case h_3 | h_4 => exact ha
  all_goals exact hm.classifyLine _ _

/-- A fetch that reaches the level is not said to be served above. -/
theorem fetch_ne_hitUpper (ha : Admits above reaches) (hr : reaches) :
    (fetch c above s address).1 ≠ .hitUpper := by
  rw [fetch.eq_def]
  split
  case h_3 | h_4 => exact absurd hr ha
  all_goals exact classify_ne_hitUpper

/-- The state after a fetch covers the cache after it. -/
theorem fetch_covers (hs : s.Fits c) (hm : s.Covers m) (ha : Admits above reaches) :
    (reaches → (fetch c above s address).2.Covers (m.access (c.line address))) ∧
      (¬ reaches → (fetch c above s address).2.Covers m) := by
  rw [fetch.eq_def]
  split
  case h_1 | h_2 => exact ⟨fun _ => hm.accessLine hs _, fun hr => absurd ha hr⟩
  case h_3 | h_4 => exact ⟨fun hr => absurd hr ha, fun _ => hm⟩
  case h_5 | h_6 => exact ⟨fun _ => (hm.accessMaybe hs _).2, fun _ => (hm.accessMaybe hs _).1⟩

end Fetches

/-! ### What is right -/

/-- A fetch is classified, and rightly so. -/
def Classified {c : Config} (k : Classification) (feed : Feed c) (h : History) (i : Issue) : Prop :=
  ∃ a, k.access? i.place i.index = some a ∧
    a.Describes (feed.reaches h i) (feed.cache h) (c.line i.address)

section Soundness

variable (subject : Subject) (final : Findings) (feed : Feed subject.config)

def Admitted (h : History) (i : Issue) : Prop :=
  Admits (subject.above i.place i.index) (feed.reaches h i)

/-- A fetch is recorded in the findings, and rightly so. -/
def Sound (h : History) (i : Issue) : Prop :=
  let line := subject.config.line i.address
  Classified final.records feed h i ∧
  (feed.reaches h i → final.footprint.Contains (subject.config.setOf line) line)

/-- If findings are recorded, they are right about all fetches so far. -/
def Right (recording : Bool) (h : History) : Prop :=
  recording = true → h.All (Admitted subject feed) → h.All (Sound subject final feed)

/-- A state covers the cache after an execution, about which the findings are right. -/
def Tracks (recording : Bool) (s : State) (h : History) : Prop :=
  (h.All (Admitted subject feed) → s.Covers (feed.cache h)) ∧ Right subject final feed recording h

structure CallSound (call : Call) : Prop where
  below : ∀ {recording q s f s' f'}, (call recording q s f).result = .ok (s', f') → f.Below f'
  fits : ∀ {recording q s f s' f'}, (call recording q s f).result = .ok (s', f') →
    s.Fits subject.config → s'.Fits subject.config
  contract : ∀ {recording q s f s' f'}, (call recording q s f).result = .ok (s', f') →
    f'.Below final → s.Fits subject.config →
    Contract .free subject.program (Right subject final feed recording) q
      (Tracks subject final feed recording s) (Tracks subject final feed recording s')

end Soundness

variable {subject : Subject} {final : Findings} {feed : Feed subject.config}

theorem Tracks.imp {recording : Bool} {s t : State} {h : History}
    (hf : Tracks subject final feed recording s h)
    (himp : s.Covers (feed.cache h) → t.Covers (feed.cache h)) :
    Tracks subject final feed recording t h :=
  ⟨fun ha => himp (hf.1 ha), hf.2⟩

/-! ### Instructions -/

/-- What is found out before a call is made: a line that reaches the level belongs to the
footprint. -/
def noted (c : Config) (recording : Bool) (f : Findings) (access : Access) (address : Nat) :
    Findings :=
  if recording ∧ access ≠ .hitUpper then
    { f with footprint := f.footprint.record (c.setOf (c.line address)) (c.line address) }
  else f

theorem below_noted {c : Config} {recording : Bool} {f : Findings} {access : Access}
    {address : Nat} : f.Below (noted c recording f access address) := by
  rw [noted]
  split
  · exact ⟨.refl _, fun h => Footprint.contains_record.mpr (.inr h)⟩
  · exact .refl f

/-- One instruction: its fetch, and the procedure that it calls. -/
theorem instruction_eq_ok {c : Config} {call : Call} {recording : Bool} {x y : Progress}
    {i : Instruction × Option Access}
    (h : (instruction c call recording x i).result = .ok y) :
    let r := fetch c i.2 x.state i.1.address
    let f := noted c recording x.findings r.1 i.1.address
    y.fetched = ⟨c.line i.1.address, r.1⟩ :: x.fetched ∧
      match i.1.callee with
      | none => y.state = r.2 ∧ y.findings = f
      | some q => ∃ returned, (call recording q r.2 f).result = .ok (returned, y.findings) ∧
        y.state = returned.join r.2 := by
  intro r f
  cases hc : i.1.callee with
  | none =>
    simp only [instruction, hc, Traced.result_pure, Except.ok.injEq] at h
    rw [← h]
    exact ⟨rfl, rfl, rfl⟩
  | some q =>
    simp only [instruction, hc, Traced.result_bind] at h
    obtain ⟨⟨returned, g⟩, hcall, h⟩ := bind_eq_ok.mp h
    simp only [Traced.result_pure, Except.ok.injEq] at h
    rw [← h]
    exact ⟨rfl, returned, hcall, rfl⟩

section Instructions

variable {call : Call} {recording : Bool} {x y : Progress} {i : Instruction × Option Access}

/-- What is noted about the fetch of an instruction is kept by the procedure that it calls. -/
theorem noted_below (hcall : CallSound subject final feed call)
    (h : (instruction subject.config call recording x i).result = .ok y) :
    (noted subject.config recording x.findings
      (fetch subject.config i.2 x.state i.1.address).1 i.1.address).Below y.findings := by
  have hcases := (instruction_eq_ok h).2
  cases hc : i.1.callee with
  | none =>
    rw [hc] at hcases
    rw [hcases.2]
    exact .refl _
  | some q =>
    rw [hc] at hcases
    obtain ⟨returned, hret, -⟩ := hcases
    exact hcall.below hret

/-- Ages stay below the number of ways from one instruction to the next. -/
theorem instruction_fits (hcall : CallSound subject final feed call)
    (h : (instruction subject.config call recording x i).result = .ok y)
    (hx : x.state.Fits subject.config) : y.state.Fits subject.config := by
  have hcases := (instruction_eq_ok h).2
  cases hc : i.1.callee with
  | none =>
    rw [hc] at hcases
    rw [hcases.1]
    exact fetch_fits hx
  | some q =>
    rw [hc] at hcases
    obtain ⟨returned, hret, heq⟩ := hcases
    rw [heq]
    exact (hcall.fits hret (fetch_fits hx)).join (fetch_fits hx)

variable {p : Procedure} {f : Frame} {ins : Instruction}

/-- The fetch of an instruction, if the findings record it. -/
theorem tracks_fetch (hx : x.state.Fits subject.config)
    (hnoted : (noted subject.config recording x.findings (fetch subject.config
      (subject.above (f.issue p ins).place f.next) x.state ins.address).1 ins.address).Below final)
    (hrecord : recording = true → ∃ a, final.records.access? (f.issue p ins).place f.next = some a ∧
      (fetch subject.config (subject.above (f.issue p ins).place f.next) x.state
        ins.address).1.Weakens a)
    {h : History} (hh : Tracks subject final feed recording x.state h) :
    Tracks subject final feed recording (fetch subject.config
      (subject.above (f.issue p ins).place f.next) x.state ins.address).2 (f.issue p ins :: h) := by
  constructor
  · -- the states cover the cache, whether the fetch reaches it or not
    rintro ⟨ha, hall⟩
    by_cases hr : feed.reaches h (f.issue p ins)
    · rw [feed.cache_of_reaches hr]
      exact (fetch_covers hx (hh.1 hall) ha).1 hr
    · rw [feed.cache_of_not_reaches hr]
      exact (fetch_covers hx (hh.1 hall) ha).2 hr
  · -- if the pass records, its record is right about the fetch
    rintro hrec ⟨ha, hall⟩
    refine ⟨⟨?_, fun hr => ?_⟩, hh.2 hrec hall⟩
    · obtain ⟨a, hget, hweak⟩ := hrecord hrec
      exact ⟨a, hget, hweak.describes (fetch_describes (hh.1 hall) ha)⟩
    · apply hnoted.footprint
      rw [noted, if_pos ⟨hrec, fetch_ne_hitUpper ha hr⟩]
      exact Footprint.contains_record.mpr (.inl ⟨rfl, rfl⟩)

/-- An instruction, if the findings record its fetch. -/
theorem steps_of_instruction (hcall : CallSound subject final feed call)
    (hins : f.instruction? p = some ins)
    (h : (instruction subject.config call recording x
      (ins, subject.above (f.issue p ins).place f.next)).result = .ok y)
    (hx : x.state.Fits subject.config) (hy : y.findings.Below final)
    (hrecord : recording = true → ∃ a, final.records.access? (f.issue p ins).place f.next = some a ∧
      (fetch subject.config (subject.above (f.issue p ins).place f.next) x.state
        ins.address).1.Weakens a)
    {hist : History} (hh : Tracks subject final feed recording x.state hist) :
    Steps .free subject.program (Right subject final feed recording) p f hist
      (Tracks subject final feed recording y.state) := by
  intro ins' hins'
  obtain rfl : ins = ins' := Option.some.inj (hins.symm.trans hins')
  have hfetch := tracks_fetch hx ((noted_below hcall h).trans hy) hrecord hh
  refine ⟨hfetch.2, ?_⟩
  have hcases := (instruction_eq_ok h).2
  cases hc : ins.callee with
  | none =>
    rw [hc] at hcases
    rw [hcases.1]
    exact hfetch
  | some q =>
    rw [hc] at hcases
    obtain ⟨returned, hret, heq⟩ := hcases
    rw [heq]
    -- after a call, its exit state is joined with the state before
    refine (hcall.contract hret hy (fetch_fits hx)).imp ?_ ?_
    · rintro _ rfl
      exact hfetch
    · exact fun _ ht => ht.imp State.Covers.join_left

end Instructions

/-! ### Blocks -/

/-- The course of a block: the progress before each of its instructions. -/
structure Course (subject : Subject) (call : Call) (recording : Bool) (place : Place)
    (is : List Instruction) (g : Nat → Progress) : Prop where
  fetched : (g 0).fetched = []
  step : ∀ (n : Nat) i, is[n]? = some i →
    (instruction subject.config call recording (g n) (i, subject.above place n)).result =
      .ok (g (n + 1))

section Courses

variable {call : Call} {recording : Bool} {place : Place} {is : List Instruction}
  {g : Nat → Progress}

/-- The instructions of a block are followed one after another. -/
theorem exists_course {x y : Progress} (hx : x.fetched = [])
    (h : (withUpper subject.upper place is).foldlM
      (fun x i => (instruction subject.config call recording x i).result) x = .ok y) :
    ∃ g, Course subject call recording place is g ∧ g 0 = x ∧ g is.length = y := by
  obtain ⟨g, hfirst, hlast, hstep⟩ := foldlM_stages h
  rw [length_withUpper] at hlast
  refine ⟨g, ⟨hfirst ▸ hx, fun n i hi => hstep n _ ?_⟩, hfirst, hlast⟩
  rw [withUpper_getElem?, hi]
  rfl

theorem Course.below (hg : Course subject call recording place is g)
    (hcall : CallSound subject final feed call) {n m : Nat} (hnm : n ≤ m) (hm : m ≤ is.length) :
    (g n).findings.Below (g m).findings := by
  induction m, hnm using Nat.le_induction with
  | base => exact .refl _
  | succ m hnm ih =>
    have hstep := hg.step m _ (List.getElem?_eq_getElem hm)
    exact (ih (Nat.le_of_succ_le hm)).trans (below_noted.trans (noted_below hcall hstep))

theorem Course.fits (hg : Course subject call recording place is g)
    (hcall : CallSound subject final feed call) (h₀ : (g 0).state.Fits subject.config) {n : Nat}
    (hn : n ≤ is.length) : (g n).state.Fits subject.config := by
  induction n with
  | zero => exact h₀
  | succ n ih =>
    exact instruction_fits hcall (hg.step n _ (List.getElem?_eq_getElem hn))
      (ih (Nat.le_of_succ_le hn))

/-- The fetches of a block are listed in the order of its instructions. -/
theorem Course.fetched_getElem? (hg : Course subject call recording place is g) {n m : Nat}
    {i : Instruction} (hm : m ≤ is.length) (hn : n < m) (hi : is[n]? = some i) :
    (g m).fetched.reverse[n]? = some ⟨subject.config.line i.address,
      (fetch subject.config (subject.above place n) (g n).state i.address).1⟩ := by
  have hlength : ∀ k ≤ is.length, (g k).fetched.length = k := by
    intro k hk
    induction k with
    | zero => rw [hg.fetched]; rfl
    | succ k ih =>
      rw [(instruction_eq_ok (hg.step k _ (List.getElem?_eq_getElem hk))).1, List.length_cons,
        ih (Nat.le_of_succ_le hk)]
  -- the fetch is listed last after its own instruction, and later ones come behind it
  induction m, hn using Nat.le_induction with
  | base =>
    rw [(instruction_eq_ok (hg.step n i hi)).1, List.reverse_cons,
      List.getElem?_append_right (by rw [List.length_reverse, hlength n (Nat.le_of_succ_le hm)]),
      List.length_reverse, hlength n (Nat.le_of_succ_le hm), Nat.sub_self]
    rfl
  | succ m hn ih =>
    have hm' := Nat.le_of_succ_le hm
    rw [(instruction_eq_ok (hg.step m _ (List.getElem?_eq_getElem hm))).1, List.reverse_cons,
      List.getElem?_append_left (by rw [List.length_reverse, hlength m hm']; exact hn)]
    exact ih hm'

end Courses

section Blocks

variable {call : Call} {recording : Bool} {p : Procedure} {b : Nat} {context : Context}
  {s s' : State} {f f' : Findings}

/-- What is found out at the end of a block: its fetches are recorded if asked for. -/
def stored (recording : Bool) (place : Place) (fetches : List Fetch) (f : Findings) :
    Except Fault Findings := do
  if recording then
    let records ← f.records.record place fetches
    return { f with records }
  else
    return f

/-- What is stored at the end of a block keeps what has been found, and covers every fetch. -/
theorem stored_eq_ok {place : Place} {fetches : List Fetch}
    (h : stored recording place fetches f = .ok f') :
    f.Below f' ∧ (recording = true → ∀ (n : Nat) fetch, fetches[n]? = some fetch →
      ∃ a, f'.records.access? place n = some a ∧ fetch.access.Weakens a) := by
  cases recording with
  | false =>
    obtain rfl := pure_eq_ok.mp h
    exact ⟨.refl f, nofun⟩
  | true =>
    obtain ⟨records, hrecord, h⟩ := bind_eq_ok.mp h
    obtain rfl := pure_eq_ok.mp h
    obtain ⟨hbelow, hfetches⟩ := Classification.record_eq_ok hrecord
    exact ⟨⟨hbelow, id⟩, fun _ => hfetches⟩

/-- A block: its course, and what is recorded about it at its end. -/
theorem block_eq_ok (h : (block subject call recording p b context s f).result = .ok (s', f')) :
    let place : Place := ⟨p.id, b, context⟩
    ∃ blk g, p.blocks[b]? = some blk ∧ Course subject call recording place blk.instructions g ∧
      (g 0).state = s ∧ (g 0).findings = f ∧ (g blk.instructions.length).state = s' ∧
      stored recording place (g blk.instructions.length).fetched.reverse
        (g blk.instructions.length).findings = .ok f' := by
  intro place
  simp only [block, Traced.result_bind, Traced.result_foldlM, Traced.result_liftM] at h
  obtain ⟨blk, hblk, h⟩ := bind_eq_ok.mp h
  obtain ⟨progress, hfold, h⟩ := bind_eq_ok.mp h
  obtain ⟨g, hg, hfirst, hlast⟩ := exists_course rfl hfold
  refine ⟨blk, g, entryAt_eq_ok.mp hblk, hg, by rw [hfirst], by rw [hfirst], ?_⟩
  rw [hlast]
  -- only a pass that records stores the fetches
  cases recording with
  | false =>
    simp only [Bool.false_eq_true, if_false, Traced.result_pure, Except.ok.injEq,
      Prod.mk.injEq] at h
    obtain ⟨rfl, rfl⟩ := h
    exact ⟨rfl, rfl⟩
  | true =>
    simp only [if_true, Traced.result_bind, Traced.result_emit, Traced.result_liftM,
      Traced.result_pure] at h
    obtain ⟨⟨⟩, -, h⟩ := bind_eq_ok.mp h
    obtain ⟨records, hrecord, h⟩ := bind_eq_ok.mp h
    simp only [Except.ok.injEq, Prod.mk.injEq] at h
    obtain ⟨rfl, rfl⟩ := h
    exact ⟨rfl, bind_eq_ok.mpr ⟨records, hrecord, rfl⟩⟩

theorem block_below (hcall : CallSound subject final feed call)
    (h : (block subject call recording p b context s f).result = .ok (s', f')) : f.Below f' := by
  obtain ⟨blk, g, -, hg, -, hf, -, hstored⟩ := block_eq_ok h
  exact hf ▸ (hg.below hcall (Nat.zero_le _) (Nat.le_refl _)).trans (stored_eq_ok hstored).1

theorem block_fits (hcall : CallSound subject final feed call)
    (h : (block subject call recording p b context s f).result = .ok (s', f'))
    (hs : s.Fits subject.config) : s'.Fits subject.config := by
  obtain ⟨blk, g, -, hg, hfirst, -, hlast, -⟩ := block_eq_ok h
  exact hlast ▸ hg.fits hcall (hfirst ▸ hs) (Nat.le_refl _)

/-- A block whose fetches the findings record. -/
theorem flow_of_block (hp : p.WellFormed) (hcall : CallSound subject final feed call)
    {region : Option Nat} {base : Laps}
    (h : (block subject call recording p b base.context s f).result = .ok (s', f'))
    (hf : f'.Below final) (hs : s.Fits subject.config)
    (hb : p.headerOf? b = none ∨ p.headerOf? b = region) :
    FlowAt .free subject.program (Right subject final feed recording) p region base b
      (Tracks subject final feed recording s)
      (fun _ => Tracks subject final feed recording s') := by
  obtain ⟨blk, g, hblk, hg, hfirst, -, hlast, hstored⟩ := block_eq_ok h
  obtain ⟨hbelow, hrecord⟩ := stored_eq_ok hstored
  rw [← hfirst, ← hlast]
  refine Run.flow_block hp hblk hb (fun n => Tracks subject final feed recording (g n).state)
    (fun n h ht => ht.2) fun n h ht i hi => ?_
  have hin : blk.instructions[n]? = some i := by
    simpa [Frame.instruction?, hblk] using hi
  have hn := (List.getElem?_eq_some_iff.mp hin).1
  refine steps_of_instruction hcall hi (hg.step n i hin)
    (hg.fits hcall (hfirst ▸ hs) (Nat.le_of_lt hn))
    ((hg.below hcall hn (Nat.le_refl _)).trans (hbelow.trans hf)) (fun hrec => ?_) ht i hi
  obtain ⟨a, ha, hweak⟩ := hrecord hrec n _ (hg.fetched_getElem? (Nat.le_refl _) hn hin)
  obtain ⟨a', ha', hweak'⟩ := hf.records _ n a ha
  exact ⟨a', ha', hweak.trans hweak'⟩

end Blocks

end CycleBounds.Cache.Level
