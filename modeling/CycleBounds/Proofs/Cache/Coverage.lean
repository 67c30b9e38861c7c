import CycleBounds.Proofs.Cache.Lines
import CycleBounds.Proofs.Cache.Soundness
import CycleBounds.Proofs.Run.Places
import Mathlib.Data.Set.Insert

/-!
# What an analysis of a cache level records

An analysis records the places of the program from its entry, each of them and no others, however
often it follows a block without recording. The footprint has the lines of all fetches there that
are not said to hit at the level above.

* `Adds`: what a part of the analysis adds to the findings, if it records at all. Parts are put
  together by `Adds.trans`, so that what a whole analysis adds is the union over its parts.
* `Records`: a part adds some places with all their lines. `block_records`, `region_records`,
  `innersRecord_loopAt` and `callRecords_procedureAt` say which.
* `Level.analyze_complete`: the records of a level; `Level.analyze_footprint`: its footprint.
* `Hierarchy.analyze_complete`: both for all levels of a hierarchy.
-/

namespace CycleBounds.Cache

open Code (Program Procedure Loop Instruction)
open Run (places placesAt placesFor placesIn)

/-- Every set of a footprint has a line. -/
def Footprint.Tight (f : Footprint) : Prop :=
  ∀ set, f.uses set = true → ∃ line, f.Contains set line

theorem Footprint.uses_of_contains {f : Footprint} {set line : Nat} (h : f.Contains set line) :
    f.uses set = true := by
  unfold Contains inSet at h
  unfold uses Table.contains
  cases hget : f.sets.get? set with
  | none => simp [hget, Table.contains] at h
  | some lines => rfl

/-- A recorded line keeps all sets of a footprint in use. -/
theorem Footprint.Tight.record {f : Footprint} (h : f.Tight) (set line : Nat) :
    (f.record set line).Tight := by
  intro set' huses
  by_cases hset : set' = set
  · exact ⟨line, contains_record.mpr (.inl ⟨hset, rfl⟩)⟩
  · have huses' : f.uses set' = true := by
      simpa [uses, Table.contains, Footprint.record, Table.get?_insert_of_ne _ hset] using huses
    obtain ⟨line', hline'⟩ := h set' huses'
    exact ⟨line', contains_record.mpr (.inr hline')⟩

namespace Level

variable {subject : Subject} {recording : Bool} {f f' f'' : Findings} {place : Place} {n : Nat}
  {S T : Set Place} {L M : Set (Nat × Nat)}

/-! ### Fetches that arrive -/

/-- A fetch does not arrive at a level: it is said to hit above. -/
def Subject.Shielded (subject : Subject) (place : Place) (n : Nat) : Prop :=
  subject.above place n = some .hitUpper ∨ ∃ age, subject.above place n = some (.alwaysHit age)

/-- The class of a fetch says that the level above serves it just if it does not arrive. -/
theorem fetch_eq_hitUpper {c : Config} {s : State} {address : Nat} :
    (fetch c (subject.above place n) s address).1 = .hitUpper ↔ subject.Shielded place n := by
  unfold Subject.Shielded
  rw [fetch.eq_def]
  split
  case h_3 h | h_4 h => simp [h]
  all_goals
    rename_i h
    simp [h, classify_ne_hitUpper]

/-- The line that a fetch brings to a level, under its set. -/
def Subject.arrivals (subject : Subject) (place : Place) (n : Nat) (i : Instruction) :
    Set (Nat × Nat) :=
  {x | ¬ subject.Shielded place n ∧
    x = (subject.config.setOf (subject.config.line i.address), subject.config.line i.address)}

/-- The lines that the fetches at a place bring to a level. -/
def Subject.linesAt (subject : Subject) (place : Place) : Set (Nat × Nat) :=
  {x | ∃ p block n i, subject.program.procedures[place.procedure]? = some p ∧
    p.blocks[place.block]? = some block ∧ block.instructions[n]? = some i ∧
    x ∈ subject.arrivals place n i}

/-- The lines that the fetches at some places bring to a level. -/
def Subject.linesOn (subject : Subject) (S : Set Place) : Set (Nat × Nat) :=
  {x | ∃ place ∈ S, x ∈ subject.linesAt place}

@[simp] theorem linesOn_empty : subject.linesOn ∅ = ∅ := by
  ext x
  simp [Subject.linesOn]

@[simp] theorem linesOn_union :
    subject.linesOn (S ∪ T) = subject.linesOn S ∪ subject.linesOn T := by
  ext x
  simp only [Subject.linesOn, Set.mem_union, Set.mem_ofPred_eq, or_and_right, exists_or]

/-- Records say of all fetches whether they are said to hit above. -/
def Served (subject : Subject) (k : Classification) : Prop :=
  ∀ {place r n fetch}, k.get? place = some r → r.fetches[n]? = some fetch →
    (fetch.access = .hitUpper ↔ subject.Shielded place n)

/-- Recording a block keeps the records true about which fetches arrive. -/
theorem Served.record {k k' : Classification} {fetches : List Fetch} (h : Served subject k)
    (hfetches : ∀ (n : Nat) fetch, fetches[n]? = some fetch →
      (fetch.access = .hitUpper ↔ subject.Shielded place n))
    (hrecord : k.record place fetches = .ok k') : Served subject k' := by
  obtain ⟨fresh, stored, rfl, rfl, hcases⟩ := Classification.record_cases hrecord
  intro q r n fetch hq hfetch
  by_cases heq : q = place
  · obtain rfl := heq
    obtain rfl := Option.some.inj ((Table.get?_insert_self _ _ _).symm.trans hq)
    rcases hcases with ⟨-, rfl⟩ | ⟨old, hold, hjoin⟩
    · exact hfetches n fetch hfetch
    · -- both sides of a join agree on whether the fetch hits above
      obtain ⟨⟨⟩, -, hjoin⟩ := bind_eq_ok.mp hjoin
      rw [Record.ofFetches_eq_ok hjoin] at hfetch
      obtain ⟨a, b, ha, hb, rfl⟩ := List.getElem?_zipWith_eq_some.mp hfetch
      show a.access.join b.access = _ ↔ _
      rw [Access.join_eq_hitUpper, h hold ha, hfetches n b hb, and_self_iff]
  · exact h ((Table.get?_insert_of_ne _ heq _).symm.trans hq) hfetch

/-! ### Parts of an analysis -/

/-- A part of an analysis adds records of some places and some lines, if it records at all. -/
structure Adds (subject : Subject) (recording : Bool) (S : Set Place) (L : Set (Nat × Nat))
    (f f' : Findings) : Prop where
  records : ∀ place, (f'.records.get? place).isSome = true ↔
    (f.records.get? place).isSome = true ∨ recording = true ∧ place ∈ S
  footprint : ∀ set line, f'.footprint.Contains set line ↔
    f.footprint.Contains set line ∨ recording = true ∧ (set, line) ∈ L
  tight : f.footprint.Tight → f'.footprint.Tight
  served : Served subject f.records → Served subject f'.records

theorem Adds.refl (f : Findings) : Adds subject recording ∅ ∅ f f where
  records := by simp
  footprint := by simp
  tight := id
  served := id

/-- Parts of an analysis that follow each other add what both of them add. -/
theorem Adds.trans (h : Adds subject recording S L f f') (h' : Adds subject recording T M f' f'') :
    Adds subject recording (S ∪ T) (L ∪ M) f f'' where
  records := by
    intro place
    rw [h'.records, h.records, Set.mem_union, or_assoc, and_or_left]
  footprint := by
    intro set line
    rw [h'.footprint, h.footprint, Set.mem_union, or_assoc, and_or_left]
  tight := fun hf => h'.tight (h.tight hf)
  served := fun hf => h'.served (h.served hf)

/-- A part that does not record adds nothing. -/
theorem Adds.of_unrecorded (h : Adds subject false S L f f') : Adds subject recording ∅ ∅ f f' where
  records := by simpa using h.records
  footprint := by simpa using h.footprint
  tight := h.tight
  served := h.served

theorem Adds.unrecorded (h : Adds subject false S L f f') : Adds subject false T M f f' where
  records := by simpa using h.records
  footprint := by simpa using h.footprint
  tight := h.tight
  served := h.served

/-- A part of an analysis records some places with all their lines. -/
def Records (subject : Subject) (recording : Bool) (S : Set Place) (f f' : Findings) : Prop :=
  Adds subject recording S (subject.linesOn S) f f'

theorem Records.trans (h : Records subject recording S f f')
    (h' : Records subject recording T f' f'') : Records subject recording (S ∪ T) f f'' := by
  unfold Records
  rw [linesOn_union]
  exact Adds.trans h h'

theorem Records.congr (h : Records subject recording S f f') (hS : ∀ place, place ∈ S ↔ place ∈ T) :
    Records subject recording T f f' :=
  Set.ext hS ▸ h

theorem Records.none (f : Findings) : Records subject recording ∅ f f := by
  unfold Records
  rw [linesOn_empty]
  exact .refl f

def CallRecords (subject : Subject) (call : Call) : Prop :=
  ∀ {recording q s f s' f'}, (call recording q s f).result = .ok (s', f') →
    Records subject recording (places subject.program q) f f'

/-! ### Blocks -/

section Blocks

variable {call : Call} {x y : Progress} {i : Instruction} {is : List Instruction}
  {g : Nat → Progress}

def calledBy (program : Program) (i : Instruction) : Set Place :=
  {place | ∃ c, i.callee = some c ∧ place ∈ places program c}

/-- A fetch that arrives adds its line, and one that does not adds nothing. -/
theorem adds_noted (subject : Subject) (place : Place) (n : Nat) (i : Instruction) (s : State) :
    Adds subject recording ∅ (subject.arrivals place n i) f (noted subject.config recording f
      (fetch subject.config (subject.above place n) s i.address).1 i.address) := by
  unfold noted
  split
  · -- the line is noted, so the fetch is not said to hit above
    rename_i h
    obtain ⟨rfl, hne⟩ := h
    rw [ne_eq, fetch_eq_hitUpper] at hne
    refine ⟨by simp, fun set line => ?_, fun hf => hf.record _ _, id⟩
    rw [Footprint.contains_record, or_comm]
    simp [Subject.arrivals, hne]
  · rename_i h
    rw [not_and, not_not, fetch_eq_hitUpper] at h
    refine ⟨by simp, fun set line => ?_, id, id⟩
    constructor
    · exact .inl
    · rintro (hmem | ⟨hrecording, hshielded, -⟩)
      · exact hmem
      · exact absurd (h hrecording) hshielded

/-- An instruction adds its own line and what its call adds. -/
theorem instruction_adds (hcall : CallRecords subject call)
    (h : (instruction subject.config call recording x (i, subject.above place n)).result = .ok y) :
    Adds subject recording (calledBy subject.program i)
      (subject.arrivals place n i ∪ subject.linesOn (calledBy subject.program i))
      x.findings y.findings := by
  have hnoted : Adds subject recording ∅ _ x.findings _ := adds_noted subject place n i x.state
  -- what the instruction fetches, and then what the procedure that it calls records
  have hcases := (instruction_eq_ok h).2
  cases hc : i.callee with
  | none =>
    have hempty : calledBy subject.program i = ∅ := by
      ext place
      simp [calledBy, hc]
    simp only [hc] at hcases
    rw [hcases.2, hempty, linesOn_empty, Set.union_empty]
    exact hnoted
  | some q =>
    have hplaces : calledBy subject.program i = places subject.program q := by
      ext place
      simp [calledBy, hc]
    simp only [hc] at hcases
    obtain ⟨returned, hret, -⟩ := hcases
    have hall := hnoted.trans (hcall hret)
    rwa [Set.empty_union, ← hplaces] at hall

def calledUpTo (program : Program) (is : List Instruction) (n : Nat) : Set Place :=
  {place | ∃ m i, m < n ∧ is[m]? = some i ∧ place ∈ calledBy program i}

/-- The lines that the first instructions of a block bring to a level. -/
def Subject.arrivedUpTo (subject : Subject) (place : Place) (is : List Instruction) (n : Nat) :
    Set (Nat × Nat) :=
  {x | ∃ m i, m < n ∧ is[m]? = some i ∧ x ∈ subject.arrivals place m i}

/-- The instructions before the next one are those before this one, and this one. -/
theorem exists_lt_succ {P : Nat → Instruction → Prop} (hn : is[n]? = some i) :
    (∃ m j, m < n + 1 ∧ is[m]? = some j ∧ P m j) ↔
      (∃ m j, m < n ∧ is[m]? = some j ∧ P m j) ∨ P n i := by
  constructor
  · rintro ⟨m, j, hm, hj, hP⟩
    rcases Nat.lt_succ_iff_lt_or_eq.mp hm with hlt | rfl
    · exact .inl ⟨m, j, hlt, hj, hP⟩
    · obtain rfl := Option.some.inj (hn.symm.trans hj)
      exact .inr hP
  · rintro (⟨m, j, hm, hj, hP⟩ | hP)
    · exact ⟨m, j, Nat.lt_succ_of_lt hm, hj, hP⟩
    · exact ⟨n, i, Nat.lt_succ_self n, hn, hP⟩

/-- The first instructions of a block add their lines and what their calls add. -/
theorem Course.adds (hg : Course subject call recording place is g)
    (hcall : CallRecords subject call) (hn : n ≤ is.length) :
    Adds subject recording (calledUpTo subject.program is n)
      (subject.arrivedUpTo place is n ∪ subject.linesOn (calledUpTo subject.program is n))
      (g 0).findings (g n).findings := by
  induction n with
  | zero =>
    have hcalled : calledUpTo subject.program is 0 = ∅ := by
      ext place
      simp [calledUpTo]
    have harrived : subject.arrivedUpTo place is 0 = ∅ := by
      ext x
      simp [Subject.arrivedUpTo]
    rw [hcalled, harrived, linesOn_empty, Set.union_empty]
    exact .refl _
  | succ n ih =>
    have hget : is[n]? = some is[n] := List.getElem?_eq_getElem hn
    have hcalled : calledUpTo subject.program is (n + 1) =
        calledUpTo subject.program is n ∪ calledBy subject.program is[n] := by
      ext place
      exact exists_lt_succ hget
    have harrived : subject.arrivedUpTo place is (n + 1) =
        subject.arrivedUpTo place is n ∪ subject.arrivals place n is[n] := by
      ext x
      exact exists_lt_succ hget
    have hall := (ih (Nat.le_of_succ_le hn)).trans (instruction_adds hcall (hg.step n _ hget))
    rwa [hcalled, harrived, linesOn_union, Set.union_union_union_comm]

/-- The fetches of a course say whether they are said to hit above. -/
theorem Course.served (hg : Course subject call recording place is g) {fetch : Fetch}
    (hfetch : (g is.length).fetched.reverse[n]? = some fetch) :
    fetch.access = .hitUpper ↔ subject.Shielded place n := by
  have hn : n < is.length := by
    have hlines := hg.lines_fetched (Nat.le_refl _)
    have hlt := (List.getElem?_eq_some_iff.mp hfetch).1
    rw [← List.length_map (f := fun e : Fetch => e.line), hlines, linesOf, List.length_map,
      List.take_length] at hlt
    exact hlt
  have hget := hg.fetched_getElem? (Nat.le_refl _) hn (List.getElem?_eq_getElem hn)
  obtain rfl := Option.some.inj (hfetch.symm.trans hget)
  exact fetch_eq_hitUpper

/-- The end of a block adds the record of its place. -/
theorem stored_adds {fetches : List Fetch} (h : stored recording place fetches f = .ok f')
    (hfetches : ∀ (n : Nat) fetch, fetches[n]? = some fetch →
      (fetch.access = .hitUpper ↔ subject.Shielded place n)) :
    Adds subject recording {place} ∅ f f' := by
  cases recording with
  | false =>
    obtain rfl := pure_eq_ok.mp h
    exact (Adds.refl f).unrecorded
  | true =>
    obtain ⟨records, hrecord, h⟩ := bind_eq_ok.mp h
    obtain rfl := pure_eq_ok.mp h
    refine ⟨fun q => ?_, by simp, id, fun hserved => hserved.record hfetches hrecord⟩
    obtain ⟨fresh, kept, -, rfl, -⟩ := Classification.record_cases hrecord
    show ((f.records.records.insert place kept).get? q).isSome = true ↔ _
    by_cases hq : q = place
    · subst hq
      simp [Table.get?_insert_self, Set.mem_singleton_iff]
    · simp [Table.get?_insert_of_ne _ hq, hq, Classification.get?, Set.mem_singleton_iff]

variable {p : Procedure} {b : Nat} {context : Context} {s s' : State}

/-- A block is recorded, and what it calls. -/
theorem block_records (hcall : CallRecords subject call)
    (hp : subject.program.procedures[p.id]? = some p)
    (h : (block subject call recording p b context s f).result = .ok (s', f')) :
    Records subject recording (placesAt subject.program p b context) f f' := by
  obtain ⟨blk, g, hblk, hg, -, rfl, -, hstored⟩ := block_eq_ok h
  have hadds := (hg.adds hcall (Nat.le_refl _)).trans
    (stored_adds hstored fun n fetch hfetch => hg.served hfetch)
  -- the places of a block: its own, and those of the procedures that its instructions call
  have hplaces : calledUpTo subject.program blk.instructions blk.instructions.length ∪
      {⟨p.id, b, context⟩} = placesAt subject.program p b context := by
    ext place
    rw [Set.mem_union, or_comm]
    refine or_congr Iff.rfl ⟨?_, ?_⟩
    · rintro ⟨m, i, -, hi, c, hc, hmem⟩
      exact ⟨blk, i, c, hblk, List.mem_of_getElem? hi, hc, hmem⟩
    · rintro ⟨blk', i, c, hblk', hi, hc, hmem⟩
      obtain rfl := Option.some.inj (hblk.symm.trans hblk')
      obtain ⟨m, hm⟩ := List.getElem?_of_mem hi
      exact ⟨m, i, (List.getElem?_eq_some_iff.mp hm).1, hm, c, hc, hmem⟩
  have hlines : subject.arrivedUpTo ⟨p.id, b, context⟩ blk.instructions blk.instructions.length =
      subject.linesOn {⟨p.id, b, context⟩} := by
    ext x
    constructor
    · rintro ⟨m, i, -, hi, hx⟩
      exact ⟨_, rfl, p, blk, m, i, hp, hblk, hi, hx⟩
    · rintro ⟨_, rfl, p', blk', m, i, hp', hblk', hi, hx⟩
      obtain rfl := Option.some.inj (hp.symm.trans hp')
      obtain rfl := Option.some.inj (hblk.symm.trans hblk')
      exact ⟨m, i, (List.getElem?_eq_some_iff.mp hi).1, hi, hx⟩
  rw [Set.union_empty, hlines, Set.union_comm (subject.linesOn _), ← linesOn_union,
    hplaces] at hadds
  exact hadds

end Blocks

/-! ### Bodies -/

section Bodies

variable {call : Call} {inner : Inner} {p : Procedure} {region : Option Nat} {context : Context}
  {r : Nat} {s : State} {pass pass' : Pass}

def InnersRecord (subject : Subject) (p : Procedure) (inner : Inner) (region : Option Nat)
    (context : Context) : Prop :=
  ∀ {recording r l loop s pass pass'}, r ∈ p.orderOf region → p.headerOf? r = some l →
    some l ≠ region → p.loops[l]? = some loop →
    (inner recording l context s pass).result = .ok pass' →
    Records subject recording
      {place | 0 < loop.bound ∧ ∃ it, place ∈ placesIn subject.program p (some l) (context.nest it)}
      pass.findings pass'.findings

/-- A block of a body records its place, and the header of an inner loop those of the loop. -/
theorem visit_records (hprocedure : subject.program.procedures[p.id]? = some p)
    (hp : p.WellFormed) (hs : p.Shaped) (hlive : p.Live region context)
    (hcall : CallRecords subject call) (hinner : InnersRecord subject p inner region context)
    (hr : r ∈ p.orderOf region)
    (h : (visit subject call inner recording p region context r s pass).result = .ok pass') :
    Records subject recording (placesFor subject.program p region context r)
      pass.findings pass'.findings := by
  rcases visit_eq_ok h with ⟨l, hh, hne, hloop⟩ | ⟨hself, s', f', hblock, rfl⟩
  · obtain ⟨loop, hl, -⟩ := hp.headerOf_iff.mp hh
    apply (hinner hr hh hne hl hloop).congr
    intro place
    exact (Run.mem_placesFor_inner hlive hs hp hr hh hne hl).symm
  · apply (block_records hcall hprocedure hblock).congr
    intro place
    exact (Run.mem_placesFor_block hlive hs hp hr hself).symm

/-- Visits one after the other record what each of them records. -/
theorem records_of_foldlM {w : Run.Sweep Fault State Pass} {rest : List Nat} {S : Nat → Set Place}
    (hvisit : ∀ r ∈ rest, ∀ {s pass pass'}, w.visit r s pass = .ok pass' →
      Records subject recording (S r) pass.findings pass'.findings)
    (h : rest.foldlM w.next pass = .ok pass') :
    Records subject recording {place | ∃ r ∈ rest, place ∈ S r} pass.findings pass'.findings := by
  induction rest generalizing pass with
  | nil =>
    obtain rfl := pure_eq_ok.mp h
    exact (Records.none _).congr (by simp)
  | cons r rest ih =>
    obtain ⟨pass₁, hnext, h⟩ := foldlM_cons_eq_ok.mp h
    obtain ⟨s, -, hr⟩ := bind_eq_ok.mp hnext
    have hfirst := hvisit r List.mem_cons_self hr
    have hlater := ih (fun x hx => hvisit x (List.mem_cons_of_mem r hx)) h
    exact (hfirst.trans hlater).congr (by simp)

/-- A sweep records what its visits record. -/
theorem records_of_run {w : Run.Sweep Fault State Pass} {order : List Nat} {S : Nat → Set Place}
    (hvisit : ∀ r ∈ order, ∀ {s pass pass'}, w.visit r s pass = .ok pass' →
      Records subject recording (S r) pass.findings pass'.findings)
    (h : w.run order s pass = .ok pass') :
    Records subject recording {place | ∃ r ∈ order, place ∈ S r} pass.findings pass'.findings := by
  cases order with
  | nil =>
    obtain rfl := pure_eq_ok.mp h
    exact (Records.none _).congr (by simp)
  | cons r rest =>
    obtain ⟨pass₁, hr, h⟩ := bind_eq_ok.mp h
    have hfirst := hvisit r List.mem_cons_self hr
    have hlater := records_of_foldlM (fun x hx => hvisit x (List.mem_cons_of_mem r hx)) h
    exact (hfirst.trans hlater).congr (by simp)

theorem region_records (hprocedure : subject.program.procedures[p.id]? = some p)
    (hp : p.WellFormed) (hs : p.Shaped) (hlive : p.Live region context)
    (hcall : CallRecords subject call) (hinner : InnersRecord subject p inner region context)
    (h : (Level.region subject call inner recording p region context (p.orderOf region) s
      pass).result = .ok pass') :
    Records subject recording (placesIn subject.program p region context)
      pass.findings pass'.findings := by
  rw [region_result] at h
  have hrun := records_of_run
    (fun r hr {_ _ _} hv => visit_records hprocedure hp hs hlive hcall hinner hr hv) h
  apply hrun.congr
  intro place
  exact (Run.mem_placesIn hp).symm

end Bodies

/-! ### Loops and procedures -/

section Loops

variable {call : Call} {p : Procedure} {region : Option Nat} {context : Context}

/-- A loop is recorded in its first iteration and once more in a steady one. In between it is
followed without recording. -/
theorem innersRecord_loopAt (hprocedure : subject.program.procedures[p.id]? = some p)
    (hp : p.WellFormed) (hs : p.Shaped) (hcall : CallRecords subject call) (n : Nat)
    (hlive : p.Live region context) :
    InnersRecord subject p (loopAt subject call p n) region context := by
  induction n generalizing region context with
  | zero => exact nofun
  | succ n ih =>
    intro recording r l loop s pass pass' hr hh hne hl h
    obtain ⟨loop', hl', hloop⟩ := loopAt_eq_ok h
    obtain rfl := Option.some.inj (hl.symm.trans hl')
    rcases hloop with ⟨hzero, rfl⟩ | ⟨hbound, first, -, settles, again, same, -⟩
    · exact (Records.none _).congr fun place => ⟨nofun, fun hmem => absurd hmem.1 (by omega)⟩
    · rename_i pass₁ pass₂ pass₃ head₁ head out
      have hbody : ∀ {recording it s pass pass'},
          bodyOf subject call p n l loop recording (context.nest it) s pass = .ok pass' →
          Records subject recording (placesIn subject.program p (some l) (context.nest it))
            pass.findings pass'.findings := by
        intro recording it s pass pass' h
        have hinner := hlive.inner hs hp hr hh hne hl hbound it
        rw [bodyOf, ← Procedure.orderOf_loop hl] at h
        exact region_records hprocedure hp hs hinner hcall (ih hinner) h
      -- the search for a steady state records nothing
      have hsearch : Adds subject false ∅ ∅ pass₁.findings pass₂.findings := by
        apply settles.rel (R := fun t u => Adds subject false ∅ ∅ t.findings u.findings)
        · exact fun hrun => (hbody hrun).of_unrecorded
        · exact fun h₁ h₂ => (h₁.trans h₂).unrecorded
      show Records subject recording _ pass.findings pass₃.findings
      cases hrecording : recording with
      | false =>
        rw [same hrecording]
        rw [hrecording] at first
        exact ((hbody first).trans (hsearch.unrecorded (M := subject.linesOn ∅))).unrecorded
      | true =>
        rw [hrecording] at first
        have hunrecorded : Records subject true ∅ pass₁.findings pass₂.findings := by
          unfold Records
          rw [linesOn_empty]
          exact hsearch.of_unrecorded
        have hall := ((hbody first).trans hunrecorded).trans (hbody (again hrecording))
        refine hall.congr fun place => ⟨?_, ?_⟩
        · rintro ((hmem | hmem) | hmem)
          · exact ⟨hbound, .first, hmem⟩
          · cases hmem
          · exact ⟨hbound, .steady, hmem⟩
        · rintro ⟨-, it, hmem⟩
          cases it with
          | first => exact .inl (.inl hmem)
          | steady => exact .inr hmem

/-- Calls record all places that the called procedure leads to. -/
theorem callRecords_procedureAt (hprogram : subject.program.Accepted) (n : Nat) :
    CallRecords subject (procedureAt subject n) := by
  induction n with
  | zero => exact nofun
  | succ n ih =>
    intro recording q s f s' f' h
    obtain ⟨p, pass, hq, hpass, -, rfl⟩ := procedureAt_eq_ok h
    have hp := hprogram.wellFormed hq
    have hs := hprogram.shaped hq
    have hprocedure : subject.program.procedures[p.id]? = some p := by rwa [hprogram.id_eq hq]
    have hlive : p.Live none .root := Procedure.live_root
    have hregion := region_records hprocedure hp hs hlive ih
      (innersRecord_loopAt hprocedure hp hs ih p.loops.length hlive) hpass
    rwa [← Run.places_eq hprogram hq] at hregion

end Loops

end Level

/-! ### Levels -/

/-- The records of a level are those of the places from an entry, each with one fetch per
instruction, in order and with its line. -/
structure Classification.Complete (k : Classification) (c : Config) (program : Program)
    (entry : Nat) : Prop where
  config : k.config = c
  recorded : ∀ place, (k.get? place).isSome = true ↔ place ∈ places program entry
  fetches : ∀ {place r}, k.get? place = some r → ∃ p block,
    program.procedures[place.procedure]? = some p ∧ p.blocks[place.block]? = some block ∧
    r.fetches.map (·.line) = block.instructions.map fun i => c.line i.address

/-- A footprint has the lines of the recorded fetches that are not said to hit above, and no
others. -/
structure Footprint.Lists (f : Footprint) (k : Classification) : Prop where
  contains_iff : ∀ set line, f.Contains set line ↔ set = k.config.setOf line ∧
    ∃ place r, k.get? place = some r ∧ ∃ fetch ∈ r.fetches, fetch.line = line ∧
      fetch.access ≠ .hitUpper
  uses_iff : ∀ set, f.uses set = true ↔ ∃ line, f.Contains set line

namespace Level

variable {program : Program} {entry : Nat} {config : Config} {upper : Option Classification}
  {r : Result}

theorem analyze_records (hprogram : program.Accepted)
    (h : (analyze program entry config upper).result = .ok r) :
    Records ⟨program, config, upper⟩ true (places program entry) ⟨.empty config, .empty⟩
      ⟨r.classification, r.footprint⟩ :=
  callRecords_procedureAt hprogram _ (analyze_eq_ok h)

theorem analyze_complete (hprogram : program.Accepted)
    (h : (analyze program entry config upper).result = .ok r) :
    r.classification.Complete config program entry where
  config := (analyze_located hprogram h).config
  recorded := by
    intro place
    rw [(analyze_records hprogram h).records place]
    simp [Classification.empty, Classification.get?]
  fetches := (analyze_located hprogram h).lines

/-- The lines that a place brings to a level are those of its recorded fetches that are not said to
hit above. -/
theorem mem_linesAt {subject : Subject} {k : Classification} {place : Place} {r : Record}
    (hlocated : Located subject k) (hserved : Served subject k) (hr : k.get? place = some r)
    (set line : Nat) :
    (set, line) ∈ subject.linesAt place ↔ set = subject.config.setOf line ∧
      ∃ fetch ∈ r.fetches, fetch.line = line ∧ fetch.access ≠ .hitUpper := by
  obtain ⟨p, block, hp, hblock, hlines⟩ := hlocated.lines hr
  -- the fetches of a record stand in the order of the instructions
  have hline : ∀ n : Nat, r.fetches[n]?.map (·.line) =
      block.instructions[n]?.map fun i => subject.config.line i.address := by
    intro n
    rw [← List.getElem?_map, hlines, linesOf, List.getElem?_map]
  constructor
  · rintro ⟨p', block', n, i, hp', hblock', hi, hshielded, hx⟩
    obtain rfl := Option.some.inj (hp.symm.trans hp')
    obtain rfl := Option.some.inj (hblock.symm.trans hblock')
    obtain ⟨rfl, rfl⟩ := Prod.mk.inj hx
    have hn := hline n
    rw [hi, Option.map_some, Option.map_eq_some_iff] at hn
    obtain ⟨fetch, hfetch, hn⟩ := hn
    refine ⟨rfl, fetch, List.mem_of_getElem? hfetch, hn, ?_⟩
    rwa [ne_eq, hserved hr hfetch]
  · rintro ⟨rfl, fetch, hfetch, rfl, haccess⟩
    obtain ⟨n, hn⟩ := List.getElem?_of_mem hfetch
    have hi := (hline n).symm
    rw [hn, Option.map_some, Option.map_eq_some_iff] at hi
    obtain ⟨i, hi, heq⟩ := hi
    refine ⟨p, block, n, i, hp, hblock, hi, ?_, by rw [heq]⟩
    rwa [← hserved hr hn]

/-- The footprint of a level has just the lines of the recorded fetches that arrive. -/
theorem analyze_footprint (hprogram : program.Accepted)
    (h : (analyze program entry config upper).result = .ok r) :
    r.footprint.Lists r.classification := by
  have hrecords := analyze_records hprogram h
  have hlocated := analyze_located hprogram h
  have hserved : Served ⟨program, config, upper⟩ r.classification := hrecords.served nofun
  have htight : r.footprint.Tight := hrecords.tight nofun
  have hrecorded := (analyze_complete hprogram h).recorded
  constructor
  case uses_iff =>
    intro set
    refine ⟨htight set, ?_⟩
    rintro ⟨line, hline⟩
    exact Footprint.uses_of_contains hline
  case contains_iff =>
    intro set line
    have hempty : ¬ Footprint.empty.Contains set line := nofun
    rw [hrecords.footprint set line, hlocated.config]
    constructor
    · rintro (hmem | ⟨-, place, hplace, hmem⟩)
      · exact absurd hmem hempty
      · obtain ⟨record, hget⟩ := Option.isSome_iff_exists.mp ((hrecorded place).mpr hplace)
        obtain ⟨hset, hfetch⟩ := (mem_linesAt hlocated hserved hget set line).mp hmem
        exact ⟨hset, place, record, hget, hfetch⟩
    · rintro ⟨hset, place, record, hget, hfetch⟩
      have hplace := (hrecorded place).mp (Option.isSome_iff_exists.mpr ⟨record, hget⟩)
      have hmem := (mem_linesAt hlocated hserved hget set line).mpr ⟨hset, hfetch⟩
      exact .inr ⟨rfl, place, hplace, hmem⟩

end Level

/-- All levels of a hierarchy are complete, and the footprint is the one of the last level. -/
theorem Hierarchy.analyze_complete {levels : Hierarchy} {program : Program} {entry : Nat}
    {a : Analysis} (hprogram : program.Accepted)
    (h : (levels.analyze program entry).result = .ok a) :
    a.l1.Complete levels.l1 program entry ∧
      Option.Rel (fun k c => k.Complete c program entry) a.l2 levels.l2 ∧
      a.footprint.Lists (a.l2.getD a.l1) := by
  obtain ⟨first, hfirst, hl₁, hlast⟩ := Hierarchy.analyze_eq_ok h
  have hcomplete := Level.analyze_complete hprogram hfirst
  rw [hl₁]
  cases hlevels : levels.l2 with
  | none =>
    rw [hlevels] at hlast
    obtain ⟨hl₂, hfootprint⟩ := hlast
    rw [hl₂, hfootprint]
    exact ⟨hcomplete, .none, Level.analyze_footprint hprogram hfirst⟩
  | some c =>
    rw [hlevels] at hlast
    obtain ⟨second, hsecond, hl₂, hfootprint⟩ := hlast
    rw [hl₂, hfootprint]
    exact ⟨hcomplete, .some (Level.analyze_complete hprogram hsecond),
      Level.analyze_footprint hprogram hsecond⟩

end CycleBounds.Cache
