import CycleBounds.Proofs.Cache.Soundness
import CycleBounds.Proofs.Code.Calls

/-!
# The lines of recorded fetches

A record lists the fetches of a block in the order of its instructions, each with its line. However
often a block is recorded, these lines stay the same, so the line of a recorded fetch is the one
that an execution fetches there.

* `analyze_located`: the records of an analysis are about the instructions of the program.
* `Execution.issued`: so are the fetches of an execution.
-/

namespace CycleBounds.Run

open Code (Program Procedure Instruction)

variable {policy : Policy} {program : Program} {p : Procedure} {start h : History}

/-- A fetch is the one of an instruction of a program. -/
def Issued (program : Program) (i : Issue) : Prop :=
  ∃ p block ins, program.procedures[i.place.procedure]? = some p ∧
    p.blocks[i.place.block]? = some block ∧ block.instructions[i.index]? = some ins ∧
    i.address = ins.address

theorem issued_of_instruction {f : Frame} {ins : Instruction}
    (hp : program.procedures[p.id]? = some p) (hins : f.instruction? p = some ins) :
    Issued program (f.issue p ins) := by
  obtain ⟨block, hblock, hget⟩ := Option.bind_eq_some_iff.mp hins
  exact ⟨p, block, ins, hp, hblock, hget, rfl⟩

/-- All fetches of a walk are those of instructions of the program. -/
theorem Walk.issued {f : Frame} (hw : Walk policy program p start f h)
    (hprogram : program.Accepted) (hp : program.procedures[p.id]? = some p)
    (hstart : start.All fun _ => Issued program) : h.All fun _ => Issued program := by
  induction hw with
  | arrive => exact hstart
  | fetch _ hins _ ih => exact ⟨issued_of_instruction hp hins, ih hp hstart⟩
  | call _ hins _ hq _ _ ih ih' =>
    apply ih'
    · rwa [hprogram.id_eq hq]
    · exact ⟨issued_of_instruction hp hins, ih hp hstart⟩
  | follow _ _ ih | again _ _ ih => exact ih hp hstart

theorem Execution.issued (he : Execution policy program p start h)
    (hprogram : program.Accepted) (hp : program.procedures[p.id]? = some p)
    (hstart : start.All fun _ => Issued program) : h.All fun _ => Issued program := by
  induction he with
  | here hw => exact hw.issued hprogram hp hstart
  | inside hw hins _ hq _ ih =>
    apply ih
    · rwa [hprogram.id_eq hq]
    · exact ⟨issued_of_instruction hp hins, hw.issued hprogram hp hstart⟩

end CycleBounds.Run

namespace CycleBounds.Cache.Level

open Code (Program Procedure Instruction)
open Run (Issue Issued)

def linesOf (c : Config) (is : List Instruction) : List Nat :=
  is.map fun i => c.line i.address

/-- Records list the lines of the instructions of their blocks. -/
structure Located (subject : Subject) (k : Classification) : Prop where
  config : k.config = subject.config
  built : k.Built
  lines : ∀ {place r}, k.get? place = some r → ∃ p block,
    subject.program.procedures[place.procedure]? = some p ∧
    p.blocks[place.block]? = some block ∧
    r.fetches.map (·.line) = linesOf subject.config block.instructions

variable {subject : Subject} {k k' : Classification}

theorem located_empty : Located subject (.empty subject.config) :=
  ⟨rfl, .empty _, nofun⟩

/-- The line of a recorded fetch is the one that is fetched. -/
theorem Located.line_eq (h : Located subject k) {i : Issue} {r : Record} {f : Fetch}
    (hi : Issued subject.program i) (hr : k.get? i.place = some r)
    (hf : r.fetches[i.index]? = some f) : f.line = subject.config.line i.address := by
  obtain ⟨p, block, hp, hblock, hlines⟩ := h.lines hr
  obtain ⟨p', block', ins, hp', hblock', hins, haddress⟩ := hi
  obtain rfl := Option.some.inj (hp.symm.trans hp')
  obtain rfl := Option.some.inj (hblock.symm.trans hblock')
  have hline := congrArg (·[i.index]?) hlines
  simp only [linesOf, List.getElem?_map, hf, hins, Option.map_some, Option.some.injEq] at hline
  rw [hline, haddress]

/-! ### Recording -/

theorem lines_join {c : Config} {context : Context} {r s t : Record}
    (h : r.join c context s = .ok t) :
    t.fetches.map (·.line) = r.fetches.map (·.line) := by
  obtain ⟨⟨⟩, hlen, h⟩ := bind_eq_ok.mp h
  have hlen : r.fetches.length = s.fetches.length := by simpa using assume_eq_ok.mp hlen
  rw [Record.ofFetches_eq_ok h, List.map_zipWith]
  apply List.ext_getElem
  · simp [hlen]
  · simp

/-- Recording a block with the lines of its own instructions keeps records located. -/
theorem Located.record (h : Located subject k) {place : Place} {fetches : List Fetch}
    {p : Procedure} {block : Code.Block}
    (hp : subject.program.procedures[place.procedure]? = some p)
    (hblock : p.blocks[place.block]? = some block)
    (hlines : fetches.map (·.line) = linesOf subject.config block.instructions)
    (hrecord : k.record place fetches = .ok k') : Located subject k' := by
  have hbuilt := h.built.record hrecord
  obtain ⟨fresh, stored, rfl, rfl, hcases⟩ := Classification.record_cases hrecord
  refine ⟨h.config, hbuilt, ?_⟩
  intro q r hq
  by_cases heq : q = place
  · obtain rfl := heq
    obtain rfl := Option.some.inj ((Table.get?_insert_self _ _ _).symm.trans hq)
    rcases hcases with ⟨-, rfl⟩ | ⟨old, hold, hjoin⟩
    · exact ⟨p, block, hp, hblock, hlines⟩
    · -- the lines of the older record are kept
      obtain ⟨p', block', hp', hblock', hlines'⟩ := h.lines hold
      exact ⟨p', block', hp', hblock', (lines_join hjoin).trans hlines'⟩
  · exact h.lines ((Table.get?_insert_of_ne _ heq _).symm.trans hq)

/-! ### Following a program -/

def CallLocates (subject : Subject) (call : Call) : Prop :=
  ∀ {recording q s f s' f'}, (call recording q s f).result = .ok (s', f') →
    Located subject f.records → Located subject f'.records

def InnerLocates (subject : Subject) (inner : Inner) : Prop :=
  ∀ {recording l context s pass pass'}, (inner recording l context s pass).result = .ok pass' →
    Located subject pass.findings.records → Located subject pass'.findings.records

section Parts

variable {call : Call} {inner : Inner} {recording : Bool} {p : Procedure}

theorem records_noted {c : Config} {f : Findings} {access : Access} {address : Nat} :
    (noted c recording f access address).records = f.records := by
  rw [noted]
  split <;> rfl

/-- An instruction keeps records located if its call does. -/
theorem instruction_located (hcall : CallLocates subject call) {x y : Progress}
    {i : Instruction × Option Access}
    (h : (instruction subject.config call recording x i).result = .ok y)
    (hx : Located subject x.findings.records) : Located subject y.findings.records := by
  have hcases := (instruction_eq_ok h).2
  cases hc : i.1.callee with
  | none =>
    rw [hc] at hcases
    rwa [hcases.2, records_noted]
  | some q =>
    rw [hc] at hcases
    obtain ⟨returned, hret, -⟩ := hcases
    exact hcall hret (records_noted.symm ▸ hx)

variable {place : Place} {is : List Instruction} {g : Nat → Progress} {n : Nat}

theorem Course.located (hg : Course subject call recording place is g)
    (hcall : CallLocates subject call) (h₀ : Located subject (g 0).findings.records)
    (hn : n ≤ is.length) : Located subject (g n).findings.records := by
  induction n with
  | zero => exact h₀
  | succ n ih =>
    have hstep := hg.step n _ (List.getElem?_eq_getElem hn)
    exact instruction_located hcall hstep (ih (Nat.le_of_succ_le hn))

/-- The fetches of the first instructions of a block have the lines of these instructions. -/
theorem Course.lines_fetched (hg : Course subject call recording place is g)
    (hn : n ≤ is.length) :
    (g n).fetched.reverse.map (·.line) = linesOf subject.config (is.take n) := by
  induction n with
  | zero =>
    rw [hg.fetched]
    rfl
  | succ n ih =>
    have hstep := hg.step n _ (List.getElem?_eq_getElem hn)
    rw [(instruction_eq_ok hstep).1, List.reverse_cons, List.map_append,
      ih (Nat.le_of_succ_le hn), List.take_succ_eq_append_getElem hn, linesOf, linesOf,
      List.map_append]
    rfl

variable {current : Option Nat} {context : Context} {s s' : State} {f f' : Findings} {b : Nat}
  {pass pass' : Pass}

/-- A block keeps records located, as it records its own instructions. -/
theorem block_located (hcall : CallLocates subject call)
    (hp : subject.program.procedures[p.id]? = some p)
    (h : (block subject call recording p b context s f).result = .ok (s', f'))
    (hf : Located subject f.records) : Located subject f'.records := by
  obtain ⟨blk, g, hblk, hg, -, rfl, -, hstored⟩ := block_eq_ok h
  have hlast := hg.located hcall hf (Nat.le_refl _)
  cases recording with
  | false =>
    obtain rfl := pure_eq_ok.mp hstored
    exact hlast
  | true =>
    obtain ⟨records, hrecord, hstored⟩ := bind_eq_ok.mp hstored
    obtain rfl := pure_eq_ok.mp hstored
    have hlines := hg.lines_fetched (Nat.le_refl _)
    rw [List.take_length] at hlines
    exact hlast.record hp hblk hlines hrecord

theorem visit_located (hcall : CallLocates subject call) (hinner : InnerLocates subject inner)
    (hp : subject.program.procedures[p.id]? = some p)
    (h : (visit subject call inner recording p current context b s pass).result = .ok pass')
    (hpass : Located subject pass.findings.records) : Located subject pass'.findings.records := by
  rcases visit_eq_ok h with ⟨l, -, -, hl⟩ | ⟨-, s', f', hblock, rfl⟩
  · exact hinner hl hpass
  · exact block_located hcall hp hblock hpass

theorem region_located (hcall : CallLocates subject call) (hinner : InnerLocates subject inner)
    (hp : subject.program.procedures[p.id]? = some p) {order : List Nat}
    (h : (region subject call inner recording p current context order s pass).result = .ok pass') :
    Located subject pass.findings.records → Located subject pass'.findings.records := by
  rw [region_result] at h
  exact Run.Sweep.rel_of_run
    (R := fun (t u : Pass) =>
      Located subject t.findings.records → Located subject u.findings.records)
    (fun _ => id) (fun h₁ h₂ h => h₂ (h₁ h)) (fun _ _ => visit_located hcall hinner hp) h

/-- Loops keep records located, however deep they nest. -/
theorem innerLocates_loopAt (hcall : CallLocates subject call)
    (hp : subject.program.procedures[p.id]? = some p) (n : Nat) :
    InnerLocates subject (loopAt subject call p n) := by
  induction n with
  | zero => exact nofun
  | succ n ih =>
    intro recording l context s pass pass' h hpass
    obtain ⟨loop, hl, ⟨-, rfl⟩ | ⟨-, first, -, settles, again, same, -⟩⟩ := loopAt_eq_ok h
    · exact hpass
    · rename_i pass₁ pass₂ pass₃ head₁ head out
      have hbody : ∀ {recording context s pass pass'},
          bodyOf subject call p n l loop recording context s pass = .ok pass' →
          Located subject pass.findings.records → Located subject pass'.findings.records :=
        fun h => region_located hcall ih hp h
      have hsettled : Located subject pass₂.findings.records :=
        settles.rel (R := fun t u => Located subject t.findings.records →
          Located subject u.findings.records) hbody (fun h₁ h₂ h => h₂ (h₁ h)) (hbody first hpass)
      show Located subject pass₃.findings.records
      -- without recording, the last round is not run
      cases hr : recording with
      | false => rwa [same hr]
      | true => exact hbody (again hr) hsettled

/-- Calls keep records located, however long the chain of calls may get. -/
theorem callLocates_procedureAt (hprogram : subject.program.Accepted) (n : Nat) :
    CallLocates subject (procedureAt subject n) := by
  induction n with
  | zero => exact nofun
  | succ n ih =>
    intro recording q s f s' f' h hf
    obtain ⟨p, pass, hq, hpass, -, rfl⟩ := procedureAt_eq_ok h
    have hp : subject.program.procedures[p.id]? = some p := by rwa [hprogram.id_eq hq]
    exact region_located ih (innerLocates_loopAt ih hp _) hp hpass hf

end Parts

/-- The records of an analysis are about the instructions of the program. -/
theorem analyze_located {program : Program} {entry : Nat} {config : Config}
    {upper : Option Classification} {r : Result} (hprogram : program.Accepted)
    (h : (analyze program entry config upper).result = .ok r) :
    Located ⟨program, config, upper⟩ r.classification :=
  callLocates_procedureAt hprogram _ (analyze_eq_ok h) located_empty

end CycleBounds.Cache.Level
