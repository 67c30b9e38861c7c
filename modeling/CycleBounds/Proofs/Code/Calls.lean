import CycleBounds.Proofs.Code.Structure
import Mathlib.Data.List.Perm.Subperm

/-!
# Chains of calls

The search for recursive calls lists procedures in an order in which every procedure calls only
procedures that were listed before it. So a chain of calls has an end: procedures can be ranked in
such a way that calls lead to lower ranks.

* `search_spec`: what the search adds to the list.
* `exists_ranked`: the calls of a program are ranked.
-/

namespace CycleBounds.Code

theorem Procedure.mem_callees {p : Procedure} {b q : Nat} {block : Block} {i : Instruction}
    (hblock : p.blocks[b]? = some block) (hi : i ∈ block.instructions)
    (hcallee : i.callee = some q) : q ∈ p.callees := by
  refine List.mem_filterMap.mpr ⟨i, ?_, hcallee⟩
  exact List.mem_flatMap.mpr ⟨block, List.mem_of_getElem? hblock, hi⟩

namespace Program

variable {calls : Nat → List Nat} {done done' active cs : List Nat} {id fuel : Nat}

/-- Every procedure of a list calls only those after it, and is listed once. -/
def CallsLater (calls : Nat → List Nat) : List Nat → Prop
  | [] => True
  | id :: rest => (∀ c ∈ calls id, c ∈ rest) ∧ id ∉ rest ∧ CallsLater calls rest

theorem CallsLater.nodup (h : CallsLater calls done) : done.Nodup := by
  induction done with
  | nil => exact .nil
  | cons id rest ih => exact List.nodup_cons.mpr ⟨h.2.1, ih h.2.2⟩

/-- What is called from a finished procedure is finished. -/
theorem CallsLater.mem (h : CallsLater calls done) {x c : Nat} (hx : x ∈ done) (hc : c ∈ calls x) :
    c ∈ done := by
  induction done with
  | nil => cases hx
  | cons id rest ih =>
    rcases List.mem_cons.mp hx with rfl | hx
    · exact List.mem_cons_of_mem _ (h.1 c hc)
    · exact List.mem_cons_of_mem _ (ih h.2.2 hx)

/-- Procedures are ranked by how many are listed after them. -/
theorem CallsLater.exists_rank (h : CallsLater calls done) :
    ∃ rank : Nat → Nat, (∀ x, rank x ≤ done.length) ∧
      ∀ x ∈ done, ∀ c ∈ calls x, rank c < rank x := by
  induction done with
  | nil => exact ⟨fun _ => 0, fun _ => Nat.le_refl 0, nofun⟩
  | cons id rest ih =>
    obtain ⟨hcalls, hnew, hrest⟩ := h
    obtain ⟨rank, hle, hlt⟩ := ih hrest
    have hother : ∀ {x}, x ∈ rest → x ≠ id := by
      rintro x hx rfl
      exact hnew hx
    -- the procedure found last may call all the others, so it ranks above them
    refine ⟨fun x => if x = id then rest.length + 1 else rank x, fun x => ?_, fun x hx c hc => ?_⟩
    · have := hle x
      simp only [List.length_cons]
      split <;> omega
    · simp only
      rcases List.mem_cons.mp hx with rfl | hx
      · rw [if_neg (hother (hcalls c hc)), if_pos rfl]
        exact Nat.lt_succ_of_le (hle c)
      · rw [if_neg (hother (hrest.mem hx hc)), if_neg (hother hx)]
        exact hlt x hx c hc

/-- The search goes on from one list to another, while some procedures are active. -/
structure Finds (calls : Nat → List Nat) (known : Nat → Prop) (active done done' : List Nat) :
    Prop where
  later : CallsLater calls done'
  mem : ∀ x ∈ done, x ∈ done'
  active : ∀ x ∈ active, x ∉ done → x ∉ done'
  known : ∀ x ∈ done', x ∈ done ∨ known x

variable {known : Nat → Prop}

theorem Finds.refl (h : CallsLater calls done) : Finds calls known active done done :=
  ⟨h, fun _ => id, fun _ _ => id, fun _ => .inl⟩

theorem Finds.trans {done'' : List Nat} (h : Finds calls known active done done')
    (h' : Finds calls known active done' done'') : Finds calls known active done done'' where
  later := h'.later
  mem x hx := h'.mem x (h.mem x hx)
  active x hx hnew := h'.active x hx (h.active x hx hnew)
  known x hx := (h'.known x hx).elim (h.known x) .inr

/-- Procedures are searched one by one. -/
theorem finds_of_foldlM {α : Type} {f : α → Nat}
    {step : List Nat → Nat → Except ProgramError (List Nat)}
    (hstep : ∀ {done id done'}, CallsLater calls done → known id → step done id = .ok done' →
      Finds calls known active done done' ∧ id ∈ done') {xs : List α}
    (hdone : CallsLater calls done) (hxs : ∀ x ∈ xs, known (f x))
    (h : xs.foldlM (fun done x => step done (f x)) done = .ok done') :
    Finds calls known active done done' ∧ ∀ x ∈ xs, f x ∈ done' := by
  induction xs generalizing done with
  | nil =>
    obtain rfl := Except.ok.inj h
    exact ⟨.refl hdone, nofun⟩
  | cons x xs ih =>
    obtain ⟨done₁, hfirst, h⟩ := foldlM_cons_eq_ok.mp h
    obtain ⟨hx, hxs⟩ := List.forall_mem_cons.mp hxs
    obtain ⟨hfinds, hmem⟩ := hstep hdone hx hfirst
    obtain ⟨hfinds', hmems⟩ := ih hfinds.later hxs h
    exact ⟨hfinds.trans hfinds', List.forall_mem_cons.mpr ⟨hfinds'.mem _ hmem, hmems⟩⟩

/-- A search finishes its start, and no unknown procedures. -/
theorem search_spec (hknown : ∀ x, known x → ∀ c ∈ calls x, known c)
    (hdone : CallsLater calls done) (hid : known id)
    (h : search calls fuel active done id = .ok done') :
    Finds calls known active done done' ∧ id ∈ done' := by
  induction fuel generalizing active done id done' with
  | zero => cases h
  | succ fuel ih =>
    simp only [search, List.contains_iff_mem] at h
    split at h
    · rename_i hmem
      obtain rfl := Except.ok.inj h
      exact ⟨.refl hdone, hmem⟩
    split at h
    · cases h
    rename_i hnew hinactive
    obtain ⟨done₁, hfold, h⟩ := bind_eq_ok.mp h
    obtain rfl := Except.ok.inj h
    -- the calls of `id` are searched with `id` active, so none of them lists it
    obtain ⟨hfinds, hcalls⟩ := finds_of_foldlM (f := fun c => c)
      (fun hdone hid h => ih hdone hid h) hdone (hknown id hid) hfold
    have hfresh := hfinds.active id List.mem_cons_self hnew
    refine ⟨⟨⟨hcalls, hfresh, hfinds.later⟩, ?_, ?_, ?_⟩, List.mem_cons_self⟩
    · exact fun x hx => List.mem_cons_of_mem id (hfinds.mem x hx)
    · intro x hx hnot hmem
      rcases List.mem_cons.mp hmem with rfl | hmem
      · exact hinactive hx
      · exact hfinds.active x (List.mem_cons_of_mem id hx) hnot hmem
    · intro x hx
      rcases List.mem_cons.mp hx with rfl | hx
      · exact .inr hid
      · exact hfinds.known x hx

/-- Calls lead to procedures of lower rank. -/
structure Ranked (program : Program) (rank : Nat → Nat) : Prop where
  le : ∀ q, rank q ≤ program.procedures.length
  callee : ∀ {q p c}, program.procedures[q]? = some p → c ∈ p.callees →
    c < program.procedures.length ∧ rank c < rank q

variable {program : Program} {procedures : List Procedure}

/-- Checked procedures stand at their own ids and call known ones only. -/
theorem checkCallees_eq_ok (h : checkCallees procedures = .ok ()) {q : Nat} {p : Procedure}
    (hp : procedures[q]? = some p) : p.id = q ∧ ∀ c ∈ p.callees, c < procedures.length := by
  have h := forM_eq_ok h (p, q) (List.mem_zipIdx_iff_getElem?.mpr hp)
  simp only [ne_eq] at h
  split at h
  · cases h
  rename_i hid
  split at h
  · cases h
  rename_i hfind
  refine ⟨not_not.mp hid, fun c hc => ?_⟩
  have hlt := List.find?_eq_none.mp hfind c hc
  simpa using hlt

/-- Procedures of an accepted program are listed by their ids. -/
theorem Accepted.id_eq (h : program.Accepted) {q : Nat} {p : Procedure}
    (hp : program.procedures[q]? = some p) : p.id = q := by
  obtain ⟨drafts, procedures, -, hprogram⟩ := h
  obtain ⟨⟨⟩, hcallees, hprogram⟩ := bind_eq_ok.mp hprogram
  obtain ⟨⟨⟩, -, hprogram⟩ := bind_eq_ok.mp hprogram
  obtain rfl := Except.ok.inj hprogram
  exact (checkCallees_eq_ok hcallees hp).1

/-- No chain of calls of a program is longer than the list of procedures. -/
theorem exists_ranked (h : ofProcedures procedures = .ok program) :
    ∃ rank, program.Ranked rank := by
  obtain ⟨⟨⟩, hcallees, hprogram⟩ := bind_eq_ok.mp h
  obtain ⟨⟨⟩, hcalls, hprogram⟩ := bind_eq_ok.mp hprogram
  obtain rfl := Except.ok.inj hprogram
  obtain ⟨done, hfold, -⟩ := bind_eq_ok.mp hcalls
  have hentry : ∀ {q}, q < procedures.length → ∃ p, procedures[q]? = some p :=
    fun hq => ⟨_, List.getElem?_eq_getElem hq⟩
  have hknown : ∀ q, q < procedures.length → ∀ c ∈ calls procedures q, c < procedures.length := by
    intro q hq c hc
    obtain ⟨p, hp⟩ := hentry hq
    rw [calls, hp] at hc
    exact (checkCallees_eq_ok hcallees hp).2 c hc
  have hids : ∀ p ∈ procedures, p.id < procedures.length := by
    intro p hp
    obtain ⟨q, hq⟩ := List.getElem?_of_mem hp
    rw [(checkCallees_eq_ok hcallees hq).1]
    exact (List.getElem?_eq_some_iff.mp hq).1
  have hstart : CallsLater (calls procedures) [] := trivial
  obtain ⟨hfinds, hall⟩ := finds_of_foldlM (f := Procedure.id)
    (fun hdone hid h => search_spec hknown hdone hid h) hstart hids hfold
  obtain ⟨rank, hle, hlt⟩ := hfinds.later.exists_rank
  -- the procedures found are distinct and all of them are of the program
  have hlength : done.length ≤ procedures.length := by
    have hsubset : done ⊆ List.range procedures.length := fun x hx =>
      List.mem_range.mpr ((hfinds.known x hx).resolve_left nofun)
    simpa using (List.subperm_of_subset hfinds.later.nodup hsubset).length_le
  refine ⟨rank, fun q => Nat.le_trans (hle q) hlength, fun {q p c} hp hc => ?_⟩
  obtain ⟨hid, hlt'⟩ := checkCallees_eq_ok hcallees hp
  refine ⟨hlt' c hc, hlt q ?_ c ?_⟩
  · exact hid ▸ hall p (List.mem_of_getElem? hp)
  · rw [calls, hp]
    exact hc

theorem Accepted.exists_ranked (h : program.Accepted) : ∃ rank, program.Ranked rank := by
  obtain ⟨drafts, procedures, -, hprogram⟩ := h
  exact Program.exists_ranked hprogram

end Program

end CycleBounds.Code
