import CycleBounds.Proofs.Code.Calls
import Mathlib.Logic.Relation

/-!
# Recursive calls

Procedures form a program if none of them calls itself, directly or through others. The search for
such calls goes down one chain of calls at a time, and every procedure of the chain calls the one at
hand, directly or through the rest of the chain. So what is met for a second time calls itself.

* `Chain`: what the search knows of the active procedures.
* `search_eq_error`: what the search reports calls itself. A chain does not repeat procedures, so it
  is never longer than there are procedures, and the search never gives up.
* `ofProcedures_iff`: procedures form a program just if none of them calls itself.
-/

namespace CycleBounds.Code.Program

def Invokes (procedures : List Procedure) (q c : Nat) : Prop :=
  ∃ p, procedures[q]? = some p ∧ c ∈ p.callees

/-- A procedure of a list calls itself, directly or through others. -/
def Recurs (procedures : List Procedure) (q : Nat) : Prop :=
  Relation.TransGen (Invokes procedures) q q

variable {procedures : List Procedure} {active done : List Nat} {id fuel : Nat}
  {cause : ProgramError}

theorem mem_calls {q c : Nat} : c ∈ calls procedures q ↔ Invokes procedures q c := by
  rw [calls, Invokes]
  cases procedures[q]? with
  | none => simp
  | some p => simp

/-! ### The search -/

/-- The active procedures: all of them exist, none is repeated, and each leads to the one at
hand. -/
structure Chain (procedures : List Procedure) (active : List Nat) (id : Nat) : Prop where
  nodup : active.Nodup
  lt : ∀ x ∈ active, x < procedures.length
  leads : ∀ x ∈ active, Relation.TransGen (Invokes procedures) x id

theorem Chain.start (procedures : List Procedure) (id : Nat) : Chain procedures [] id :=
  ⟨.nil, nofun, nofun⟩

theorem Chain.call (h : Chain procedures active id) (hid : id < procedures.length)
    (hnew : id ∉ active) {c : Nat} (hc : Invokes procedures id c) :
    Chain procedures (id :: active) c where
  nodup := List.nodup_cons.mpr ⟨hnew, h.nodup⟩
  lt := List.forall_mem_cons.mpr ⟨hid, h.lt⟩
  leads := List.forall_mem_cons.mpr ⟨.single hc, fun x hx => (h.leads x hx).tail hc⟩

theorem Chain.length_le (h : Chain procedures active id) : active.length ≤ procedures.length := by
  have hsubset : active ⊆ List.range procedures.length :=
    fun x hx => List.mem_range.mpr (h.lt x hx)
  simpa using (List.subperm_of_subset h.nodup hsubset).length_le

/-- What the search reports calls itself. -/
theorem search_eq_error
    (hknown : ∀ q c, Invokes procedures q c → c < procedures.length)
    (hchain : Chain procedures active id) (hid : id < procedures.length)
    (hfuel : procedures.length < active.length + fuel)
    (h : search (calls procedures) fuel active done id = .error cause) :
    ∃ q, cause = .recursive q ∧ Recurs procedures q := by
  induction fuel generalizing active done id with
  | zero =>
    -- the active procedures are distinct, so the fuel outlasts every chain of them
    have hlength := hchain.length_le
    omega
  | succ fuel ih =>
    simp only [search, List.contains_iff_mem] at h
    split at h
    · cases h
    split at h
    · rename_i hactive
      exact ⟨id, (Except.error.inj h).symm, hchain.leads id hactive⟩
    · rename_i hnew
      cases hfold : (calls procedures id).foldlM (search (calls procedures) fuel (id :: active))
          done with
      | ok done' =>
        rw [hfold] at h
        cases h
      | error e =>
        rw [hfold] at h
        obtain rfl : e = cause := Except.error.inj h
        -- the failure is that of a call, which makes the chain longer by one
        obtain ⟨c, hc, done', hsearch⟩ := foldlM_eq_error hfold
        have hinvokes := mem_calls.mp hc
        refine ih (hchain.call hid hnew hinvokes) (hknown id c hinvokes) ?_ hsearch
        rw [List.length_cons]
        omega

/-! ### Programs -/

theorem id_eq_of_placed (hplaced : procedures.map Procedure.id = List.range procedures.length)
    {i : Nat} {p : Procedure} (hp : procedures[i]? = some p) : p.id = i := by
  have hlt := (List.getElem?_eq_some_iff.mp hp).1
  have hentry : (procedures.map Procedure.id)[i]? = some p.id := by rw [List.getElem?_map, hp]; rfl
  rw [hplaced, List.getElem?_range hlt] at hentry
  exact (Option.some.inj hentry).symm

/-- Procedures at their own ids that call known ones pass the check. -/
theorem checkCallees_of_placed
    (hplaced : procedures.map Procedure.id = List.range procedures.length)
    (hknown : ∀ p ∈ procedures, ∀ c ∈ p.callees, c < procedures.length) :
    checkCallees procedures = .ok () := by
  refine forM_ok_of_forall fun ⟨p, i⟩ hmem => ?_
  have hp : procedures[i]? = some p := List.mem_zipIdx_iff_getElem?.mp hmem
  have hfind : p.callees.find? (fun q => decide (procedures.length ≤ q)) = none := by
    rw [List.find?_eq_none]
    intro c hc
    simpa using hknown p (List.mem_of_getElem? hp) c hc
  simp only [id_eq_of_placed hplaced hp, ne_eq, not_true_eq_false, ↓reduceIte, hfind]
  rfl

/-- Where calls lead to lower ranks, no procedure calls itself. -/
theorem Ranked.not_recurs {rank : Nat → Nat} (h : Ranked ⟨procedures⟩ rank) (q : Nat) :
    ¬ Recurs procedures q := by
  have hstep : ∀ {x c}, Invokes procedures x c → rank c < rank x := by
    rintro x c ⟨p, hx, hc⟩
    exact (h.callee hx hc).2
  have hdown : ∀ {x y}, Relation.TransGen (Invokes procedures) x y → rank y < rank x := by
    intro x y hpath
    induction hpath with
    | single hc => exact hstep hc
    | tail _ hc ih => exact Nat.lt_trans (hstep hc) ih
  exact fun hcycle => Nat.lt_irrefl _ (hdown hcycle)

/-- Where a list of procedures is refused though all of them are in place and all their callees
exist, a procedure that calls itself is the cause. -/
theorem ofProcedures_eq_error
    (hplaced : procedures.map Procedure.id = List.range procedures.length)
    (hknown : ∀ p ∈ procedures, ∀ c ∈ p.callees, c < procedures.length)
    (h : ofProcedures procedures = .error cause) :
    ∃ q, cause = .recursive q ∧ Recurs procedures q := by
  rw [ofProcedures, checkCallees_of_placed hplaced hknown] at h
  cases hfold : procedures.foldlM (fun done p =>
      search (calls procedures) (procedures.length + 1) [] done p.id) [] with
  | ok done =>
    rw [checkCalls, hfold] at h
    cases h
  | error e =>
    rw [checkCalls, hfold] at h
    obtain rfl : e = cause := Except.error.inj h
    obtain ⟨p, hp, done, hsearch⟩ := foldlM_eq_error hfold
    obtain ⟨i, hi⟩ := List.getElem?_of_mem hp
    have hid : p.id < procedures.length := by
      rw [id_eq_of_placed hplaced hi]
      exact (List.getElem?_eq_some_iff.mp hi).1
    refine search_eq_error ?_ (.start procedures p.id) hid (by simp) hsearch
    rintro q c ⟨caller, hq, hc⟩
    exact hknown caller (List.mem_of_getElem? hq) c hc

/-- Procedures that are in place and whose callees all exist form a program just if none of them
calls itself, directly or through others. Otherwise one that does is reported. -/
theorem ofProcedures_iff
    (hplaced : procedures.map Procedure.id = List.range procedures.length)
    (hknown : ∀ p ∈ procedures, ∀ c ∈ p.callees, c < procedures.length) :
    ((∃ program, ofProcedures procedures = .ok program) ↔ ∀ q, ¬ Recurs procedures q) ∧
      ∀ cause, ofProcedures procedures = .error cause →
        ∃ q, cause = .recursive q ∧ Recurs procedures q := by
  refine ⟨⟨?_, fun hnone => ?_⟩, fun cause => ofProcedures_eq_error hplaced hknown⟩
  · rintro ⟨program, h⟩
    obtain ⟨rank, hranked⟩ := exists_ranked h
    obtain ⟨⟨⟩, -, h⟩ := bind_eq_ok.mp h
    obtain ⟨⟨⟩, -, h⟩ := bind_eq_ok.mp h
    obtain rfl := Except.ok.inj h
    exact hranked.not_recurs
  · cases h : ofProcedures procedures with
    | ok program => exact ⟨program, rfl⟩
    | error cause =>
      obtain ⟨q, -, hrecurs⟩ := ofProcedures_eq_error hplaced hknown h
      exact absurd hrecurs (hnone q)

/-! Four procedures of one block each: the last one is called by two others, of which the second
calls itself through the third. -/

def relayDraft (id : Nat) (callees : List Nat) : Draft where
  id
  name := "relay"
  blocks := [callees.map fun c => ⟨0, some c⟩]
  edges := []
  loops := []

def relay (id : Nat) (callees : List Nat) : Procedure where
  id
  name := "relay"
  blocks := [⟨callees.map fun c => ⟨0, some c⟩, [], [], none, none⟩]
  loops := []
  order := [0]
  sinks := [0]

def relays : List Procedure :=
  [relay 0 [3, 1], relay 1 [3, 2], relay 2 [1], relay 3 []]

theorem ofProcedures_relays :
    [relayDraft 0 [3, 1], relayDraft 1 [3, 2], relayDraft 2 [1], relayDraft 3 []].mapM
      Draft.build = .ok relays ∧
    relays.map Procedure.id = List.range relays.length ∧
    (∀ p ∈ relays, ∀ c ∈ p.callees, c < relays.length) ∧
    ofProcedures relays = .error (.recursive 1) ∧ Recurs relays 1 ∧
    ¬ ∃ program, ofProcedures relays = .ok program := by
  have hplaced : relays.map Procedure.id = List.range relays.length := rfl
  have hknown : ∀ p ∈ relays, ∀ c ∈ p.callees, c < relays.length := by decide
  have hrefused : ofProcedures relays = .error (.recursive 1) := rfl
  obtain ⟨hiff, hcause⟩ := ofProcedures_iff hplaced hknown
  obtain ⟨q, hq, hrecurs⟩ := hcause _ hrefused
  obtain rfl := ProgramError.recursive.inj hq
  exact ⟨rfl, hplaced, hknown, hrefused, hrecurs, fun hok => hiff.mp hok 1 hrecurs⟩

end CycleBounds.Code.Program
