import CycleBounds.Code.Procedure

/-!
# Programs

A program is a list of procedures, each stored at the position that is its name, whose calls lead to
procedures of the list and never back to a procedure that has not returned yet.
-/

namespace CycleBounds.Code

structure Program where
  procedures : List Procedure
deriving DecidableEq, Repr

namespace Program

def procedure (p : Program) (id : Nat) : Except Fault Procedure :=
  entryAt p.procedures id

def calls (procedures : List Procedure) (id : Nat) : List Nat :=
  (procedures[id]?.map Procedure.callees).getD []

/-- Search the calls of a procedure depth first for one that is active already. The result lists the
procedures from which no such call can be reached; `fuel` bounds the length of a call chain. -/
def search (calls : Nat → List Nat) : (fuel : Nat) → (active done : List Nat) → (id : Nat) →
    Except ProgramError (List Nat)
  | 0, _, _, id => .error (.recursive id)
  | fuel + 1, active, done, id =>
    if done.contains id then .ok done
    else if active.contains id then .error (.recursive id)
    else do
      let done ← (calls id).foldlM (search calls fuel (id :: active)) done
      return id :: done

/-- Every procedure is at its position and calls known procedures. -/
def checkCallees (procedures : List Procedure) : Except ProgramError Unit :=
  procedures.zipIdx.forM fun (p, i) => do
    if p.id ≠ i then
      throw (.misplaced p.id)
    match p.callees.find? fun q => procedures.length ≤ q with
    | some q => throw (.unknownCallee p.id q)
    | none => pure ()

/-- No chain of calls returns to a procedure. A chain without repetition is at most as long as the
list of procedures, which bounds the search. -/
def checkCalls (procedures : List Procedure) : Except ProgramError Unit := do
  let _ ← procedures.foldlM (fun done p =>
    search (calls procedures) (procedures.length + 1) [] done p.id) []

def ofProcedures (procedures : List Procedure) : Except ProgramError Program := do
  checkCallees procedures
  checkCalls procedures
  return { procedures }

end Program

end CycleBounds.Code
