import CycleBounds.Offset.Walk
import CycleBounds.Text.Reading

/-!
# Solvers of offset graphs

An offset graph is solved by the embedded search for the best walk, or by an external program that
is given the integer program and prints the optimal value.

* `readObjective` finds the value in what such a program prints.
* `Solver.solve` asks a solver.
-/

namespace CycleBounds.Offset

def objectiveLabel : String := "Value of objective function:"

/-- The natural written in a field: a numeral, or a decimal fraction nearest to a natural of at most
64 bits. The first natural of 65 bits counts as the largest of 64. -/
def fieldValue? (field : String) : Option Nat :=
  match Text.readWord? field with
  | some n => some n
  | none =>
    match (Text.Decimal.read? field).bind Text.Decimal.natural? with
    | some n => if n ≤ Word.limit then some (min n Word.largest) else none
    | none => none

/-- The optimal value in the output of a solver: the fifth field of the first line that starts with
the label. -/
def readObjective (output : String) : Except SolverError Nat :=
  match (Text.lines output).find? fun l => (Text.trimStart l).startsWith objectiveLabel with
  | none => .error (.malformed (Text.trim output))
  | some line =>
    match (Text.fields line)[4]? with
    | none => .error (.malformed (Text.trim output))
    | some field =>
      match fieldValue? field with
      | some n => .ok n
      | none => .error (.malformed (Text.trim line))

/-- What becomes of the attempt to run an external solver. -/
inductive Attempt where
  /-- The program cannot be started. -/
  | notStarted (program : String)
  /-- The program ends, with a status unless it is killed. -/
  | ended (status : Option Nat) (output : String)
deriving DecidableEq, Repr

/-- The answer of an attempt. The status tells the causes of failure apart. -/
def Attempt.value : Attempt → Except SolverError Nat
  | .notStarted program => .error (.notStarted program)
  | .ended (some 0) output => readObjective output
  | .ended (some 1) _ => .error .timeout
  | .ended (some 2) _ => .error .infeasible
  | .ended (some 3) _ => .error .unbounded
  | .ended (some 7) _ => .error .noSolution
  | .ended (some 255) _ => .error .erroneous
  | .ended status _ => .error (.unavailable status)

inductive Solver where
  /-- The search for the best walk. -/
  | embedded
  /-- A program, given by what becomes of running it on the text of an integer program. -/
  | external (run : String → Attempt)

/-- The optimal weight of a walk that visits `units` nodes. -/
def Solver.solve (solver : Solver) (g : Graph) (o : Objective) (units : Nat) :
    Traced (Failure SolverError) Solution :=
  match solver with
  | .embedded => bestWalk g o units
  | .external run => do
    let value ← (run (g.integerProgram o units)).value
    Traced.emit (.programSolved o value)
    return { value, flow := none }

end CycleBounds.Offset
