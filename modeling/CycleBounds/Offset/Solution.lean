import CycleBounds.Text.Quoted

/-!
# Solutions of offset graphs

What a solver answers: the optimal value, with or without the walk that has it, or the cause why
there is no answer.
-/

namespace CycleBounds.Offset

/-- How often a walk uses every edge and visits every node. -/
structure Flow where
  edges : List Nat
  nodes : List Nat
deriving DecidableEq, Repr

def countsText (counts : List Nat) : String :=
  "[" ++ ", ".intercalate (counts.map toString) ++ "]"

def Flow.text (f : Flow) : String :=
  s!"Flow \x7b edges: {countsText f.edges}, nodes: {countsText f.nodes} \x7d"

structure Solution where
  value : Nat
  flow : Option Flow
deriving DecidableEq, Repr

inductive SolverError where
  | unwritable
  | notStarted (program : String)
  | timeout
  | infeasible
  | unbounded
  | noSolution
  | erroneous
  | unavailable (status : Option Nat)
  | malformed (output : String)
deriving DecidableEq, Repr

def SolverError.message : SolverError → String
  | .unwritable => "failed to write the integer program"
  | .notStarted program => s!"failed to run the solver {program}"
  | .timeout => "the solver timed out"
  | .infeasible => "the integer program is infeasible"
  | .unbounded => "the integer program is unbounded"
  | .noSolution => "the solver found no solution"
  | .erroneous => "the solver rejected the integer program as erroneous"
  | .unavailable (some status) => s!"the solver failed with exit status Some({status})"
  | .unavailable none => "the solver failed with exit status None"
  | .malformed output => s!"unexpected solver output: {Text.quote output}"

end CycleBounds.Offset
