import CycleBounds.Bound.Exploration

/-!
# Bounds on execution times

`loopAt` supplies what inner loops do, for bodies that nest loops at most so deep, and
`procedureAt` what calls do, for call chains of at most a given length. `trace` bounds the time of
a procedure from a start and stamps all blocks on the way; `analyze` gives the bound only.
-/

namespace CycleBounds.Bound.Engine

open Code (Procedure Loop)

variable (e : Engine)

def loop (body : Body) (scenario : Scenario) (relative : Bool) (p : Procedure) (id : Nat)
    (l : Loop) (context : Context) (entry : Stamp) (progress : Progress) : Timed Progress :=
  match e.platform.loops, e.platform.bus.timed? with
  | .summarize, _ => e.summarize body scenario relative p id l context entry.finish progress
  | .offsets, some s => e.byOffsets body s scenario relative p id l context entry progress
  | _, _ => unroll body scenario relative p id l context entry progress

/-- Time a loop in which at most `n - 1` further loops are nested. -/
def loopAt (call : Call) (p : Procedure) : (n : Nat) → Inner
  | 0 => fun _ _ _ _ _ _ => Traced.ofExcept (.error (.fault (.defect .nestingTooDeep)))
  | n + 1 => fun scenario relative id context entry progress => do
    let l ← p.loop id
    if l.bound = 0 then
      Traced.emit (.loopNotTimed id p.name)
      return spread relative p l entry.finish entry.finish progress
    else
      let body : Body := fun scenario relative context =>
        e.region call (loopAt call p n) scenario relative p (some id) context l.order
      e.loop body scenario relative p id l context entry progress

/-! ### Procedures -/

/-- When a procedure finishes: with the last (at worst) or the first (at best) of its sinks. -/
def exitTime (scenario : Scenario) (p : Procedure) (times : Table Nat Stamp) :
    Except Fault Nat :=
  match (p.sinks.filterMap times.get?).map (·.finish) with
  | [] => .error (.defect (.noSinkReached p.name))
  | f :: rest => .ok (rest.foldl (fun a b => if scenario.exceeds b a then b else a) f)

/-- Time a call at the start of a chain of at most `n` calls. The callee itself is never relative:
it is timed as if it started at the given time. -/
def procedureAt : (n : Nat) → Call
  | 0 => fun _ _ _ _ _ => Traced.ofExcept (.error (.fault (.defect .callsTooDeep)))
  | n + 1 => fun scenario relative id start ledger => do
    let p ← e.program.procedure id
    let call := procedureAt n
    let inner := e.loopAt call p p.loops.length
    let progress ← e.region call inner scenario false p none .root p.order (.moment start)
      { times := ∅, ledger }
    let finish ← exitTime scenario p progress.times
    assume (start ≤ finish) (.negativeRuntime p.name)
    let timing := { start, finish, cost := finish - start : Timing }
    Traced.emit (.procedureTimed scenario p.name id start timing.cost)
    let ledger := progress.ledger
    if relative then
      return (timing, ledger)
    else
      return (timing, { ledger with procedures := ledger.procedures.insert id timing })

/-- Bound the time of a procedure from a start, and stamp all blocks on the way. -/
def trace (entry start : Nat) (scenario : Scenario) : Timed (Timing × Ledger) :=
  e.procedureAt (e.program.procedures.length + 1) scenario false entry start .empty

def analyze (entry start : Nat) (scenario : Scenario) : Timed Timing := do
  let (timing, _) ← e.trace entry start scenario
  return timing

end CycleBounds.Bound.Engine
