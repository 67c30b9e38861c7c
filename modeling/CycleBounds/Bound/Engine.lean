import CycleBounds.Bound.Platform
import CycleBounds.Bound.Stamp

/-!
# Blocks and bodies in time

A program is timed by following its blocks in topological order. A block starts when its last
predecessor (at worst) or its first one (at best) finishes, and costs the fetches of its
instructions, as their classes and the bus have it, the fixed cost of every instruction, and the
procedures it calls.

What a call and an inner loop do is left open here: `block` and `region` are given a `Call` and an
`Inner`, which `CycleBounds.Bound.Trace` supplies.

A run is *relative* while an iteration is timed from zero, at an unknown alignment to the slots of
the bus.
-/

namespace CycleBounds.Bound

open Code (Program Procedure Instruction)
open Cache (Access Analysis Place)

/-- A program on one core of a platform. -/
structure Engine where
  program : Program
  analysis : Analysis
  platform : Platform
  solver : Offset.Solver
  core : Nat

namespace Engine

/-- A result of the timing, the cause why there is none, and what was reported on the way. -/
abbrev Timed := Traced (Failure TimingError)

/-- What a call does: the time it takes from a start. -/
abbrev Call := (scenario : Scenario) → (relative : Bool) → (procedure start : Nat) → Ledger →
  Timed (Timing × Ledger)

/-- What an inner loop does when it is entered after a stamp. -/
abbrev Inner := (scenario : Scenario) → (relative : Bool) → (loop : Nat) → Context → Stamp →
  Progress → Timed Progress

def onCore (e : Engine) (core : Nat) : Except Fault Engine :=
  match e.platform.bus.schedule? with
  | some s =>
    if core < s.cores then .ok { e with core } else .error (.defect (.coreNotScheduled core))
  | none => .ok { e with core }

/-! ### Fetches -/

inductive Source where
  | l1
  | l2
  | memory
deriving DecidableEq, Repr

def hits (scenario : Scenario) (context : Context) (a : Access) : Bool :=
  match scenario with
  | .worst => a.isHit ∨ (a = .firstMiss ∧ context.innermost? = some .steady)
  | .best => a ≠ .alwaysMiss

def source (scenario : Scenario) (context : Context) (l1 : Access) (l2 : Option Access) : Source :=
  if hits scenario context l1 then .l1
  else if l2.any (hits scenario context) then .l2
  else .memory

variable (e : Engine)

/-- The cost of a transfer over the bus, and the transfer that matters for what follows. -/
def transfer (scenario : Scenario) (relative : Bool) (time latency : Nat) (bus : Bus.Tracker) :
    Traced Fault (Nat × Bus.Tracker) :=
  match relative, e.platform.bus.timed?, scenario with
  | true, some s, .worst => bus.delay s time latency
  | true, some _, .best => return (latency, bus)
  | _, _, _ => do
    let d ← e.platform.bus.delay scenario e.core time latency
    return (d, bus)

def fetch (scenario : Scenario) (relative : Bool) (source : Source) (time : Nat)
    (bus : Bus.Tracker) : Traced Fault (Nat × Bus.Tracker) :=
  match source with
  | .l1 => return (e.platform.hierarchy.l1.hitLatency, bus)
  | .l2 => e.transfer scenario relative time e.platform.hierarchy.l2HitLatency bus
  | .memory => e.transfer scenario relative time e.platform.hierarchy.missPenalty bus

/-! ### Blocks -/

/-- The instructions of a block with the levels that serve their fetches. -/
def sources (scenario : Scenario) (place : Place) (instructions : List Instruction) :
    List (Instruction × Source) :=
  let l1 := e.analysis.l1.classified place instructions
  match e.analysis.l2 with
  | none => l1.map fun (i, a) => (i, source scenario place.context a none)
  | some k =>
    (k.classified place l1).map fun ((i, a), b) => (i, source scenario place.context a (some b))

structure Account where
  cost : Nat
  bus : Bus.Tracker
  ledger : Ledger

/-- Charge one instruction and, if it is a call, the called procedure. -/
def charge (call : Call) (scenario : Scenario) (relative : Bool) (p : Procedure) (b start : Nat)
    (a : Account) (i : Instruction × Source) : Timed Account := do
  let time ← Word.add start a.cost
  let (delay, bus) ← e.fetch scenario relative i.2 time a.bus
  let cost ← Word.add a.cost delay
  let cost ← Word.add cost (e.platform.instrCost scenario)
  match i.1.callee with
  | none => return { cost, bus, ledger := a.ledger }
  | some q =>
    let time ← Word.add start cost
    let (timing, ledger) ← call scenario relative q time a.ledger
    let cost ← Word.add cost timing.cost
    Traced.emit (.callTimed p.name b (← e.program.procedure q).name timing.cost)
    return { cost, bus, ledger }

def block (call : Call) (scenario : Scenario) (relative : Bool) (p : Procedure) (b : Nat)
    (context : Context) (start : Nat) (bus : Bus.Tracker) (ledger : Ledger) :
    Timed (Stamp × Ledger) := do
  let instructions := (← p.block b).instructions
  let place := { procedure := p.id, block := b, context }
  let a ← (e.sources scenario place instructions).foldlM
    (e.charge call scenario relative p b start) { cost := 0, bus, ledger }
  Traced.emit (.blockTimed p.name b context start a.cost)
  let finish ← Word.add start a.cost
  return ({ start, finish, bus := a.bus }, a.ledger)

/-! ### Bodies -/

def stampOf (times : Table Nat Stamp) (b : Nat) : Except Fault Stamp :=
  match times.get? b with
  | some s => .ok s
  | none => .error (.defect .noStamp)

/-- The stamp after which a block starts: the last one (at worst) or the first one (at best) of the
predecessors timed so far. Of several the first predecessor counts. -/
def stampBefore (scenario : Scenario) (p : Procedure) (times : Table Nat Stamp) (b : Nat) :
    Except Fault Stamp := do
  match (← p.block b).preds.filterMap times.get? with
  | [] => .error (.defect (.noTimedPredecessor b p.name))
  | s :: rest =>
    return rest.foldl (fun t u => if scenario.exceeds u.finish t.finish then u else t) s

/-- Time one block of a body, or the inner loop that it is the header of. -/
def visit (call : Call) (inner : Inner) (scenario : Scenario) (relative : Bool) (p : Procedure)
    (current : Option Nat) (context : Context) (b : Nat) (before : Stamp) (progress : Progress) :
    Timed Progress := do
  match (← p.block b).headerOf.filter fun l => some l ≠ current with
  | some l => inner scenario relative l context before progress
  | none =>
    let (stamp, ledger) ← e.block call scenario relative p b context before.finish before.bus
      progress.ledger
    return { progress with ledger }.stamp relative p.id b stamp

/-- Time the blocks of a body, of which `current` is the loop, after a stamp. -/
def region (call : Call) (inner : Inner) (scenario : Scenario) (relative : Bool) (p : Procedure)
    (current : Option Nat) (context : Context) : (order : List Nat) → Stamp → Progress →
    Timed Progress
  | [], _, progress => return progress
  | b :: rest, before, progress => do
    let progress ← e.visit call inner scenario relative p current context b before progress
    rest.foldlM (fun progress b => do
      let before ← stampBefore scenario p progress.times b
      e.visit call inner scenario relative p current context b before progress) progress

end Engine

end CycleBounds.Bound
