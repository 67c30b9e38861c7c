import CycleBounds.Cache.Classification
import CycleBounds.Cache.State
import CycleBounds.Code.Program
import CycleBounds.Traced

/-!
# Analysis of one cache level

The states of a level are followed through a program, block by block in topological order, and
every fetch is classified by the state in which it happens. A loop is passed once for its first
iteration; its steady iterations start from a state that is joined with their own end until it does
not change any more.

The analysis is put together from parts that each leave one thing open:

* `block` follows the instructions of a block, given what a call does;
* `region` follows the blocks of a body, given what a call and an inner loop do;
* `loopAt` closes the second gap for bodies that nest loops at most so deep;
* `procedureAt` closes the first gap for call chains of at most a given length.

`Level.analyze` starts the whole with an empty cache.
-/

namespace CycleBounds.Cache.Level

open Code (Program Procedure Instruction)

/-- What is analysed: a program on one level, below a level that is classified already if there is
one. -/
structure Subject where
  program : Program
  config : Config
  upper : Option Classification

structure Findings where
  records : Classification
  footprint : Footprint

/-- The findings, and the states in which the blocks of the procedure at hand end. -/
structure Pass where
  findings : Findings
  out : Table Nat State

/-- What a call does: the state in which it returns. Findings are recorded only if asked for. -/
abbrev Call := (recording : Bool) → (procedure : Nat) → State → Findings →
  Traced Fault (State × Findings)

/-- What an inner loop does when it is entered in a state. -/
abbrev Inner := (recording : Bool) → (loop : Nat) → Context → State → Pass → Traced Fault Pass

/-! ### Blocks -/

/-- The class of a fetch and the state after it, given its class at the level above. A fetch that
hits above does not arrive, one that misses above does, and any other one may. -/
def fetch (c : Config) (above : Option Access) (s : State) (address : Nat) : Access × State :=
  match above with
  | none => (s.classify c address, s.access c address)
  | some .alwaysMiss => (s.classify c address, s.access c address)
  | some .hitUpper => (.hitUpper, s)
  | some (.alwaysHit _) => (.hitUpper, s)
  | some .firstMiss => (s.classify c address, s.accessMaybe c address)
  | some .unknown => (s.classify c address, s.accessMaybe c address)

def withUpper (upper : Option Classification) (place : Place) (instructions : List Instruction) :
    List (Instruction × Option Access) :=
  match upper with
  | none => instructions.map fun i => (i, none)
  | some k => (k.classified place instructions).map fun (i, a) => (i, some a)

/-- The state inside a block, and the fetches so far, latest first. -/
structure Progress where
  state : State
  findings : Findings
  fetched : List Fetch

/-- Follow one instruction and, if it is a call, the called procedure. -/
def instruction (c : Config) (call : Call) (recording : Bool) (p : Progress)
    (i : Instruction × Option Access) : Traced Fault Progress := do
  let line := c.line i.1.address
  let (access, state) := fetch c i.2 p.state i.1.address
  let findings :=
    if recording ∧ access ≠ .hitUpper then
      { p.findings with footprint := p.findings.footprint.record (c.setOf line) line }
    else
      p.findings
  let fetched := { line, access } :: p.fetched
  match i.1.callee with
  | none => return { state, findings, fetched }
  | some q =>
    let (returned, findings) ← call recording q state findings
    return { state := returned.join state, findings, fetched }

def block (subject : Subject) (call : Call) (recording : Bool) (p : Procedure) (b : Nat)
    (context : Context) (s : State) (findings : Findings) : Traced Fault (State × Findings) := do
  let instructions := (← p.block b).instructions
  let place := { procedure := p.id, block := b, context }
  let progress ← (withUpper subject.upper place instructions).foldlM
    (instruction subject.config call recording) { state := s, findings, fetched := [] }
  if recording then
    let fetches := progress.fetched.reverse
    Traced.emit (.blockClassified p.name b context fetches)
    let records ← progress.findings.records.record place fetches
    return (progress.state, { progress.findings with records })
  else
    return (progress.state, progress.findings)

/-! ### Bodies -/

def stateAfter (out : Table Nat State) (b : Nat) : Except Fault State :=
  match out.get? b with
  | some s => .ok s
  | none => .error (.defect (.noState b))

/-- The state in which a block starts: the join over the predecessors followed so far. -/
def stateBefore (p : Procedure) (out : Table Nat State) (b : Nat) : Except Fault State := do
  match (← p.block b).preds.filterMap out.get? with
  | [] => .error (.defect (.noAnalysedPredecessor b p.name))
  | s :: rest => return rest.foldl State.join s

/-- Follow one block of a body, or the inner loop that it is the header of. -/
def visit (subject : Subject) (call : Call) (inner : Inner) (recording : Bool) (p : Procedure)
    (current : Option Nat) (context : Context) (b : Nat) (s : State) (pass : Pass) :
    Traced Fault Pass := do
  match (← p.block b).headerOf.filter fun l => some l ≠ current with
  | some l => inner recording l context s pass
  | none =>
    let (after, findings) ← block subject call recording p b context s pass.findings
    return { findings, out := pass.out.insert b after }

/-- Follow the blocks of a body, of which `current` is the loop, from a state before the first. -/
def region (subject : Subject) (call : Call) (inner : Inner) (recording : Bool) (p : Procedure)
    (current : Option Nat) (context : Context) : (order : List Nat) → State → Pass →
    Traced Fault Pass
  | [], _, pass => return pass
  | b :: rest, s, pass => do
    let pass ← visit subject call inner recording p current context b s pass
    rest.foldlM (fun pass b => do
      let s ← stateBefore p pass.out b
      visit subject call inner recording p current context b s pass) pass

/-! ### Loops -/

/-- States of a program grow at most so often: every line can change its age, appear or disappear
in each domain once per age. -/
def longestChain (subject : Subject) : Nat :=
  let lines := (subject.program.procedures.flatMap fun p =>
    p.blocks.flatMap (·.instructions)).length
  lines * (3 * subject.config.ways + 1)

/-- Repeat a body from a state joined with its own end until that changes nothing. The result has
the state and the number of rounds. -/
def settle (run : State → Pass → Traced Fault Pass) (sink : Nat) (unstable : Defect) :
    (fuel rounds : Nat) → State → Pass → Traced Fault (State × Nat × Pass)
  | 0, _, _, _ => Traced.ofExcept (.error (.defect unstable))
  | fuel + 1, rounds, head, pass => do
    let pass ← run head pass
    let next := head.join (← stateAfter pass.out sink)
    if next = head then
      return (head, rounds + 1, pass)
    else
      settle run sink unstable fuel (rounds + 1) next pass

/-- Every block of a loop ends in the same state. -/
def spread (blocks : List Nat) (s : State) (out : Table Nat State) : Table Nat State :=
  blocks.foldl (fun out b => out.insert b s) out

/-- A block may have run last in the first or in a steady iteration. -/
def joinPasses (first : List (Nat × State)) (out : Table Nat State) :
    Except Fault (Table Nat State) :=
  first.foldlM (fun out (b, s) => do
    let t ← stateAfter out b
    return out.insert b (s.join t)) out

/-- Follow a loop in which at most `n - 1` further loops are nested. -/
def loopAt (subject : Subject) (call : Call) (p : Procedure) : (n : Nat) → Inner
  | 0 => fun _ _ _ _ _ => Traced.ofExcept (.error (.defect .nestingTooDeep))
  | n + 1 => fun recording id context entry pass => do
    let loop ← p.loop id
    if loop.bound = 0 then
      Traced.emit (.loopPassed id p.name)
      return { pass with out := spread loop.blocks entry pass.out }
    else
      let body := fun recording context =>
        region subject call (loopAt subject call p n) recording p (some id) context loop.order
      let first ← context.enter .first
      let steady ← context.enter .steady
      let pass ← body recording first entry pass
      let ends := loop.blocks.filterMap fun b => (pass.out.get? b).map fun s => (b, s)
      let head ← stateAfter pass.out loop.sink
      let (head, rounds, pass) ← settle (body false steady) loop.sink (.neverStable id p.name)
        (longestChain subject + 1) 0 head pass
      Traced.emit (.loopStable id p.name rounds)
      let pass ← if recording then body true steady head pass else pure pass
      let out ← joinPasses ends pass.out
      return { pass with out }

/-! ### Procedures -/

/-- The state in which a procedure returns: the join over the blocks through which it is left. -/
def exitState (p : Procedure) (entry : State) (out : Table Nat State) : State :=
  match p.sinks.filterMap out.get? with
  | [] => entry
  | s :: rest => rest.foldl State.join s

/-- Follow a call at the start of a chain of at most `n` calls. -/
def procedureAt (subject : Subject) : (n : Nat) → Call
  | 0 => fun _ _ _ _ => Traced.ofExcept (.error (.defect .callsTooDeep))
  | n + 1 => fun recording id entry findings => do
    let p ← subject.program.procedure id
    let call := procedureAt subject n
    let inner := loopAt subject call p p.loops.length
    let pass ← region subject call inner recording p none .root p.order entry
      { findings, out := ∅ }
    return (exitState p entry pass.out, pass.findings)

structure Result where
  classification : Classification
  /-- The lines fetched at the level. -/
  footprint : Footprint
  /-- The state in which the entry procedure returns. -/
  exit : State

/-- Classify all fetches of a program that starts in a procedure with an empty cache. -/
def analyze (program : Program) (entry : Nat) (config : Config) (upper : Option Classification) :
    Traced Fault Result := do
  let subject := { program, config, upper : Subject }
  let (exit, findings) ← procedureAt subject (program.procedures.length + 1) true entry .empty
    { records := .empty config, footprint := .empty }
  let name := (← program.procedure entry).name
  Traced.emit (.levelClassified name entry findings.records.records.size
    findings.footprint.usedSets.length)
  return { classification := findings.records, footprint := findings.footprint, exit }

end CycleBounds.Cache.Level
