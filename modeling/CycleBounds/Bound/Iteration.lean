import CycleBounds.Bound.Engine

/-!
# Loops by their iterations

A loop is unrolled, every iteration being followed, or summarised: one first and one steady
iteration are followed from time zero and the others are taken to cost as much as the latter.
-/

namespace CycleBounds.Bound.Engine

open Code (Procedure Loop)
open Cache (Place)

variable (e : Engine)

/-- How often a loop is followed: at worst, a header that is not counted by the bound runs once
more. -/
def iterations (scenario : Scenario) (loop : Loop) : Except Fault Nat :=
  if scenario = .worst ∧ ¬ loop.naturalExit then Word.add loop.bound 1 else .ok loop.bound

/-- Stamp all blocks of a loop with the same times. -/
def spread (relative : Bool) (p : Procedure) (loop : Loop) (start finish : Nat)
    (progress : Progress) : Progress :=
  loop.blocks.foldl (fun progress b => progress.stamp relative p.id b ⟨start, finish, .start⟩)
    progress

abbrev Body := (scenario : Scenario) → (relative : Bool) → Context → Stamp → Progress →
  Timed Progress

def iteration (body : Body) (scenario : Scenario) (relative : Bool) (p : Procedure) (id : Nat)
    (loop : Loop) (context : Context) (it : Iteration) (s : Stamp × Progress) :
    Timed (Stamp × Progress) := do
  let context ← context.enter it
  let progress ← body scenario relative context s.1 s.2
  let sink ← stampOf progress.times loop.sink
  assume (s.1.finish ≤ sink.finish) (.negativeLoopRuntime id p.name)
  return (sink, progress)

def unroll (body : Body) (scenario : Scenario) (relative : Bool) (p : Procedure) (id : Nat)
    (loop : Loop) (context : Context) (entry : Stamp) (progress : Progress) : Timed Progress := do
  let n ← iterations scenario loop
  let first ← iteration body scenario relative p id loop context .first (entry, progress)
  let (last, progress) ←
    Traced.iterate (iteration body scenario relative p id loop context .steady) (n - 1) first
  Traced.emit (.loopUnrolled id p.name context entry.finish last.finish)
  return progress.stamp relative p.id loop.header { last with start := entry.finish }

/-- The cost of one iteration from time zero: up to the last block at worst, up to the sink at
best. -/
def relativeCost (body : Body) (scenario : Scenario) (loop : Loop) (context : Context)
    (ledger : Ledger) : Timed (Nat × Ledger) := do
  let progress ← body scenario true context (.moment 0) { times := ∅, ledger }
  let cost ← match scenario with
    | .worst => pure ((progress.times.values.map (·.finish)).foldl max 0)
    | .best => do pure (← stampOf progress.times loop.sink).finish
  return (cost, progress.ledger)

/-- The costs of a first and of a steady iteration, computed once per place. -/
def summary (body : Body) (scenario : Scenario) (p : Procedure) (loop : Loop) (context : Context)
    (ledger : Ledger) : Timed ((Nat × Nat) × Ledger) := do
  let place : Place := { procedure := p.id, block := loop.header, context }
  match ledger.summaries.get? place with
  | some costs => return (costs, ledger)
  | none =>
    let (first, ledger) ← relativeCost body scenario loop (← context.enter .first) ledger
    let (steady, ledger) ← relativeCost body scenario loop (← context.enter .steady) ledger
    let costs := (first, steady)
    return (costs, { ledger with summaries := ledger.summaries.insert place costs })

/-- The time from a moment to the end of its round. -/
def restOfRound (time interval : Nat) : Nat :=
  if interval = 0 ∨ time % interval = 0 then 0 else interval - time % interval

/-- The cost of a loop from the costs of its iterations. At worst, the loop waits for a whole round
before and after its first iteration, and every later one ends with its round. -/
def extrapolate (scenario : Scenario) (interval first steady rest : Nat) : Except Fault Nat :=
  match scenario with
  | .worst => do
    let start ← Word.add interval first
    let start ← Word.add start interval
    let rounds ← Word.add steady (restOfRound steady interval)
    Word.add start (← Word.mul rounds rest)
  | .best => do
    Word.add first (← Word.mul steady rest)

def summarize (body : Body) (scenario : Scenario) (relative : Bool) (p : Procedure) (id : Nat)
    (loop : Loop) (context : Context) (start : Nat) (progress : Progress) : Timed Progress := do
  let ((first, steady), ledger) ← summary body scenario p loop context progress.ledger
  let rest ← Word.sub (← iterations scenario loop) 1
  let interval := (e.platform.bus.timed?.map (·.interval)).getD 0
  let cost ← extrapolate scenario interval first steady rest
  Traced.emit (.loopSummarized scenario id p.name context first steady cost)
  let finish ← Word.add start cost
  return spread relative p loop start finish { progress with ledger }

end CycleBounds.Bound.Engine
