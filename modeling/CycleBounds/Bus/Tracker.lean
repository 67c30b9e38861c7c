import CycleBounds.Bus.Schedule
import CycleBounds.Traced

/-!
# Transfers at an unknown alignment

When an iteration is timed from zero, the position of the slots is unknown, and the delay of a
transfer is bounded relative to the transfer before it. A transfer that fits into what is left of a
slot granted since takes its latency; any other one waits for the slot of a later round. The first
transfer meets the worst alignment.
-/

namespace CycleBounds.Bus

structure Transfer where
  finish : Nat
  latency : Nat
deriving DecidableEq, Repr

/-- The latest transfer that had to wait, if there was one. -/
structure Tracker where
  latest : Option Transfer
deriving DecidableEq, Repr

namespace Tracker

def start : Tracker := ⟨none⟩

instance : Inhabited Tracker := ⟨start⟩

def firstDelay (s : Schedule) (time latency : Nat) : Except Fault (Nat × Tracker) := do
  let finish ← Word.add time latency
  let wait ← Word.sub s.interval s.slot
  let delay ← Word.add wait latency
  return (delay, ⟨some { finish, latency }⟩)

/-- The delay of a transfer after `prev`, and the latest transfer that had to wait. -/
def nextDelay (s : Schedule) (prev : Transfer) (time latency : Nat) :
    Except Fault (Nat × Tracker) := do
  let gap := time - prev.finish
  let span ← Word.add gap latency
  if span < s.slot then
    return (latency, ⟨some prev⟩)
  else
    let back ← Word.add gap prev.latency
    let round ← Word.add (back / s.interval) 1
    let used ← Word.add span prev.latency
    let earlier ← Word.sub round 1
    let slots ← Word.mul earlier s.cores
    let slots ← Word.add slots 1
    let granted ← Word.mul slots s.slot
    if used ≤ granted then
      -- still inside a slot granted since the transfer before
      return (latency, ⟨some prev⟩)
    else
      let rounds ← Word.mul round s.interval
      let delay ← Word.add rounds latency
      let delay ← Word.sub delay prev.latency
      let delay ← Word.sub delay gap
      let finish ← Word.add time delay
      return (delay, ⟨some { finish, latency }⟩)

/-- What the slots of the other cores explain of a delay. -/
def explained (s : Schedule) (latency : Nat) : Except Fault Nat := do
  let others ← Word.sub s.cores 1
  let slots ← Word.mul s.slot others
  let twice ← Word.mul 2 latency
  Word.add slots twice

/-- The cost of a transfer issued at a time, with a warning if the schedule does not explain it. -/
def delay (t : Tracker) (s : Schedule) (time latency : Nat) : Traced Fault (Nat × Tracker) := do
  let (delay, next) ← match t.latest with
    | none => firstDelay s time latency
    | some prev => nextDelay s prev time latency
  let bound ← explained s latency
  if bound < delay then
    Traced.emit (.longDelay delay time)
  return (delay, next)

end Tracker

end CycleBounds.Bus
