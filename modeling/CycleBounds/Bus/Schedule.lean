import CycleBounds.Word

/-!
# Buses

The bus between a core and the level of the hierarchy that serves its misses is not shared at all,
shared by a time-division schedule, or shared in a way that is not modelled.

In every round of `interval` cycles each core owns one slot of the bus. A core starts a transfer
only if it completes within a slot of its own, so the cost of a transfer depends on when it is
issued: `Schedule.delay` is the time until it completes.
-/

namespace CycleBounds.Bus

inductive ScheduleError where
  | noCores
  | emptySlot
  | slotOutsideInterval (core start interval : Nat)
  | slotTooShort (slot latency : Nat)
deriving DecidableEq, Repr

def ScheduleError.message : ScheduleError → String
  | .noCores => "a TDMA schedule needs at least one core"
  | .emptySlot => "TDMA slots must not be empty"
  | .slotOutsideInterval core start interval =>
    s!"slot of core {core} starting at {start} does not fit in the interval {interval}"
  | .slotTooShort slot latency =>
    s!"a transfer of {latency} cycles does not fit in a slot of {slot} cycles"

/-- One slot of `slot` cycles per core and round; the slot of core `i` starts at `starts[i]`. -/
structure Schedule where
  slot : Nat
  interval : Nat
  starts : List Nat
  slot_pos : 0 < slot
  starts_ne_nil : starts ≠ []
  slot_fits : ∀ s ∈ starts, s + slot ≤ interval

namespace Schedule

/-- Check that every slot ends within the round, `core` being the first core looked at. -/
def checkStarts (slot interval : Nat) : (core : Nat) → (starts : List Nat) →
    Except (Failure ScheduleError) (PLift (∀ s ∈ starts, s + slot ≤ interval))
  | _, [] => .ok ⟨by simp⟩
  | core, start :: rest => do
    let _ ← Word.add start slot
    if h : start + slot ≤ interval then
      let ⟨hrest⟩ ← checkStarts slot interval (core + 1) rest
      return ⟨by simpa [h] using hrest⟩
    else
      refuse (.slotOutsideInterval core start interval)

def ofStarts (slot interval : Nat) (starts : List Nat) :
    Except (Failure ScheduleError) Schedule :=
  if hs : starts = [] then
    refuse .noCores
  else if hp : 0 < slot then do
    let ⟨hf⟩ ← checkStarts slot interval 0 starts
    return { slot, interval, starts, slot_pos := hp, starts_ne_nil := hs, slot_fits := hf }
  else
    refuse .emptySlot

/-- Slots of one length, given to the cores in turn. -/
def roundRobin (cores slot : Nat) : Except (Failure ScheduleError) Schedule := do
  let interval ← Word.mul cores slot
  ofStarts slot interval ((List.range cores).map (· * slot))

def cores (s : Schedule) : Nat := s.starts.length

def slotStart (s : Schedule) (core : Nat) : Except Fault Nat :=
  entryAt s.starts core

def checkTransfer (s : Schedule) (latency : Nat) : Except ScheduleError Unit :=
  if s.slot < latency then .error (.slotTooShort s.slot latency) else .ok ()

/-- How far a time lies behind the start of the core's latest slot. -/
def offset (s : Schedule) (core time : Nat) : Except Fault Nat := do
  let start ← s.slotStart core
  let shifted ← Word.add (time % s.interval) s.interval
  let ahead ← Word.sub shifted (start % s.interval)
  return ahead % s.interval

/-- The time from issuing a transfer until it completes: at once if it still fits into the slot,
and otherwise in the core's slot of the next round. -/
def delay (s : Schedule) (core time latency : Nat) : Except Fault Nat := do
  let offset ← s.offset core time
  let finish ← Word.add offset latency
  if finish ≤ s.slot then
    return latency
  else
    let wait ← Word.sub s.interval offset
    Word.add wait latency

/-- A bound on the delay of a transfer issued at an unknown time. -/
def worstDelay (s : Schedule) (latency : Nat) : Except Fault Nat := do
  let others ← Word.sub s.cores 1
  let rounds ← Word.mul others s.interval
  let twice ← Word.mul 2 latency
  Word.add rounds twice

end Schedule

end CycleBounds.Bus

/-! ### Buses -/

namespace CycleBounds

inductive Bus where
  /-- A transfer takes its latency. -/
  | unshared
  /-- A transfer waits for the core's slot. -/
  | scheduled (schedule : Bus.Schedule)
  /-- The arbitration is unknown, only the schedule's lengths are. -/
  | unmodeled (schedule : Bus.Schedule)

namespace Bus

def schedule? : Bus → Option Schedule
  | .unshared => none
  | .scheduled s => some s
  | .unmodeled s => some s

/-- The schedule, if the issue time of a transfer matters. -/
def timed? : Bus → Option Schedule
  | .scheduled s => some s
  | _ => none

/-- The cost of a transfer issued by a core at a time. -/
def delay (bus : Bus) (scenario : Scenario) (core time latency : Nat) : Except Fault Nat :=
  match bus, scenario with
  | .unshared, _ => .ok latency
  | .unmodeled _, .best => .ok latency
  | .unmodeled s, .worst => s.worstDelay latency
  | .scheduled s, _ => s.delay core time latency

end Bus

end CycleBounds
