import CycleBounds.Bus.Schedule
import CycleBounds.Cache.Hierarchy

/-!
# Platforms

The hardware that a program is timed on, and how its loops are treated.
-/

namespace CycleBounds.Bound

inductive LoopTreatment where
  /-- Follow every iteration. -/
  | unroll
  /-- Follow one first and one steady iteration from time zero and extrapolate. -/
  | summarize
  /-- Explore the offsets at which steady iterations start, and bound walks through them. Without
  a schedule there are no offsets, and loops are unrolled. -/
  | offsets
deriving DecidableEq, Repr

structure Platform where
  hierarchy : Cache.Hierarchy
  bus : Bus
  /-- The cost of an instruction beyond its fetch, at best. -/
  instrBcet : Nat
  /-- The cost of an instruction beyond its fetch, at worst. -/
  instrWcet : Nat
  loops : LoopTreatment
  /-- Tasks are timed by themselves, without releases and precedence. -/
  independent : Bool
  /-- On a scheduled bus, every transfer fits into a slot. -/
  transfers_fit : ∀ s, bus.timed? = some s →
    hierarchy.l2HitLatency ≤ s.slot ∧ hierarchy.missPenalty ≤ s.slot
  instr_ordered : instrBcet ≤ instrWcet

namespace Platform

theorem le_slot_of_checkTransfer {s : Bus.Schedule} {latency : Nat}
    (h : s.checkTransfer latency = .ok ()) : latency ≤ s.slot := by
  unfold Bus.Schedule.checkTransfer at h
  split at h
  · cases h
  · omega

/-- A platform whose instructions cost nothing beyond their fetches. -/
def make (hierarchy : Cache.Hierarchy) (bus : Bus) : Except Bus.ScheduleError Platform :=
  match hb : bus.timed? with
  | none => .ok {
      hierarchy
      bus
      instrBcet := 0
      instrWcet := 0
      loops := .unroll
      independent := false
      transfers_fit := by simp [hb]
      instr_ordered := Nat.le_refl 0 }
  | some s =>
    match h₁ : s.checkTransfer hierarchy.l2HitLatency,
      h₂ : s.checkTransfer hierarchy.missPenalty with
    | .error e, _ => .error e
    | .ok _, .error e => .error e
    | .ok _, .ok _ => .ok {
        hierarchy
        bus
        instrBcet := 0
        instrWcet := 0
        loops := .unroll
        independent := false
        transfers_fit := by
          intro t ht
          rw [hb] at ht
          cases ht
          exact ⟨le_slot_of_checkTransfer h₁, le_slot_of_checkTransfer h₂⟩
        instr_ordered := Nat.le_refl 0 }

def withInstrCost (p : Platform) (bcet wcet : Nat) : Except Fault Platform :=
  if h : bcet ≤ wcet then
    .ok { p with instrBcet := bcet, instrWcet := wcet, instr_ordered := h }
  else
    .error (.defect .instructionCosts)

def withLoops (p : Platform) (loops : LoopTreatment) : Platform :=
  { p with loops }

def withIndependentTasks (p : Platform) (independent : Bool) : Platform :=
  { p with independent }

def instrCost (p : Platform) : Scenario → Nat
  | .best => p.instrBcet
  | .worst => p.instrWcet

end Platform

end CycleBounds.Bound
