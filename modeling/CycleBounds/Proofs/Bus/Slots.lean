import CycleBounds.Proofs.Bus.Delay
import Mathlib.Order.Bounds.Basic

/-!
# Transfers in the slots of their core

A core owns one slot in every round, and a transfer has to lie within one of its slots. The delay of
a transfer leads to the earliest time at which it can be complete, whenever it is issued. The delay
that is charged where the arbitration is unknown counts a round per other core, and so it is enough
if there is another core, or if hardly anything of a round is left beside the slot. A single core
whose rounds have idle time waits for longer.

* `completion_isLeast`: a transfer completes as early as the slots of its core allow.
* `transfers_bounded`: which schedules keep all delays below the worst one.
-/

namespace CycleBounds.Bus.Schedule

variable {s : Schedule} {core latency first : Nat}

/-! ### Slots -/

/-- In some round, the slot of a core has all of the time from `start` to `finish`. -/
def Owns (s : Schedule) (core start finish : Nat) : Prop :=
  ∃ first, s.slotStart core = .ok first ∧ ∃ round : Int,
    round * s.interval + first ≤ start ∧ finish ≤ round * s.interval + first + s.slot

/-- When a transfer can be complete that is issued at a time. -/
def completions (s : Schedule) (core time latency : Nat) : Set Nat :=
  {finish | time + latency ≤ finish ∧ s.Owns core (finish - latency) finish}

theorem exists_slotStart (hcore : core < s.cores) : ∃ first, s.slotStart core = .ok first :=
  ⟨s.starts[core], entryAt_eq_ok.mpr (List.getElem?_eq_getElem hcore)⟩

/-- The round in which a time lies, counted from the start of the core's slot. -/
theorem exists_round (hfirst : s.slotStart core = .ok first) (time : Nat) :
    ∃ round : Int, (time : Int) = round * s.interval + first + s.lag core time := by
  have hget := entryAt_eq_ok.mp hfirst
  have hfits := s.slot_fits first (List.mem_of_getElem? hget)
  have hpos := s.slot_pos
  obtain ⟨rounds, hrounds⟩ := s.exists_add_lag core time
  rw [hget, Option.getD_some, Nat.mod_eq_of_lt (by omega)] at hrounds
  refine ⟨rounds - 1, ?_⟩
  rw [Int.sub_mul, Int.one_mul]
  omega

/-- A transfer completes as early as the slots of its core allow. -/
theorem isLeast_span (hfirst : s.slotStart core = .ok first) (hlatency : latency ≤ s.slot)
    (time : Nat) :
    IsLeast (s.completions core time latency) (time + s.span core time latency) := by
  -- the round in which the transfer is issued has one slot of the core
  obtain ⟨round, hround⟩ := exists_round hfirst time
  by_cases hfits : s.lag core time + latency ≤ s.slot
  · rw [span, if_pos hfits]
    refine ⟨⟨Nat.le_refl _, first, hfirst, round, ?_, ?_⟩, fun finish hfinish => hfinish.1⟩
    · omega
    · omega
  · have hlt := s.lag_lt core time
    rw [span, if_neg hfits]
    constructor
    · refine ⟨by omega, first, hfirst, round + 1, ?_, ?_⟩
      · rw [Int.add_mul, Int.one_mul]
        omega
      · rw [Int.add_mul, Int.one_mul]
        omega
    · rintro finish ⟨hafter, first', hfirst', round', hstart, hend⟩
      obtain rfl := Except.ok.inj (hfirst.symm.trans hfirst')
      have hinterval : (0 : Int) ≤ s.interval := Int.natCast_nonneg _
      -- the slot of the round in which the transfer is issued ends too early
      have hlater : round + 1 ≤ round' := by
        by_contra hnot
        have hmul := Int.mul_le_mul_of_nonneg_right (show round' ≤ round by omega) hinterval
        omega
      have hmul := Int.mul_le_mul_of_nonneg_right hlater hinterval
      rw [Int.add_mul, Int.one_mul] at hmul
      omega

/-! ### Delays in range -/

/-- Only the place of a time in its round matters. -/
theorem delay_congr {time time' : Nat} (h : time' % s.interval = time % s.interval) :
    s.delay core time' latency = s.delay core time latency := by
  unfold delay offset
  rw [h]

/-- No number overflows if two rounds are in range. -/
theorem delay_eq_ok_span (hcore : core < s.cores) (hlatency : latency ≤ s.slot)
    (hwords : 2 * s.interval ≤ Word.limit) (time : Nat) :
    s.delay core time latency = .ok (s.span core time latency) := by
  obtain ⟨first, hfirst⟩ := exists_slotStart hcore
  have hget := entryAt_eq_ok.mp hfirst
  have hslot := s.slot_fits first (List.mem_of_getElem? hget)
  have htime := Nat.mod_lt time s.interval_pos
  have hstart := Nat.mod_lt first s.interval_pos
  have hlag := s.lag_lt core time
  have hoffset : s.offset core time = .ok (s.lag core time) := by
    refine bind_eq_ok.mpr ⟨first, hfirst, ?_⟩
    refine Word.add_bind_eq_ok.mpr ⟨by omega, ?_⟩
    refine Word.sub_bind_eq_ok.mpr ⟨by omega, ?_⟩
    rw [lag, hget]
    rfl
  refine bind_eq_ok.mpr ⟨_, hoffset, ?_⟩
  refine Word.add_bind_eq_ok.mpr ⟨by omega, ?_⟩
  rw [span]
  split
  · rfl
  · refine Word.sub_bind_eq_ok.mpr ⟨by omega, ?_⟩
    exact Word.add_eq_ok_iff.mpr ⟨by omega, rfl⟩

/-- A transfer completes at the earliest time, not before it has lasted for its latency, such that
it lies within a slot of its core. So a later and longer transfer never completes earlier, and the
delay depends on the place of a time in its round only. -/
theorem completion_isLeast (hcore : core < s.cores) (hlatency : latency ≤ s.slot) (time : Nat) :
    (2 * s.interval ≤ Word.limit → ∃ d, s.delay core time latency = .ok d) ∧
    Ensures (· = .overflow) (s.delay core time latency)
      (fun d => IsLeast (s.completions core time latency) (time + d)) ∧
    (∀ time' latency', time ≤ time' → latency ≤ latency' →
      Coupled (fun d d' => time + d ≤ time' + d') (s.delay core time latency)
        (s.delay core time' latency')) ∧
    ∀ time', time' % s.interval = time % s.interval →
      s.delay core time' latency = s.delay core time latency := by
  obtain ⟨first, hfirst⟩ := exists_slotStart hcore
  refine ⟨?_, ?_, ?_, fun time' => delay_congr⟩
  · intro hwords
    exact ⟨_, delay_eq_ok_span hcore hlatency hwords time⟩
  · apply (ensures_delay hcore).imp
    intro d hd _
    rw [delay_eq_span hd]
    exact isLeast_span hfirst hlatency time
  · intro time' latency' htime hle d d' hd hd'
    rw [delay_eq_span hd, delay_eq_span hd']
    exact s.add_span_mono htime hle

/-! Four cores that take turns. -/

def fourSlots : Schedule where
  slot := 10
  interval := 40
  starts := [0, 10, 20, 30]
  slot_pos := by decide
  starts_ne_nil := by decide
  slot_fits := by decide

/-- A transfer that comes too late in a slot completes in the slot of the next round. -/
theorem completion_isLeast_late :
    fourSlots.delay 0 5 6 = .ok 41 ∧ IsLeast (fourSlots.completions 0 5 6) 46 ∧
      fourSlots.delay 0 85 6 = fourSlots.delay 0 5 6 := by
  have hcore : 0 < fourSlots.cores := by decide
  have hlatency : 6 ≤ fourSlots.slot := by decide
  have hdelay : fourSlots.delay 0 5 6 = .ok 41 := by decide
  obtain ⟨-, hleast, -, hround⟩ := completion_isLeast hcore hlatency 5
  exact ⟨hdelay, hleast.result hdelay, hround 85 rfl⟩

/-! ### Delays at unknown times -/

/-- The largest delays are not above the worst one if there is another core, or if hardly anything
of a round is left beside the slot. -/
theorem span_le_worst (h : 2 ≤ s.cores ∨ s.interval ≤ s.slot + 1) (core time latency : Nat) :
    s.span core time latency ≤ (s.cores - 1) * s.interval + 2 * latency := by
  rw [span]
  split
  · omega
  rcases h with hshared | hfull
  · have hround : s.interval ≤ (s.cores - 1) * s.interval :=
      Nat.le_mul_of_pos_left _ (by omega)
    omega
  · omega

/-- A core meets every place in a round at some time. -/
theorem exists_lag_eq (s : Schedule) (core : Nat) {place : Nat} (h : place < s.interval) :
    ∃ time, s.lag core time = place := by
  obtain ⟨origin, horigin⟩ := s.exists_lag_eq_zero core 0
  refine ⟨origin + place, ?_⟩
  rw [Nat.add_zero] at horigin
  rw [s.lag_add, horigin, Nat.zero_add, Nat.mod_eq_of_lt h]

/-- If rounds have idle time, a transfer that is issued just too late for the slot takes longer than
twice its latency. -/
theorem exists_span_gt (hlatency : latency ≤ s.slot) (hidle : s.slot + 1 < s.interval)
    (core : Nat) : ∃ time, 2 * latency < s.span core time latency := by
  obtain ⟨time, htime⟩ := s.exists_lag_eq core (show s.slot - latency + 1 < s.interval by omega)
  refine ⟨time, ?_⟩
  rw [span, if_neg (by omega)]
  omega

theorem worstDelay_eq {bound : Nat} (h : s.worstDelay latency = .ok bound) :
    bound = (s.cores - 1) * s.interval + 2 * latency := by
  have hunmodeled : (Bus.unmodeled s).delay .worst 0 0 latency = .ok bound := h
  exact Bus.delay_eq_span hunmodeled

/-- A transfer never takes less than its latency. It never takes more than the worst delay, and so a
bus with an unknown arbitration is never charged less than one with a schedule, exactly if another
core shares the bus or a round is longer than a slot by one cycle at most. -/
theorem transfers_bounded (hcore : core < s.cores) (hlatency : latency ≤ s.slot) :
    (∀ time, Ensures (· = .overflow) (s.delay core time latency) (latency ≤ ·)) ∧
    Ensures (· = .overflow) (s.worstDelay latency) (fun bound =>
      (2 ≤ s.cores ∨ s.interval ≤ s.slot + 1 →
        ∀ time d, s.delay core time latency = .ok d → d ≤ bound) ∧
      (s.cores < 2 → s.slot + 1 < s.interval → 2 * s.interval ≤ Word.limit →
        ∃ time d, s.delay core time latency = .ok d ∧ bound < d)) ∧
    (2 ≤ s.cores ∨ s.interval ≤ s.slot + 1 → ∀ time,
      Coupled (· ≤ ·) ((Bus.scheduled s).delay .worst core time latency)
        ((Bus.unmodeled s).delay .worst core time latency)) := by
  refine ⟨?_, ?_, ?_⟩
  · intro time
    apply (ensures_delay hcore).imp
    intro d hd _
    rw [delay_eq_span hd]
    exact s.le_span core time latency
  · apply ensures_worstDelay.imp
    intro bound hbound _
    rw [worstDelay_eq hbound]
    constructor
    · intro hwide time d hd
      rw [delay_eq_span hd]
      exact span_le_worst hwide core time latency
    · intro hsingle hidle hwords
      obtain ⟨time, htime⟩ := exists_span_gt hlatency hidle core
      refine ⟨time, _, delay_eq_ok_span hcore hlatency hwords time, ?_⟩
      have hcores : s.cores - 1 = 0 := by omega
      rw [hcores, Nat.zero_mul, Nat.zero_add]
      exact htime
  · intro hwide time d bound hd hbound
    rw [Bus.delay_eq_span hd, Bus.delay_eq_span hbound]
    exact span_le_worst hwide core time latency

/-- With three other cores, the worst delay is more than three rounds. -/
theorem transfers_bounded_four :
    fourSlots.worstDelay 6 = .ok 132 ∧
      ∀ time d, fourSlots.delay 0 time 6 = .ok d → 6 ≤ d ∧ d ≤ 132 := by
  have hcore : 0 < fourSlots.cores := by decide
  have hlatency : 6 ≤ fourSlots.slot := by decide
  have hworst : fourSlots.worstDelay 6 = .ok 132 := by decide
  obtain ⟨hlow, hhigh, -⟩ := transfers_bounded hcore hlatency
  refine ⟨hworst, fun time d hd => ⟨(hlow time).result hd, ?_⟩⟩
  exact (hhigh.result hworst).1 (.inl (by decide)) time d hd

/-! One core, with a slot in a tenth of every round. -/

def singleSlot : Schedule where
  slot := 10
  interval := 100
  starts := [0]
  slot_pos := by decide
  starts_ne_nil := by decide
  slot_fits := by decide

/-- Without other cores, the worst delay has no room for the idle time of a round. -/
theorem single_exceeds_worst :
    ofStarts 10 100 [0] = .ok singleSlot ∧ 0 < singleSlot.cores ∧ 6 ≤ singleSlot.slot ∧
      singleSlot.delay 0 5 6 = .ok 101 ∧ singleSlot.worstDelay 6 = .ok 12 ∧
      (Bus.scheduled singleSlot).delay .worst 0 5 6 = .ok 101 ∧
      (Bus.unmodeled singleSlot).delay .worst 0 5 6 = .ok 12 :=
  ⟨rfl, by decide, by decide, by decide, by decide, by decide, by decide⟩

end CycleBounds.Bus.Schedule
