import CycleBounds.Proofs.Bus.Slots
import CycleBounds.Proofs.Bus.Tracker

/-!
# The range of tracked delays

Transfers may be issued to a tracker at any times, also before the end of the latest one. Whatever
came before, a transfer takes its latency and at most one round more, and the differences on the way
to its delay are never negative. So a delay is found unless a sum or a product leaves the range of
words.

* `operands`: the sums and products on the way to a delay.
* `exists_delay_iff`: they are all that can go wrong.
* `operands_le`: they are small if times and latencies are.
* `inRange_of_delay`: the range of one delay, and the latest transfer after it.
* `delays_in_range`: the same for all transfers of a tracker.
-/

namespace CycleBounds

namespace Word

variable {α : Type} {a b : Nat} {f : Nat → Except Fault α}

theorem exists_add_bind :
    (∃ r, (add a b >>= f) = .ok r) ↔ a + b < limit ∧ ∃ r, f (a + b) = .ok r := by
  simp only [add_bind_eq_ok, exists_and_left]

theorem exists_mul_bind :
    (∃ r, (mul a b >>= f) = .ok r) ↔ a * b < limit ∧ ∃ r, f (a * b) = .ok r := by
  simp only [mul_bind_eq_ok, exists_and_left]

theorem exists_sub_bind (h : b ≤ a) :
    (∃ r, (sub a b >>= f) = .ok r) ↔ ∃ r, f (a - b) = .ok r := by
  simp only [sub_bind_eq_ok, h, true_and]

end Word

namespace Bus

structure Issue where
  time : Nat
  latency : Nat
deriving DecidableEq, Repr

theorem Schedule.slot_le_interval (s : Schedule) : s.slot ≤ s.interval := by
  obtain ⟨first, hfirst⟩ := List.exists_mem_of_ne_nil s.starts s.starts_ne_nil
  exact Nat.le_of_add_left_le (s.slot_fits first hfirst)

theorem Schedule.cores_pos (s : Schedule) : 0 < s.cores :=
  List.length_pos_iff.mpr s.starts_ne_nil

namespace Tracker

variable {s : Schedule} {t : Tracker} {time latency : Nat}

def finish? (t : Tracker) : Option Nat :=
  t.latest.map Transfer.finish

/-- The delays of transfers that are issued one after the other, each with the tracker after it. -/
def delays (s : Schedule) : Tracker → List Issue → Except Fault (List (Nat × Tracker))
  | _, [] => .ok []
  | t, i :: issues => do
    let (delay, next) ← (t.delay s i.time i.latency).result
    let rest ← delays s next issues
    return (delay, next) :: rest

/-! ### Sums and products -/

def nextOperands (s : Schedule) (prev : Transfer) (time latency : Nat) : List Nat :=
  let gap := time - prev.finish
  let round := (gap + prev.latency) / s.interval
  if gap + latency < s.slot then
    [gap + latency]
  else
    let granted := (round * s.cores + 1) * s.slot
    let known := [gap + latency, gap + prev.latency, round + 1, gap + latency + prev.latency,
      round * s.cores, round * s.cores + 1, granted]
    if gap + latency + prev.latency ≤ granted then
      known
    else
      let delay := (round + 1) * s.interval + latency
      known ++ [(round + 1) * s.interval, delay, time + (delay - prev.latency - gap)]

/-- The sums and products on the way to a delay, and to the delay that the schedule explains. -/
def operands (t : Tracker) (s : Schedule) (time latency : Nat) : List Nat :=
  let others := s.slot * (s.cores - 1)
  (match t.latest with
    | none => [time + latency, s.interval - s.slot + latency]
    | some prev => nextOperands s prev time latency) ++
  [others, 2 * latency, others + 2 * latency]

theorem exists_firstDelay_iff : (∃ r, firstDelay s time latency = .ok r) ↔
    ∀ n ∈ [time + latency, s.interval - s.slot + latency], n < Word.limit := by
  unfold firstDelay
  rw [Word.exists_add_bind, Word.exists_sub_bind s.slot_le_interval, Word.exists_add_bind]
  simp [pure_eq_ok]

/-- The round after the latest transfer ends after now. -/
theorem lt_next_round (s : Schedule) (n : Nat) : n < (n / s.interval + 1) * s.interval := by
  rw [Nat.mul_comm]
  exact Nat.lt_mul_div_succ n s.interval_pos

/-- The delay behind a transfer is known just if all its operands are in range. -/
theorem exists_nextDelay_iff {prev : Transfer} : (∃ r, nextDelay s prev time latency = .ok r) ↔
    ∀ n ∈ nextOperands s prev time latency, n < Word.limit := by
  have hround := lt_next_round s (time - prev.finish + prev.latency)
  unfold nextDelay nextOperands
  rw [Word.exists_add_bind]
  split
  · rename_i hclose
    simp [pure_eq_ok, hclose]
  rename_i hclose
  rw [Word.exists_add_bind, Word.exists_add_bind, Word.exists_add_bind,
    Word.exists_sub_bind (Nat.le_add_left _ _), Nat.add_sub_cancel, Word.exists_mul_bind,
    Word.exists_add_bind, Word.exists_mul_bind]
  split
  · rename_i hwithin
    simp [pure_eq_ok, hclose, hwithin]
  rename_i hwithin
  rw [Word.exists_mul_bind, Word.exists_add_bind, Word.exists_sub_bind (by omega),
    Word.exists_sub_bind (by omega), Word.exists_add_bind]
  simp [pure_eq_ok, hclose, hwithin]

/-- A delay is found just if all sums and products fit: no difference is negative. -/
theorem exists_delay_iff : (∃ r, (t.delay s time latency).result = .ok r) ↔
    ∀ n ∈ t.operands s time latency, n < Word.limit := by
  have hexplained : (∃ r, explained s latency = .ok r) ↔
      ∀ n ∈ [s.slot * (s.cores - 1), 2 * latency, s.slot * (s.cores - 1) + 2 * latency],
        n < Word.limit := by
    unfold explained
    rw [Word.exists_sub_bind s.cores_pos, Word.exists_mul_bind, Word.exists_mul_bind]
    simp [Word.add_eq_ok_iff]
  rw [result_delay, operands, List.forall_mem_append, ← hexplained]
  rcases t with ⟨_ | prev⟩
  · rw [← exists_firstDelay_iff]
    simp only [bind_eq_ok, pure_eq_ok]
    grind
  · rw [← exists_nextDelay_iff]
    simp only [bind_eq_ok, pure_eq_ok]
    grind

/-! ### Small times -/

/-- No sum or product on the way to a delay is larger than this if all latencies fit into slots.
Slots may overlap, so that together they may be longer than a round. -/
def operandBound (s : Schedule) (time : Nat) : Nat :=
  (time + 3 * s.interval) * (s.cores * s.slot)

theorem le_operandBound {n : Nat} (h : n ≤ time + 3 * s.interval) : n ≤ operandBound s time := by
  have hslots : 0 < s.cores * s.slot := Nat.mul_pos s.cores_pos s.slot_pos
  exact Nat.le_trans h (Nat.le_mul_of_pos_right _ hslots)

/-- The time of a request bounds all operands of its delay behind a transfer. -/
theorem nextOperands_le {prev : Transfer} (hlatency : latency ≤ s.slot)
    (hprev : prev.latency ≤ s.slot) :
    ∀ n ∈ nextOperands s prev time latency, n ≤ operandBound s time := by
  have hslot := s.slot_le_interval
  have hpos := s.slot_pos
  have hcores := s.cores_pos
  have hgap : time - prev.finish ≤ time := Nat.sub_le _ _
  simp only [nextOperands]
  generalize time - prev.finish = gap at hgap ⊢
  have hbefore := Nat.div_mul_le_self (gap + prev.latency) s.interval
  have hround := Nat.div_le_self (gap + prev.latency) s.interval
  generalize (gap + prev.latency) / s.interval = round at hbefore hround ⊢
  have hnext : (round + 1) * s.interval = round * s.interval + s.interval := Nat.succ_mul _ _
  -- the products with the number of slots are the largest ones
  have hslots : round * s.cores + 1 ≤ (time + 3 * s.interval) * s.cores := calc
    round * s.cores + 1 ≤ round * s.cores + s.cores := Nat.add_le_add_left hcores _
    _ = (round + 1) * s.cores := (Nat.succ_mul _ _).symm
    _ ≤ (time + 3 * s.interval) * s.cores := Nat.mul_le_mul_right _ (by omega)
  have hgranted : (round * s.cores + 1) * s.slot ≤ operandBound s time := by
    rw [operandBound, ← Nat.mul_assoc]
    exact Nat.mul_le_mul_right _ hslots
  have hfactor : round * s.cores + 1 ≤ operandBound s time :=
    Nat.le_trans (Nat.le_mul_of_pos_right _ hpos) hgranted
  have hknown : ∀ n ∈ [gap + latency, gap + prev.latency, round + 1, gap + latency + prev.latency,
      round * s.cores, round * s.cores + 1, (round * s.cores + 1) * s.slot],
      n ≤ operandBound s time := by
    simp only [List.forall_mem_cons, List.not_mem_nil, false_imp_iff, implies_true, and_true]
    exact ⟨le_operandBound (by omega), le_operandBound (by omega), le_operandBound (by omega),
      le_operandBound (by omega), Nat.le_of_succ_le hfactor, hfactor, hgranted⟩
  split
  · exact List.forall_mem_singleton.mpr (hknown _ List.mem_cons_self)
  split
  · exact hknown
  · refine List.forall_mem_append.mpr ⟨hknown, ?_⟩
    simp only [List.forall_mem_cons, List.not_mem_nil, false_imp_iff, implies_true, and_true]
    exact ⟨le_operandBound (by omega), le_operandBound (by omega), le_operandBound (by omega)⟩

/-- The time of a request bounds all operands of its delay. -/
theorem operands_le (hlatency : latency ≤ s.slot)
    (hprev : ∀ prev, t.latest = some prev → prev.latency ≤ s.slot) :
    ∀ n ∈ t.operands s time latency, n ≤ operandBound s time := by
  have hslot := s.slot_le_interval
  have hpos := s.slot_pos
  have hcores := s.cores_pos
  refine List.forall_mem_append.mpr ⟨?_, ?_⟩
  · rcases t with ⟨_ | prev⟩
    · simp only [List.forall_mem_cons, List.not_mem_nil, false_imp_iff, implies_true, and_true]
      exact ⟨le_operandBound (by omega), le_operandBound (by omega)⟩
    · exact nextOperands_le hlatency (hprev prev rfl)
  · have hothers : s.slot * (s.cores - 1) + s.slot = s.cores * s.slot := by
      rw [← Nat.mul_succ, Nat.succ_eq_add_one, Nat.sub_add_cancel hcores, Nat.mul_comm]
    have hsum : 2 * (s.cores * s.slot) ≤ operandBound s time := Nat.mul_le_mul_right _ (by omega)
    have hone : s.slot ≤ s.cores * s.slot := Nat.le_mul_of_pos_left _ hcores
    simp only [List.forall_mem_cons, List.not_mem_nil, false_imp_iff, implies_true, and_true]
    exact ⟨by omega, by omega, by omega⟩

/-! ### The range of a delay -/

/-- A delay lasts for the latency and at most a round more. The first transfer is the latest one if
it is taken to start at once, and later ones if they wait. -/
structure InRange (s : Schedule) (t : Tracker) (i : Issue) (delay : Nat) (next : Tracker) :
    Prop where
  latency_le : i.latency ≤ delay
  le_round : delay ≤ s.interval + i.latency
  finish : next.finish? = match t.finish? with
    | none => some (i.time + i.latency)
    | some finish => some (if i.latency < delay then i.time + delay else finish)

/-- A delay that is returned is one whose operands were in range. -/
theorem inRange_of_delay {i : Issue} {delay : Nat} {next : Tracker}
    (h : (t.delay s i.time i.latency).result = .ok (delay, next)) : InRange s t i delay next := by
  have hdelay := delay_eq_ok h
  rcases t with ⟨_ | prev⟩
  · obtain ⟨rfl, rfl⟩ := firstDelay_eq_ok hdelay
    exact ⟨by omega, by omega, rfl⟩
  · rcases nextDelay_eq_ok hdelay with ⟨-, rfl, rfl⟩ | ⟨-, hd, rfl⟩
    · refine ⟨Nat.le_refl _, Nat.le_add_left _ _, ?_⟩
      simp [finish?]
    · -- it waits for the end of a round that began before now
      have hafter := lt_next_round s (i.time - prev.finish + prev.latency)
      have hbefore := Nat.div_mul_le_self (i.time - prev.finish + prev.latency) s.interval
      rw [Nat.succ_mul] at hd hafter
      have hwaits : i.latency < delay := by omega
      refine ⟨Nat.le_of_lt hwaits, by omega, ?_⟩
      simp [finish?, hwaits]

/-! ### All transfers of a tracker -/

def Fits (s : Schedule) : Tracker → List Issue → Prop
  | _, [] => True
  | t, i :: issues => (∀ n ∈ t.operands s i.time i.latency, n < Word.limit) ∧
    ∀ delay next, (t.delay s i.time i.latency).result = .ok (delay, next) → Fits s next issues

/-- Tracked transfers fit into their slots if the requests do. -/
theorem latency_le_of_delay {d : Nat} {next : Tracker}
    (h : (t.delay s time latency).result = .ok (d, next)) (hlatency : latency ≤ s.slot)
    (hlatest : ∀ prev, t.latest = some prev → prev.latency ≤ s.slot) :
    ∀ prev, next.latest = some prev → prev.latency ≤ s.slot := by
  have hdelay := delay_eq_ok h
  intro prev' hprev'
  rcases t with ⟨_ | prev⟩
  · obtain ⟨-, rfl⟩ := firstDelay_eq_ok hdelay
    obtain rfl := Option.some.inj hprev'
    exact hlatency
  · rcases nextDelay_eq_ok hdelay with ⟨-, -, rfl⟩ | ⟨-, -, rfl⟩
    · exact hlatest prev' hprev'
    · obtain rfl := Option.some.inj hprev'
      exact hlatency

/-- Requests fit if their times are small enough for the schedule. -/
theorem fits_of_small {issues : List Issue} {last : Nat}
    (hissues : ∀ i ∈ issues, i.time ≤ last ∧ i.latency ≤ s.slot)
    (hsmall : operandBound s last < Word.limit)
    (hlatest : ∀ prev, t.latest = some prev → prev.latency ≤ s.slot) : Fits s t issues := by
  induction issues generalizing t with
  | nil => trivial
  | cons i issues ih =>
    obtain ⟨⟨htime, hlatency⟩, hissues⟩ := List.forall_mem_cons.mp hissues
    refine ⟨fun n hn => ?_, fun delay next hdelay => ?_⟩
    · calc n
        _ ≤ operandBound s i.time := operands_le hlatency hlatest n hn
        _ ≤ operandBound s last := Nat.mul_le_mul_right _ (Nat.add_le_add_right htime _)
        _ < Word.limit := hsmall
    · exact ih hissues (latency_le_of_delay hdelay hlatency hlatest)

/-- Every delay is in its range, the trackers being those after the transfers before. -/
inductive Served (s : Schedule) : Tracker → List Issue → List (Nat × Tracker) → Prop
  | nil {t : Tracker} : Served s t [] []
  | cons {t next : Tracker} {i : Issue} {issues : List Issue} {delay : Nat}
      {rest : List (Nat × Tracker)} : InRange s t i delay next → Served s next issues rest →
      Served s t (i :: issues) ((delay, next) :: rest)

/-- Requests that fit are all served. -/
theorem delays_of_fits {issues : List Issue} (h : Fits s t issues) :
    ∃ outcomes, delays s t issues = .ok outcomes ∧ Served s t issues outcomes := by
  induction issues generalizing t with
  | nil => exact ⟨[], rfl, .nil⟩
  | cons i issues ih =>
    obtain ⟨⟨delay, next⟩, hdelay⟩ := exists_delay_iff.mpr h.1
    obtain ⟨rest, hrest, hserved⟩ := ih (h.2 delay next hdelay)
    refine ⟨(delay, next) :: rest, ?_, .cons (inRange_of_delay hdelay) hserved⟩
    rw [delays, hdelay]
    show (delays s next issues >>= fun rest => pure ((delay, next) :: rest)) = _
    rw [hrest]
    rfl

/-- Requests that do not fit overflow. -/
theorem delays_of_not_fits {issues : List Issue} (h : ¬ Fits s t issues) :
    delays s t issues = .error .overflow := by
  induction issues generalizing t with
  | nil => exact absurd trivial h
  | cons i issues ih =>
    have hends : Ensures (· = .overflow) (t.delay s i.time i.latency).result fun _ => True :=
      ensures_delay
    rw [delays]
    cases hdelay : (t.delay s i.time i.latency).result with
    | error fault =>
      rw [hdelay] at hends
      obtain rfl : fault = .overflow := hends
      rfl
    | ok outcome =>
      obtain ⟨delay, next⟩ := outcome
      -- the first delay has a result, so it is the rest that does not fit
      have hrest : ¬ Fits s next issues := by
        intro hfits
        refine h ⟨exists_delay_iff.mp ⟨_, hdelay⟩, fun delay' next' hdelay' => ?_⟩
        obtain ⟨-, rfl⟩ := Prod.mk.inj (Except.ok.inj (hdelay.symm.trans hdelay'))
        exact hfits
      show (delays s next issues >>= fun rest => pure ((delay, next) :: rest)) = _
      rw [ih hrest]
      rfl

/-- Delays stay in range. Whatever the schedule, and whenever transfers are issued, all delays of a
tracker are found and in their range, unless a sum or a product on the way does not fit. All of them
fit if no transfer is longer than a slot and all are issued early enough. -/
theorem delays_in_range (s : Schedule) (issues : List Issue) :
    (Fits s start issues →
      ∃ outcomes, delays s start issues = .ok outcomes ∧ Served s start issues outcomes) ∧
    (¬ Fits s start issues → delays s start issues = .error .overflow) ∧
    ∀ last, (∀ i ∈ issues, i.time ≤ last ∧ i.latency ≤ s.slot) →
      operandBound s last < Word.limit → Fits s start issues := by
  refine ⟨delays_of_fits, delays_of_not_fits, fun last hissues hsmall => ?_⟩
  exact fits_of_small hissues hsmall (by rintro prev ⟨⟩)

-- the second transfer still fits into the slot of the first one, the third one waits
example :
    (delays Schedule.fourSlots start [⟨0, 6⟩, ⟨8, 2⟩, ⟨20, 6⟩]).toOption.map
      (List.map fun outcome => (outcome.1, outcome.2.finish?)) =
    some [(36, some 6), (2, some 6), (26, some 46)] := by
  decide +kernel

end Tracker

end Bus

end CycleBounds
