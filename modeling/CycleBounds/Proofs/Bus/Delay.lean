import CycleBounds.Bus.Schedule
import CycleBounds.Proofs.Results

/-!
# Delays on a bus

A transfer on a scheduled bus completes at once if it fits into the slot of its core, and otherwise
in the slot of the next round. How long that takes is a plain number for any time at all, its
*span*: checked arithmetic gives this number or overflows. A later or longer transfer never
completes earlier, so waiting for a slot makes up for no delay, and a transfer that is issued a
whole number of rounds later takes just as long.

* `delay_eq_span`: a delay is the span of the transfer.
* `add_span_mono`: a later and longer transfer completes later.
* `span_add_rounds`: rounds are all alike.
-/

namespace CycleBounds.Bus

namespace Schedule

variable (s : Schedule) (core time latency : Nat)

theorem interval_pos : 0 < s.interval := by
  obtain ⟨x, hx⟩ := List.exists_mem_of_ne_nil _ s.starts_ne_nil
  have hfits := s.slot_fits x hx
  have hpos := s.slot_pos
  omega

/-- How far a time lies behind the start of the latest slot of a core. -/
def lag : Nat :=
  (time % s.interval + s.interval - s.starts[core]?.getD 0 % s.interval) % s.interval

/-- The time from issuing a transfer until it completes. -/
def span : Nat :=
  if s.lag core time + latency ≤ s.slot then latency else s.interval - s.lag core time + latency

theorem lag_lt : s.lag core time < s.interval :=
  Nat.mod_lt _ s.interval_pos

/-- A time is as far as its lag behind the start of a slot. -/
theorem exists_add_lag : ∃ round, time + s.interval =
    s.starts[core]?.getD 0 % s.interval + round * s.interval + s.lag core time := by
  have hstart := Nat.mod_lt (s.starts[core]?.getD 0) s.interval_pos
  have htime := Nat.div_add_mod time s.interval
  have hahead := Nat.div_add_mod
    (time % s.interval + s.interval - s.starts[core]?.getD 0 % s.interval) s.interval
  refine ⟨time / s.interval + (time % s.interval + s.interval -
    s.starts[core]?.getD 0 % s.interval) / s.interval, ?_⟩
  rw [Nat.add_mul, Nat.mul_comm _ s.interval, Nat.mul_comm _ s.interval, lag]
  omega

theorem le_span : latency ≤ s.span core time latency := by
  unfold span
  split <;> omega

variable {core time latency} in
/-- A later and longer transfer of a core completes later. -/
theorem add_span_mono {time' latency' : Nat} (htime : time ≤ time')
    (hlatency : latency ≤ latency') :
    time + s.span core time latency ≤ time' + s.span core time' latency' := by
  have hle := s.le_span core time' latency'
  by_cases hfits : s.lag core time + latency ≤ s.slot
  · rw [span, if_pos hfits]
    omega
  -- the first transfer waits; it matters in which round the second one is issued
  obtain ⟨round, hround⟩ := s.exists_add_lag core time
  obtain ⟨round', hround'⟩ := s.exists_add_lag core time'
  have hlt := s.lag_lt core time
  have hlt' := s.lag_lt core time'
  rw [span, if_neg hfits]
  rcases Nat.lt_trichotomy round round' with hlater | rfl | hearlier
  · -- the later transfer is issued after the slot that the other one waits for has started
    have hmul : round * s.interval + s.interval ≤ round' * s.interval := by
      rw [← Nat.succ_mul]
      exact Nat.mul_le_mul_right _ hlater
    omega
  · -- both wait for the same slot
    rw [span, if_neg (by omega)]
    omega
  · have hmul : round' * s.interval + s.interval ≤ round * s.interval := by
      rw [← Nat.succ_mul]
      exact Nat.mul_le_mul_right _ hearlier
    omega

theorem lag_add_rounds (rounds : Nat) :
    s.lag core (time + rounds * s.interval) = s.lag core time := by
  rw [lag, Nat.add_mul_mod_self_right, lag]

/-- Later times lie as much later in the round. -/
theorem lag_add (later : Nat) :
    s.lag core (time + later) = (s.lag core time + later) % s.interval := by
  have hstart := Nat.mod_lt (s.starts[core]?.getD 0) s.interval_pos
  rw [lag, lag, Nat.mod_add_mod, Nat.add_sub_assoc (Nat.le_of_lt hstart),
    Nat.add_sub_assoc (Nat.le_of_lt hstart), Nat.mod_add_mod, Nat.add_right_comm,
    Nat.add_assoc (time % s.interval), Nat.add_assoc time, Nat.mod_add_mod]

/-- In every round there is a time that lies like another one to the slots. -/
theorem exists_aligned (time' : Nat) :
    ∃ wait < s.interval, (time + wait) % s.interval = time' % s.interval := by
  have hpos := s.interval_pos
  refine ⟨(time' + (s.interval - time % s.interval)) % s.interval, Nat.mod_lt _ hpos, ?_⟩
  have hsum : time + (time' + (s.interval - time % s.interval)) =
      time' + s.interval * (time / s.interval + 1) := by
    have hlt := Nat.mod_lt time hpos
    have hsplit := Nat.mod_add_div time s.interval
    rw [Nat.mul_succ]
    omega
  rw [Nat.add_mod_mod, hsum, Nat.add_mul_mod_self_left]

/-- Time can be counted such that the slot of a core starts at a given time. -/
theorem exists_lag_eq_zero : ∃ origin, s.lag core (origin + time) = 0 := by
  obtain ⟨origin, -, horigin⟩ := s.exists_aligned time (s.starts[core]?.getD 0)
  refine ⟨origin, ?_⟩
  rw [lag, Nat.add_comm origin, horigin, Nat.add_sub_cancel_left, Nat.mod_self]

theorem span_add_rounds (rounds : Nat) :
    s.span core (time + rounds * s.interval) latency = s.span core time latency := by
  rw [span, lag_add_rounds, span]

variable {s core time latency}

theorem offset_eq_lag {offset : Nat} (h : s.offset core time = .ok offset) :
    offset = s.lag core time := by
  obtain ⟨start, hstart, h⟩ := bind_eq_ok.mp h
  obtain ⟨-, h⟩ := Word.add_bind_eq_ok.mp h
  obtain ⟨-, h⟩ := Word.sub_bind_eq_ok.mp h
  rw [lag, entryAt_eq_ok.mp hstart]
  exact (pure_eq_ok.mp h).symm

theorem delay_eq_span {d : Nat} (h : s.delay core time latency = .ok d) :
    d = s.span core time latency := by
  obtain ⟨offset, hoffset, h⟩ := bind_eq_ok.mp h
  obtain ⟨-, h⟩ := Word.add_bind_eq_ok.mp h
  rw [span, ← offset_eq_lag hoffset]
  split at h
  · rename_i hfits
    rw [if_pos hfits, pure_eq_ok.mp h]
  · rename_i hfits
    obtain ⟨-, h⟩ := Word.sub_bind_eq_ok.mp h
    rw [if_neg hfits, (Word.add_eq_ok_iff.mp h).2]

/-- A transfer of a core with a slot is delayed by some time. -/
theorem ensures_delay (hcore : core < s.cores) :
    Ensures (· = .overflow) (s.delay core time latency) fun _ => True := by
  have hstart : s.slotStart core = .ok s.starts[core] :=
    entryAt_eq_ok.mpr (List.getElem?_eq_getElem hcore)
  unfold delay offset
  rw [hstart]
  refine Ensures.bind (P := fun _ => True) ?_ fun offset _ _ => ?_
  · refine (Word.ensures_add _ _).bind fun shifted _ _ => ?_
    exact (Word.ensures_sub _ _).bind fun ahead _ _ => trivial
  · refine (Word.ensures_add _ _).bind fun finish _ _ => ?_
    split
    · trivial
    · refine (Word.ensures_sub _ _).bind fun wait _ _ => ?_
      exact (Word.ensures_add _ _).imp fun _ _ _ => trivial

theorem ensures_worstDelay :
    Ensures (· = .overflow) (s.worstDelay latency) fun _ => True := by
  unfold worstDelay
  refine (Word.ensures_sub _ _).bind fun others _ _ => ?_
  refine (Word.ensures_mul _ _).bind fun rounds _ _ => ?_
  refine (Word.ensures_mul _ _).bind fun twice _ _ => ?_
  exact (Word.ensures_add _ _).imp fun _ _ _ => trivial

end Schedule

/-! ### Buses -/

/-- The time from issuing a transfer until it completes, as the arbitration has it. -/
def span (bus : Bus) (scenario : Scenario) (core time latency : Nat) : Nat :=
  match bus, scenario with
  | .unshared, _ => latency
  | .unmodeled _, .best => latency
  | .unmodeled s, .worst => (s.cores - 1) * s.interval + 2 * latency
  | .scheduled s, _ => s.span core time latency

variable {bus : Bus} {scenario scenario' : Scenario} {core time time' latency latency' d d' : Nat}

theorem delay_eq_span (h : bus.delay scenario core time latency = .ok d) :
    d = bus.span scenario core time latency := by
  cases bus with
  | unshared => exact (Except.ok.inj h).symm
  | scheduled s => exact Schedule.delay_eq_span h
  | unmodeled s =>
    cases scenario with
    | best => exact (Except.ok.inj h).symm
    | worst =>
      obtain ⟨-, h⟩ := Word.sub_bind_eq_ok.mp h
      obtain ⟨-, h⟩ := Word.mul_bind_eq_ok.mp h
      obtain ⟨-, h⟩ := Word.mul_bind_eq_ok.mp h
      exact (Word.add_eq_ok_iff.mp h).2

/-- A transfer of a core with a slot is delayed by some time. -/
theorem ensures_delay (hcore : ∀ s, bus.schedule? = some s → core < s.cores) :
    Ensures (· = .overflow) (bus.delay scenario core time latency) fun _ => True := by
  cases bus with
  | unshared => trivial
  | scheduled s => exact Schedule.ensures_delay (hcore s rfl)
  | unmodeled s =>
    cases scenario with
    | best => trivial
    | worst => exact Schedule.ensures_worstDelay

theorem le_span : latency ≤ bus.span scenario core time latency := by
  cases bus with
  | unshared => exact Nat.le_refl _
  | scheduled s => exact s.le_span core time latency
  | unmodeled s => cases scenario <;> simp only [span] <;> omega

/-- A later and longer transfer completes later, and a transfer at best before one at worst. -/
theorem add_span_mono (hscenario : scenario = .best ∨ scenario = scenario') (htime : time ≤ time')
    (hlatency : latency ≤ latency') :
    time + bus.span scenario core time latency ≤
      time' + bus.span scenario' core time' latency' := by
  cases bus with
  | unshared => exact Nat.add_le_add htime hlatency
  | scheduled s => exact s.add_span_mono htime hlatency
  | unmodeled s =>
    rcases hscenario with rfl | rfl
    · have hle : latency' ≤ (Bus.unmodeled s).span scenario' core time' latency' := le_span
      simp only [span] at hle ⊢
      omega
    · cases scenario <;> simp only [span] <;> omega

/-- Rounds of the schedule are all alike. -/
theorem span_add_rounds {s : Schedule} (hs : bus.timed? = some s) (rounds : Nat) :
    bus.span scenario core (time + rounds * s.interval) latency =
      bus.span scenario core time latency := by
  cases bus with
  | unshared | unmodeled _ => cases hs
  | scheduled t =>
    obtain rfl := Option.some.inj hs
    exact t.span_add_rounds core time latency rounds

theorem le_delay (h : bus.delay scenario core time latency = .ok d) : latency ≤ d := by
  rw [delay_eq_span h]
  exact le_span

/-- A later and longer transfer of a core never completes earlier than one at best. -/
theorem finish_le (htime : time ≤ time') (hlatency : latency ≤ latency')
    (h : bus.delay .best core time latency = .ok d)
    (h' : bus.delay scenario core time' latency' = .ok d') : time + d ≤ time' + d' := by
  rw [delay_eq_span h, delay_eq_span h']
  exact add_span_mono (.inl rfl) htime hlatency

end CycleBounds.Bus
