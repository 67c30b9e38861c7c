import CycleBounds.Bus.Tracker
import CycleBounds.Proofs.Bus.Delay

/-!
# Delays at an unknown alignment

The tracker of a relative run charges the first transfer as if it had to wait for all other cores,
and remembers when a slot was granted. If time is counted such that a slot starts with the first
transfer, and all transfers fill their slots, then nothing is charged too little. Of shorter
transfers, some may be taken to fit where they do not (`overlooks`).

* `nextDelay_aligned`: later transfers are charged for just as long as they take, unless they are
  overlooked.
* `delay_aligned`: no transfer is charged for less than it takes.
-/

namespace CycleBounds.Bus.Tracker

variable {s : Schedule} {t : Tracker} {time latency : Nat}

theorem ensures_firstDelay :
    Ensures (· = .overflow) (firstDelay s time latency) fun _ => True := by
  unfold firstDelay
  refine (Word.ensures_add _ _).bind fun finish _ _ => ?_
  refine (Word.ensures_sub _ _).bind fun wait _ _ => ?_
  exact (Word.ensures_add _ _).bind fun delay _ _ => trivial

theorem ensures_nextDelay {prev : Transfer} :
    Ensures (· = .overflow) (nextDelay s prev time latency) fun _ => True := by
  unfold nextDelay
  refine (Word.ensures_add _ _).bind fun span _ _ => ?_
  split
  · trivial
  refine (Word.ensures_add _ _).bind fun back _ _ => ?_
  refine (Word.ensures_add _ _).bind fun round _ _ => ?_
  refine (Word.ensures_add _ _).bind fun used _ _ => ?_
  refine (Word.ensures_sub _ _).bind fun earlier _ _ => ?_
  refine (Word.ensures_mul _ _).bind fun slots _ _ => ?_
  refine (Word.ensures_add _ _).bind fun slots' _ _ => ?_
  refine (Word.ensures_mul _ _).bind fun granted _ _ => ?_
  split
  · trivial
  refine (Word.ensures_mul _ _).bind fun rounds _ _ => ?_
  refine (Word.ensures_add _ _).bind fun delay _ _ => ?_
  refine (Word.ensures_sub _ _).bind fun delay' _ _ => ?_
  refine (Word.ensures_sub _ _).bind fun delay'' _ _ => ?_
  exact (Word.ensures_add _ _).bind fun finish _ _ => trivial

theorem ensures_explained : Ensures (· = .overflow) (explained s latency) fun _ => True := by
  unfold explained
  refine (Word.ensures_sub _ _).bind fun others _ _ => ?_
  refine (Word.ensures_mul _ _).bind fun slots _ _ => ?_
  refine (Word.ensures_mul _ _).bind fun twice _ _ => ?_
  exact (Word.ensures_add _ _).imp fun _ _ _ => trivial

/-- Warnings aside, the delay is that after the latest transfer. -/
theorem result_delay : (t.delay s time latency).result =
    (match t.latest with
      | none => firstDelay s time latency
      | some prev => nextDelay s prev time latency) >>= fun next => do
        let _ ← explained s latency
        return next := by
  -- a warning does not change the result
  have hwarn : ∀ (next : Nat × Tracker) (bound : Nat), (if bound < next.1 then do
      Traced.emit (.longDelay next.1 time)
      return next
    else return next : Traced Fault (Nat × Tracker)).result = .ok next := by
    intro next bound
    split
    · rfl
    · rfl
  unfold delay
  cases t.latest with
  | none =>
    simp only [Traced.result_bind, Traced.result_liftM, hwarn]
    rfl
  | some prev =>
    simp only [Traced.result_bind, Traced.result_liftM, hwarn]
    rfl

theorem delay_eq_ok {d : Nat} {next : Tracker}
    (h : (t.delay s time latency).result = .ok (d, next)) :
    (match t.latest with
      | none => firstDelay s time latency
      | some prev => nextDelay s prev time latency) = .ok (d, next) := by
  rw [result_delay] at h
  obtain ⟨_, hdelay, h⟩ := bind_eq_ok.mp h
  obtain ⟨bound, -, h⟩ := bind_eq_ok.mp h
  rw [hdelay, pure_eq_ok.mp h]

/-- A transfer is delayed by some time. -/
theorem ensures_delay :
    Ensures (· = .overflow) (t.delay s time latency).result fun _ => True := by
  rw [result_delay]
  refine Ensures.bind (P := fun _ => True) ?_ fun next _ _ => ?_
  · cases t.latest with
    | none => exact ensures_firstDelay
    | some prev => exact ensures_nextDelay
  · exact ensures_explained.bind fun bound _ _ => trivial

theorem firstDelay_eq_ok {d : Nat} {next : Tracker}
    (h : firstDelay s time latency = .ok (d, next)) :
    d = s.interval - s.slot + latency ∧ next = ⟨some ⟨time + latency, latency⟩⟩ := by
  obtain ⟨-, h⟩ := Word.add_bind_eq_ok.mp h
  obtain ⟨-, h⟩ := Word.sub_bind_eq_ok.mp h
  obtain ⟨-, h⟩ := Word.add_bind_eq_ok.mp h
  obtain ⟨rfl, rfl⟩ := Prod.mk.inj (Except.ok.inj h)
  exact ⟨rfl, rfl⟩

/-- A transfer takes its latency if it is close to the transfer before it, or within a slot that is
granted since. Otherwise it ends with a slot of a later round. -/
theorem nextDelay_eq_ok {prev : Transfer} {d : Nat} {next : Tracker}
    (h : nextDelay s prev time latency = .ok (d, next)) :
    let gap := time - prev.finish
    let round := (gap + prev.latency) / s.interval
    ((gap + latency < s.slot ∨ gap + latency + prev.latency ≤ (round * s.cores + 1) * s.slot) ∧
      d = latency ∧ next = ⟨some prev⟩) ∨
    (round * s.cores + 1) * s.slot < gap + latency + prev.latency ∧
      d = (round + 1) * s.interval + latency - prev.latency - gap ∧
      next = ⟨some ⟨time + d, latency⟩⟩ := by
  intro gap round
  obtain ⟨-, h⟩ := Word.add_bind_eq_ok.mp h
  split at h
  · rename_i hclose
    obtain ⟨rfl, rfl⟩ := Prod.mk.inj (pure_eq_ok.mp h)
    exact .inl ⟨.inl hclose, rfl, rfl⟩
  -- how many slots were granted since, in checked numbers
  obtain ⟨-, h⟩ := Word.add_bind_eq_ok.mp h
  obtain ⟨-, h⟩ := Word.add_bind_eq_ok.mp h
  obtain ⟨-, h⟩ := Word.add_bind_eq_ok.mp h
  obtain ⟨-, h⟩ := Word.sub_bind_eq_ok.mp h
  obtain ⟨-, h⟩ := Word.mul_bind_eq_ok.mp h
  obtain ⟨-, h⟩ := Word.add_bind_eq_ok.mp h
  obtain ⟨-, h⟩ := Word.mul_bind_eq_ok.mp h
  rw [Nat.add_sub_cancel] at h
  split at h
  · rename_i hwithin
    obtain ⟨rfl, rfl⟩ := Prod.mk.inj (pure_eq_ok.mp h)
    exact .inl ⟨.inr hwithin, rfl, rfl⟩
  rename_i hlater
  -- how long the next slot is away
  obtain ⟨-, h⟩ := Word.mul_bind_eq_ok.mp h
  obtain ⟨-, h⟩ := Word.add_bind_eq_ok.mp h
  obtain ⟨-, h⟩ := Word.sub_bind_eq_ok.mp h
  obtain ⟨-, h⟩ := Word.sub_bind_eq_ok.mp h
  obtain ⟨-, h⟩ := Word.add_bind_eq_ok.mp h
  obtain ⟨rfl, rfl⟩ := Prod.mk.inj (pure_eq_ok.mp h)
  exact .inr ⟨Nat.lt_of_not_le hlater, rfl, rfl⟩

/-- Once there was a transfer, there is a latest one. -/
theorem latest_of_delay {d : Nat} {next : Tracker}
    (h : (t.delay s time latency).result = .ok (d, next)) : next.latest ≠ none := by
  have hdelay := delay_eq_ok h
  rcases t with ⟨_ | prev⟩
  · obtain ⟨-, rfl⟩ := firstDelay_eq_ok hdelay
    simp
  · rcases nextDelay_eq_ok hdelay with ⟨-, -, rfl⟩ | ⟨-, -, rfl⟩
    · simp
    · simp

/-- The latest transfer that had to wait is complete. -/
theorem finish_le_of_delay {d : Nat} {next : Tracker}
    (h : (t.delay s time latency).result = .ok (d, next))
    (hbefore : ∀ prev, t.latest = some prev → prev.finish ≤ time) :
    ∀ prev, next.latest = some prev → prev.finish ≤ time + d := by
  have hdelay := delay_eq_ok h
  intro prev' hprev'
  rcases t with ⟨_ | prev⟩
  · obtain ⟨rfl, rfl⟩ := firstDelay_eq_ok hdelay
    obtain rfl := Option.some.inj hprev'
    exact Nat.add_le_add_left (Nat.le_add_left _ _) _
  · rcases nextDelay_eq_ok hdelay with ⟨-, -, rfl⟩ | ⟨-, -, rfl⟩
    · exact Nat.le_add_right_of_le (hbefore prev' hprev')
    · obtain rfl := Option.some.inj hprev'
      exact Nat.le_refl _

/-- A transfer that is close to the latest one is taken to fit into the same slot. It is overlooked
if there is no room for it beside the latest one. -/
def overlooks (t : Tracker) (s : Schedule) (time latency : Nat) : Bool :=
  match t.latest with
  | none => false
  | some prev =>
    let gap := time - prev.finish
    gap + latency < s.slot ∧ s.slot < (gap + prev.latency) % s.interval + latency

theorem overlooks_iff {prev : Transfer} :
    (Tracker.mk (some prev)).overlooks s time latency = true ↔
      time - prev.finish + latency < s.slot ∧
        s.slot < (time - prev.finish + prev.latency) % s.interval + latency :=
  decide_eq_true_iff

/-! ### Alignment

Time zero of a relative run may be thought of as any time, its *origin*. -/

section Aligned

variable {core origin : Nat}

/-- The latest transfer ended before, and it was granted when a slot of the core started. -/
def Aligned (s : Schedule) (core origin : Nat) (t : Tracker) (time : Nat) : Prop :=
  ∀ prev, t.latest = some prev → prev.finish ≤ time ∧
    ∃ granted, prev.finish = granted + prev.latency ∧ s.lag core (origin + granted) = 0

theorem aligned_start : start.Aligned s core origin time :=
  nofun

theorem Aligned.mono {time' : Nat} (h : t.Aligned s core origin time) (hle : time ≤ time') :
    t.Aligned s core origin time' := by
  intro prev hprev
  obtain ⟨hbefore, hgranted⟩ := h prev hprev
  exact ⟨Nat.le_trans hbefore hle, hgranted⟩

/-- The first transfer is charged for longer than it takes if a slot starts with it. -/
theorem firstDelay_aligned {d : Nat} {next : Tracker}
    (h : firstDelay s time latency = .ok (d, next)) (hlag : s.lag core (origin + time) = 0) :
    latency ≤ d ∧ next.Aligned s core origin (time + d) := by
  obtain ⟨rfl, rfl⟩ := firstDelay_eq_ok h
  refine ⟨Nat.le_add_left _ _, ?_⟩
  intro prev hprev
  obtain rfl := Option.some.inj hprev
  exact ⟨Nat.add_le_add_left (Nat.le_add_left _ _) _, time, rfl, hlag⟩

/-- A later transfer is charged for just as long as it takes if the cores take turns, unless its
slot is overlooked. -/
theorem nextDelay_aligned {prev : Transfer} {d : Nat} {next : Tracker}
    (h : nextDelay s prev time latency = .ok (d, next)) (hturns : s.interval = s.cores * s.slot)
    (haligned : (Tracker.mk (some prev)).Aligned s core origin time) :
    (d = s.span core (origin + time) latency ∨
      (Tracker.mk (some prev)).overlooks s time latency = true ∧ d = latency) ∧
      next.Aligned s core origin (time + d) := by
  obtain ⟨hbefore, granted, hgranted, hlag⟩ := haligned prev rfl
  have htime : origin + time = origin + granted + (time - prev.finish + prev.latency) := by omega
  have hnow := s.lag_add core (origin + granted) (time - prev.finish + prev.latency)
  rw [← htime, hlag, Nat.zero_add] at hnow
  have hlt := Nat.mod_lt (time - prev.finish + prev.latency) s.interval_pos
  have hsplit := Nat.mod_add_div' (time - prev.finish + prev.latency) s.interval
  -- the slots of one round fill it, so those granted since end with a slot of the core
  have hslots : ∀ round, (round * s.cores + 1) * s.slot = round * s.interval + s.slot := by
    intro round
    rw [Nat.add_mul, Nat.mul_assoc, ← hturns, Nat.one_mul]
  have hcases := nextDelay_eq_ok h
  simp only [hslots] at hcases
  rcases hcases with ⟨hfits, rfl, rfl⟩ | ⟨hlater, hd, rfl⟩
  · refine ⟨?_, haligned.mono (Nat.le_add_right _ _)⟩
    -- a transfer that is charged its latency alone fits its slot, or comes close to the one before
    by_cases hroom : s.lag core (origin + time) + d ≤ s.slot
    · rw [Schedule.span, if_pos hroom]
      exact .inl rfl
    · rw [hnow] at hroom
      refine .inr ⟨overlooks_iff.mpr ?_, rfl⟩
      omega
  · have hwait : d = s.interval - (time - prev.finish + prev.latency) % s.interval + latency := by
      rw [hd, Nat.succ_mul]
      omega
    refine ⟨.inl ?_, ?_⟩
    · rw [Schedule.span, if_neg, hnow, hwait]
      rw [hnow]
      omega
    · intro prev' hprev
      obtain rfl := Option.some.inj hprev
      refine ⟨Nat.le_refl _, time + (d - latency), ?_, ?_⟩
      · show time + d = time + (d - latency) + latency
        omega
      rw [← Nat.add_assoc, s.lag_add, hnow, hwait, Nat.add_sub_cancel,
        Nat.add_sub_cancel' (Nat.le_of_lt hlt), Nat.mod_self]

/-- A transfer is charged for at least as long as it takes, if time is counted such that a slot
starts with the first one. -/
theorem delay_aligned {d : Nat} {next : Tracker}
    (h : (t.delay s time latency).result = .ok (d, next)) (hturns : s.interval = s.cores * s.slot)
    (hfull : latency = s.slot) (haligned : t.Aligned s core origin time)
    (hfirst : t.latest = none → s.lag core (origin + time) = 0) :
    s.span core (origin + time) latency ≤ d ∧ next.Aligned s core origin (time + d) := by
  have hdelay := delay_eq_ok h
  rcases t with ⟨_ | prev⟩
  · have hlag := hfirst rfl
    obtain ⟨hle, hnext⟩ := firstDelay_aligned hdelay hlag
    refine ⟨?_, hnext⟩
    rw [Schedule.span, if_pos (by omega)]
    exact hle
  · obtain ⟨hcharge, hnext⟩ := nextDelay_aligned hdelay hturns haligned
    refine ⟨?_, hnext⟩
    rcases hcharge with rfl | ⟨hoverlooked, -⟩
    · exact Nat.le_refl _
    · -- a transfer that fills its slot is never close to the one before
      have hclose := (overlooks_iff.mp hoverlooked).1
      omega

end Aligned

end CycleBounds.Bus.Tracker
