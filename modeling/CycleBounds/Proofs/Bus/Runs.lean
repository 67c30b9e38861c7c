import CycleBounds.Proofs.Bus.Slots
import CycleBounds.Proofs.Bus.Tracker

/-!
# Runs of transfers at an unknown alignment

A run issues transfers one after the other, each some time after the one before is complete. An
actual run starts at some time of the schedule, a tracked run starts at zero and has its delays from
a tracker. The tracked run is to last as long as every actual run, and it does up to two amounts:
the time to the next slot, where the first transfer of the actual run does not lie as well as the
tracker takes it to (`shortfall`), and a round for every transfer that the tracker overlooks.

* `Behind`: the actual run is not ahead of the tracked one, in a time that is counted such that a
  slot starts with the first tracked transfer.
* `Behind.serve`: a transfer keeps this, since a later one completes later.
* `behind_first`: how far ahead the tracked run is after the first transfer.
* `tracked_covers_actual`: how long a tracked run lasts.
-/

namespace CycleBounds.Bus

/-- A transfer that is issued some time after the one before it is complete. -/
structure Request where
  gap : Nat
  latency : Nat

/-- When a transfer of a core is complete that follows one that was complete at a time. -/
def Schedule.serve (s : Schedule) (core time : Nat) (r : Request) : Except Fault Nat := do
  let delay ← s.delay core (time + r.gap) r.latency
  return time + r.gap + delay

/-- A run whose delays come from a tracker, and the number of transfers overlooked so far. -/
structure Tracked where
  time : Nat
  tracker : Tracker
  overlooked : Nat

namespace Tracked

def start : Tracked := ⟨0, .start, 0⟩

/-- Issue a transfer as the next one of a tracked run. -/
def serve (s : Schedule) (x : Tracked) (r : Request) : Except Fault Tracked := do
  let (delay, tracker) ← (x.tracker.delay s (x.time + r.gap) r.latency).result
  let missed := if x.tracker.overlooks s (x.time + r.gap) r.latency then 1 else 0
  return { time := x.time + r.gap + delay, tracker, overlooked := x.overlooked + missed }

end Tracked

/-- What the first transfer of an actual run may cost beyond that of a tracked run: the time to the
next slot, and nothing if it fits into its slot and there are other cores or the slot starts with
it. -/
def Schedule.shortfall (s : Schedule) (core start : Nat) : List Request → Nat
  | [] => 0
  | r :: _ =>
    let lag := s.lag core (start + r.gap)
    if lag + r.latency ≤ s.slot ∧ (2 ≤ s.cores ∨ lag = 0) then 0 else s.interval - lag

/-- Cores that take turns fill a round. -/
theorem Schedule.interval_of_roundRobin {cores slot : Nat} {s : Schedule}
    (h : roundRobin cores slot = .ok s) : s.interval = s.cores * s.slot := by
  obtain ⟨interval, hinterval, h⟩ := bind_eq_ok.mp h
  obtain ⟨-, rfl⟩ := Word.mul_eq_ok_iff.mp (liftM_fault_eq_ok.mp hinterval)
  unfold ofStarts at h
  split at h
  · cases h
  split at h
  · obtain ⟨hfits, -, h⟩ := bind_eq_ok.mp h
    obtain rfl := pure_eq_ok.mp h
    simp [Schedule.cores]
  · cases h

/-! ### Both runs come to their end -/

variable {s : Schedule} {core : Nat} {r : Request}

theorem Schedule.serve_eq_ok {time finish : Nat} (h : s.serve core time r = .ok finish) :
    finish = time + r.gap + s.span core (time + r.gap) r.latency := by
  obtain ⟨delay, hdelay, h⟩ := bind_eq_ok.mp h
  rw [← Schedule.delay_eq_span hdelay]
  exact (pure_eq_ok.mp h).symm

theorem Schedule.ensures_serve (hcore : core < s.cores) (requests : List Request) (time : Nat) :
    Ensures (· = .overflow) (requests.foldlM (s.serve core) time) fun _ => True := by
  apply Ensures.foldlM_end
  intro r _ time
  exact (Schedule.ensures_delay hcore).bind fun delay _ _ => trivial

theorem Tracked.serve_eq_ok {x y : Tracked} (h : x.serve s r = .ok y) :
    ∃ delay, (x.tracker.delay s (x.time + r.gap) r.latency).result = .ok (delay, y.tracker) ∧
      y.time = x.time + r.gap + delay ∧
      y.overlooked = x.overlooked +
        if x.tracker.overlooks s (x.time + r.gap) r.latency then 1 else 0 := by
  obtain ⟨⟨delay, tracker⟩, hdelay, h⟩ := bind_eq_ok.mp h
  obtain rfl := pure_eq_ok.mp h
  exact ⟨delay, hdelay, rfl, rfl⟩

/-- A transfer that fills a slot with its gap is not taken to fit beside the one before. -/
theorem Tracked.overlooked_serve {x y : Tracked} (h : x.serve s r = .ok y)
    (hwide : s.slot ≤ r.gap + r.latency)
    (hbefore : ∀ prev, x.tracker.latest = some prev → prev.finish ≤ x.time) :
    y.overlooked = x.overlooked ∧ ∀ prev, y.tracker.latest = some prev → prev.finish ≤ y.time := by
  obtain ⟨delay, hdelay, htime, hoverlooked⟩ := Tracked.serve_eq_ok h
  have hnot : x.tracker.overlooks s (x.time + r.gap) r.latency = false := by
    rcases hlatest : x.tracker with ⟨_ | prev⟩
    · rfl
    · have hprev := hbefore prev (by rw [hlatest])
      rw [Bool.eq_false_iff, ne_eq, Tracker.overlooks_iff]
      omega
  rw [hnot] at hoverlooked
  refine ⟨hoverlooked, ?_⟩
  intro prev hprev
  have hfinish := Tracker.finish_le_of_delay hdelay ?_ prev hprev
  · rwa [← htime] at hfinish
  · intro prev hprev
    exact Nat.le_add_right_of_le (hbefore prev hprev)

/-- No request is overlooked if requests are at least a slot apart. -/
theorem Tracked.overlooked_run {requests : List Request} {x : Tracked}
    (hwide : ∀ r ∈ requests, s.slot ≤ r.gap + r.latency)
    (h : requests.foldlM (Tracked.serve s) .start = .ok x) : x.overlooked = 0 := by
  have hkeep : Ensures (fun _ => True) (requests.foldlM (Tracked.serve s) .start) fun x =>
      x.overlooked = 0 ∧ ∀ prev, x.tracker.latest = some prev → prev.finish ≤ x.time := by
    apply Ensures.foldlM_keep
    · rintro r hr x ⟨hnone, hbefore⟩
      apply Ensures.of_result
      intro y hy
      obtain ⟨hsame, hbefore'⟩ := Tracked.overlooked_serve hy (hwide r hr) hbefore
      exact ⟨hsame.trans hnone, hbefore'⟩
    · exact ⟨rfl, nofun⟩
  exact (hkeep.result h).1

theorem Tracked.ensures_serve (requests : List Request) (x : Tracked) :
    Ensures (· = .overflow) (requests.foldlM (Tracked.serve s) x) fun _ => True := by
  apply Ensures.foldlM_end
  intro r _ x
  exact Tracker.ensures_delay.bind fun next _ _ => trivial

/-! ### One run behind the other -/

variable {origin rounds : Nat}

/-- The actual run, moved by some rounds, is not ahead of the tracked one, whose time zero is the
origin, moved by a round per overlooked transfer. The latest tracked transfer that had to wait
started with a slot. -/
structure Behind (s : Schedule) (core origin rounds : Nat) (time : Nat) (x : Tracked) : Prop where
  le : time + rounds * s.interval ≤ origin + x.time + x.overlooked * s.interval
  aligned : x.tracker.Aligned s core origin x.time
  latest : x.tracker.latest ≠ none

theorem Schedule.span_le (s : Schedule) (core time latency : Nat) :
    s.span core time latency ≤ s.interval + latency := by
  rw [span]
  split <;> omega

/-- The tracker charges a later transfer for as long as it takes, or for at most a round less if it
overlooks it. -/
theorem Tracker.span_le_delay {t next : Tracker} {time latency d : Nat}
    (h : (t.delay s time latency).result = .ok (d, next)) (hturns : s.interval = s.cores * s.slot)
    (haligned : t.Aligned s core origin time) (hlatest : t.latest ≠ none) :
    s.span core (origin + time) latency ≤
        d + (if t.overlooks s time latency then 1 else 0) * s.interval ∧
      next.Aligned s core origin (time + d) := by
  have hdelay := delay_eq_ok h
  rcases t with ⟨_ | prev⟩
  · exact absurd rfl hlatest
  · obtain ⟨hcharge, hnext⟩ := nextDelay_aligned hdelay hturns haligned
    refine ⟨?_, hnext⟩
    rcases hcharge with rfl | ⟨hoverlooked, rfl⟩
    · exact Nat.le_add_right _ _
    · rw [if_pos hoverlooked, Nat.one_mul, Nat.add_comm d]
      exact s.span_le core _ d

/-- A transfer keeps the actual run behind: it completes no later than one that is issued when the
tracked run issues it, and that one takes no longer than it is charged for. -/
theorem Behind.serve {time : Nat} {x : Tracked} (hturns : s.interval = s.cores * s.slot)
    (h : Behind s core origin rounds time x) :
    Coupled (Behind s core origin rounds) (s.serve core time r) (x.serve s r) := by
  intro finish y hfinish hy
  obtain ⟨d, hdelay, htime, hoverlooked⟩ := Tracked.serve_eq_ok hy
  obtain ⟨hcharge, haligned⟩ := Tracker.span_le_delay hdelay hturns
    (h.aligned.mono (Nat.le_add_right _ r.gap)) h.latest
  refine ⟨?_, htime ▸ haligned, Tracker.latest_of_delay hdelay⟩
  have hissued : time + r.gap + rounds * s.interval ≤
      origin + (x.time + r.gap) + x.overlooked * s.interval := by
    have := h.le
    omega
  calc finish + rounds * s.interval
      = time + r.gap + rounds * s.interval +
          s.span core (time + r.gap + rounds * s.interval) r.latency := by
        rw [Schedule.serve_eq_ok hfinish, s.span_add_rounds]
        omega
    _ ≤ origin + (x.time + r.gap) + x.overlooked * s.interval +
          s.span core (origin + (x.time + r.gap) + x.overlooked * s.interval) r.latency :=
        s.add_span_mono hissued (Nat.le_refl _)
    _ ≤ origin + y.time + y.overlooked * s.interval := by
        rw [s.span_add_rounds, htime, hoverlooked, Nat.add_mul]
        omega

theorem Behind.run {time : Nat} {x : Tracked} (hturns : s.interval = s.cores * s.slot)
    (h : Behind s core origin rounds time x) (requests : List Request) :
    Coupled (Behind s core origin rounds) (requests.foldlM (s.serve core) time)
      (requests.foldlM (Tracked.serve s) x) :=
  Coupled.foldlM (fun _ _ _ _ hbehind => hbehind.serve hturns) h

/-- The first tracked transfer, in a time that is counted such that a slot starts with it. -/
theorem Tracked.serve_start {x : Tracked} (hx : Tracked.start.serve s r = .ok x)
    (horigin : s.lag core (origin + r.gap) = 0) :
    x.time = r.gap + (s.interval - s.slot + r.latency) ∧ x.overlooked = 0 ∧
      x.tracker.Aligned s core origin x.time ∧ x.tracker.latest ≠ none := by
  obtain ⟨d, hdelay, htime, hoverlooked⟩ := Tracked.serve_eq_ok hx
  simp only [Tracked.start, Nat.zero_add] at hdelay htime
  have hfirst : Tracker.firstDelay s r.gap r.latency = .ok (d, x.tracker) :=
    Tracker.delay_eq_ok hdelay
  obtain ⟨rfl, -⟩ := Tracker.firstDelay_eq_ok hfirst
  obtain ⟨-, haligned⟩ := Tracker.firstDelay_aligned hfirst horigin
  exact ⟨htime, hoverlooked, htime ▸ haligned, Tracker.latest_of_delay hdelay⟩

/-- After the first transfer, the actual run is behind the tracked one if the first tracked transfer
is taken to start with the next slot of the actual run. Where it may be taken to start with the slot
before, there is no shortfall. -/
theorem behind_first {start finish : Nat} {x : Tracked} (hcore : core < s.cores)
    (hturns : s.interval = s.cores * s.slot)
    (hfinish : s.serve core start r = .ok finish) (hx : Tracked.start.serve s r = .ok x)
    (rest : List Request) : ∃ origin rounds, Behind s core origin rounds finish x ∧
      origin ≤ start + rounds * s.interval + s.shortfall core start (r :: rest) := by
  have hlag := s.lag_lt core (start + r.gap)
  -- time is counted such that the first tracked transfer starts with the next slot of the core
  have hnext : s.lag core (start + (s.interval - s.lag core (start + r.gap)) + r.gap) = 0 := by
    rw [Nat.add_right_comm, s.lag_add, Nat.add_sub_cancel' (Nat.le_of_lt hlag), Nat.mod_self]
  obtain ⟨htime, hoverlooked, haligned, hlatest⟩ := Tracked.serve_start hx hnext
  have hslots : ∀ n ≤ s.cores, n * s.slot ≤ s.interval := by
    intro n hn
    rw [hturns]
    exact Nat.mul_le_mul_right _ hn
  have hslot := hslots 1 (by omega)
  have hspan := Schedule.serve_eq_ok hfinish
  rw [Schedule.span] at hspan
  rw [Schedule.shortfall]
  split
  · -- the first transfer is granted at once, so all may be taken to be a round earlier
    rename_i hgranted
    obtain ⟨hfits, hearly⟩ := hgranted
    have hroom : s.lag core (start + r.gap) + s.slot ≤ s.interval := by
      rcases hearly with hshared | hzero
      · have := hslots 2 hshared
        omega
      · omega
    rw [if_pos hfits] at hspan
    refine ⟨_, 1, ⟨?_, haligned, hlatest⟩, ?_⟩
    · rw [htime, hoverlooked]
      omega
    · omega
  · refine ⟨_, 0, ⟨?_, haligned, hlatest⟩, ?_⟩
    · rw [htime, hoverlooked]
      split at hspan <;> omega
    · omega

/-- A tracked run lasts for as long as an actual run, whenever this starts, up to the shortfall of
the first transfer and a round for every transfer that the tracker overlooks. It overlooks none if
the transfers fill a slot with their gaps. -/
theorem tracked_covers_actual {cores slot : Nat} (hs : Schedule.roundRobin cores slot = .ok s)
    (hcore : core < s.cores) (start : Nat) (requests : List Request) :
    Ensures (· = .overflow) (requests.foldlM (s.serve core) start) fun finish =>
      Ensures (· = .overflow) (requests.foldlM (Tracked.serve s) .start) fun tracked =>
        finish ≤ start + tracked.time + s.shortfall core start requests +
          tracked.overlooked * s.interval ∧
        ((∀ r ∈ requests, s.slot ≤ r.gap + r.latency) → tracked.overlooked = 0) := by
  have hturns := Schedule.interval_of_roundRobin hs
  apply (Schedule.ensures_serve hcore requests start).imp
  intro finish hfinish _
  apply (Tracked.ensures_serve requests .start).imp
  intro tracked htracked _
  refine ⟨?_, fun hwide => Tracked.overlooked_run hwide htracked⟩
  cases requests with
  | nil =>
    obtain rfl := pure_eq_ok.mp hfinish
    omega
  | cons r rest =>
    obtain ⟨first, hfirst, hfinish⟩ := foldlM_cons_eq_ok.mp hfinish
    obtain ⟨x, hx, htracked⟩ := foldlM_cons_eq_ok.mp htracked
    obtain ⟨origin, rounds, hbehind, horigin⟩ := behind_first hcore hturns hfirst hx rest
    have hle := (hbehind.run hturns rest finish tracked hfinish htracked).le
    omega

open Schedule (fourSlots)

/-- Three transfers, of which the first is granted at once, the second comes some rounds later and
the third just misses the slot of the second. -/
theorem tracked_covers_actual_four :
    let requests : List Request := [⟨4, 6⟩, ⟨60, 6⟩, ⟨5, 10⟩]
    ∃ tracked, requests.foldlM (Tracked.serve fourSlots) .start = .ok tracked ∧
      fourSlots.shortfall 0 80 requests = 0 ∧ tracked.overlooked = 0 ∧
      requests.foldlM (fourSlots.serve 0) 80 = .ok 210 ∧ 210 ≤ 80 + tracked.time := by
  intro requests
  have hs : Schedule.roundRobin 4 10 = .ok fourSlots := rfl
  have hcore : 0 < fourSlots.cores := by decide
  have hrun : requests.foldlM (fourSlots.serve 0) 80 = .ok 210 := by decide
  have htracked : ∃ tracked, requests.foldlM (Tracked.serve fourSlots) .start = .ok tracked :=
    ⟨_, rfl⟩
  obtain ⟨tracked, htracked⟩ := htracked
  have hcovers := tracked_covers_actual hs hcore 80 requests
  obtain ⟨hle, hoverlooked⟩ := (hcovers.result hrun).result htracked
  have hgranted : fourSlots.shortfall 0 80 requests = 0 := by decide
  have hnone := hoverlooked (by decide)
  refine ⟨tracked, htracked, hgranted, hnone, hrun, ?_⟩
  rw [hgranted, hnone] at hle
  omega

/-- A transfer that is issued late in the slot of its core takes longer than the first one of a
tracked run. A tracked run may be shorter even if its transfers start with a slot, when one of them
is taken to fit beside the one before. -/
theorem tracked_lt_actual :
    Schedule.roundRobin 4 10 = .ok fourSlots ∧
    [⟨0, 6⟩].foldlM (fourSlots.serve 0) 5 = .ok (5 + 41) ∧
    ([⟨0, 6⟩].foldlM (Tracked.serve fourSlots) .start).toOption.map (·.time) = some 36 ∧
    [⟨0, 6⟩, ⟨0, 6⟩, ⟨0, 6⟩].foldlM (fourSlots.serve 0) 0 = .ok 86 ∧
    ([⟨0, 6⟩, ⟨0, 6⟩, ⟨0, 6⟩].foldlM (Tracked.serve fourSlots) .start).toOption.map (·.time) =
      some 52 :=
  ⟨rfl, by decide, by decide, by decide, by decide⟩

end CycleBounds.Bus
