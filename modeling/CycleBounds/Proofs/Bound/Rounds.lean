import CycleBounds.Proofs.Bound.Bodies

/-!
# Loops in time

What the treatments of loops do to the stamps of blocks. An unrolled loop is followed round by round
(`Rounds`), and a loop that is bounded by its offsets is followed for one round and then takes the
weight of a walk (`Walked`); in the end the loop is left at one time, whatever the treatment.

* `Rounds.exit_stamp`: the header and the sink of an unrolled loop finish with its last round.
* `loopAt_eq_ok`, `procedureAt_eq_ok`: what a loop and a call do.
* `innerStamps_loopAt`: loops stamp their own blocks, none of them before they are entered.
-/

namespace CycleBounds.Bound.Engine

open Code (Procedure Loop)

variable {e : Engine} {scenario : Scenario} {call : Call} {p : Procedure} {l n : Nat} {loop : Loop}
  {body : Body} {context : Context} {entry : Stamp} {progress progress' : Progress}

theorem stampOf_eq_ok {times : Table Nat Stamp} {b : Nat} {s : Stamp} :
    stampOf times b = .ok s ↔ times.get? b = some s := by
  unfold stampOf
  cases times.get? b with
  | none => simp
  | some t => simp

theorem get?_spread {relative : Bool} {start finish b : Nat} :
    (spread relative p loop start finish progress).times.get? b =
      if b ∈ loop.blocks then some ⟨start, finish, .start⟩ else progress.times.get? b := by
  have htimes : (spread relative p loop start finish progress).times =
      loop.blocks.foldl (fun times b => times.insert b ⟨start, finish, .start⟩) progress.times :=
    (List.foldl_hom Progress.times fun _ _ => rfl).symm
  rw [htimes, Table.get?_foldl_insert]

/-! ### Rounds -/

/-- An unrolled loop leads from `progress` to `progress'`. The stamps before its rounds, and what
has been timed by then, are given by `g`. In the end, the header is stamped with the end of the
last round. -/
structure Rounds (body : Body) (scenario : Scenario) (loop : Loop) (context : Context)
    (entry : Stamp) (progress progress' : Progress) (n : Nat) (g : Nat → Stamp × Progress) :
    Prop where
  count : iterations scenario loop = .ok n
  pos : 0 < n
  start : g 0 = (entry, progress)
  runs : ∀ k < n, (body scenario false (context.nest (if k = 0 then .first else .steady)) (g k).1
    (g k).2).result = .ok (g (k + 1)).2
  sink : ∀ k < n, (g (k + 1)).2.times.get? loop.sink = some (g (k + 1)).1
  le : ∀ k < n, (g k).1.finish ≤ (g (k + 1)).1.finish
  times : progress'.times =
    (g n).2.times.insert loop.header { (g n).1 with start := entry.finish }

/-- An iteration ends with the stamp of the sink, which is not before the stamp it starts from. -/
theorem iteration_eq_ok {it : Iteration} {s s' : Stamp × Progress}
    (h : (iteration body scenario false p l loop context it s).result = .ok s') :
    (body scenario false (context.nest it) s.1 s.2).result = .ok s'.2 ∧
      s'.2.times.get? loop.sink = some s'.1 ∧ s.1.finish ≤ s'.1.finish := by
  simp only [iteration, Traced.result_bind, Traced.result_liftM_except, Traced.result_pure] at h
  obtain ⟨context', henter, h⟩ := bind_eq_ok.mp h
  obtain ⟨progress, hbody, h⟩ := bind_eq_ok.mp h
  obtain ⟨sink, hsink, h⟩ := bind_eq_ok.mp h
  obtain ⟨⟨⟩, hle, h⟩ := bind_eq_ok.mp h
  obtain rfl := Except.ok.inj h
  rw [mapError_eq_ok] at henter hsink hle
  obtain rfl := Context.enter_eq_ok henter
  exact ⟨hbody, stampOf_eq_ok.mp hsink, of_decide_eq_true (assume_eq_ok.mp hle)⟩

theorem iterations_pos (hbound : 0 < loop.bound) (h : iterations scenario loop = .ok n) :
    0 < n := by
  unfold iterations at h
  split at h
  · obtain ⟨-, rfl⟩ := Word.add_eq_ok_iff.mp h
    exact Nat.succ_pos _
  · exact Except.ok.inj h ▸ hbound

/-- An unrolled loop runs round by round, and its header is stamped once more in the end. -/
theorem unroll_stamps (hbound : 0 < loop.bound)
    (h : (unroll body scenario false p l loop context entry progress).result = .ok progress') :
    ∃ n g, Rounds body scenario loop context entry progress progress' n g ∧
      progress' = (g n).2.stamp false p.id loop.header { (g n).1 with start := entry.finish } := by
  simp only [unroll, Traced.result_bind, Traced.result_liftM_except, Traced.result_emit,
    Traced.result_pure] at h
  obtain ⟨n, hn, h⟩ := bind_eq_ok.mp h
  obtain ⟨s₁, hfirst, h⟩ := bind_eq_ok.mp h
  obtain ⟨⟨last, progress₁⟩, hsteady, h⟩ := bind_eq_ok.mp h
  obtain ⟨⟨⟩, -, h⟩ := bind_eq_ok.mp h
  obtain rfl := Except.ok.inj h
  rw [mapError_eq_ok] at hn
  have hpos := iterations_pos hbound hn
  obtain ⟨m, rfl⟩ := Nat.exists_eq_succ_of_ne_zero (Nat.ne_of_gt hpos)
  -- the first round leads to where the steady ones start
  obtain ⟨g, rfl, hlast, hstep⟩ := Traced.iterate_stages hsteady
  obtain ⟨g', hzero, hsucc, hround⟩ := exists_steps_cons (R := fun k s s' =>
    (iteration body scenario false p l loop context (if k = 0 then .first else .steady) s).result =
      .ok s') hfirst hstep
  have hlast' : g' (m + 1) = (last, progress₁) := (hsucc m).trans hlast
  refine ⟨m + 1, g', ⟨hn, hpos, hzero, ?_, ?_, ?_, ?_⟩, ?_⟩
  · exact fun k hk => (iteration_eq_ok (hround k hk)).1
  · exact fun k hk => (iteration_eq_ok (hround k hk)).2.1
  · exact fun k hk => (iteration_eq_ok (hround k hk)).2.2
  · rw [hlast']
    rfl
  · rw [hlast']

theorem unroll_eq_ok (hbound : 0 < loop.bound)
    (h : (unroll body scenario false p l loop context entry progress).result = .ok progress') :
    ∃ n g, Rounds body scenario loop context entry progress progress' n g := by
  obtain ⟨n, g, hg, -⟩ := unroll_stamps hbound h
  exact ⟨n, g, hg⟩

/-- The body of a loop stamps the blocks of the loop, none of which finishes before its header. -/
structure BodyStamps (scenario : Scenario) (p : Procedure) (l : Nat) (loop : Loop) (body : Body) :
    Prop where
  outside : ∀ {context s progress progress' b},
    (body scenario false context s progress).result = .ok progress' → ¬ p.Inside (some l) b →
    progress'.times.get? b = progress.times.get? b
  stamped : ∀ {context s progress progress' b},
    (body scenario false context s progress).result = .ok progress' → p.Inside (some l) b →
    ∃ o, progress'.times.get? b = some o ∧ s.finish ≤ o.finish
  header_le : ∀ {context s progress progress' b o o'},
    (body scenario false context s progress).result = .ok progress' →
    progress'.times.get? loop.header = some o → b ∈ loop.blocks →
    progress'.times.get? b = some o' → o.finish ≤ o'.finish

namespace Rounds

variable {g : Nat → Stamp × Progress}

theorem start_finish (hg : Rounds body scenario loop context entry progress progress' n g) :
    (g 0).1.finish = entry.finish := by
  rw [hg.start]

theorem chain (hg : Rounds body scenario loop context entry progress progress' n g) {k m : Nat}
    (hkm : k ≤ m) (hm : m ≤ n) : (g k).1.finish ≤ (g m).1.finish := by
  induction m, hkm using Nat.le_induction with
  | base => exact Nat.le_refl _
  | succ m _ ih => exact Nat.le_trans (ih (Nat.le_of_succ_le hm)) (hg.le m hm)

/-- An unrolled loop leaves the stamps of blocks outside of it alone. -/
theorem outside (hg : Rounds body scenario loop context entry progress progress' n g)
    (hp : p.WellFormed) (hbody : BodyStamps scenario p l loop body)
    (hl : p.loops[l]? = some loop) {b : Nat} (hb : ¬ p.Inside (some l) b) :
    progress'.times.get? b = progress.times.get? b := by
  have hheader : b ≠ loop.header := by
    rintro rfl
    exact hb ((Procedure.inside_loop hl).mpr (hp.header_mem hl))
  have hall : ∀ k ≤ n, (g k).2.times.get? b = (g 0).2.times.get? b := by
    intro k hk
    induction k with
    | zero => rfl
    | succ k ih => rw [hbody.outside (hg.runs k hk) hb, ih (Nat.le_of_succ_le hk)]
  rw [hg.times, Table.get?_insert_of_ne _ hheader, hall n (Nat.le_refl n), hg.start]

/-- In every round, the header and the sink finish before the last round ends. -/
theorem finish_le (hg : Rounds body scenario loop context entry progress progress' n g)
    (hbody : BodyStamps scenario p l loop body) (hsink : loop.sink ∈ loop.blocks)
    {k b : Nat} (hk : k < n) (hb : b = loop.header ∨ b = loop.sink) {o : Stamp}
    (ho : (g (k + 1)).2.times.get? b = some o) : o.finish ≤ (g n).1.finish := by
  apply Nat.le_trans _ (hg.chain hk (Nat.le_refl n))
  rcases hb with rfl | rfl
  · exact hbody.header_le (hg.runs k hk) ho hsink (hg.sink k hk)
  · rw [Option.some.inj (ho.symm.trans (hg.sink k hk))]

/-- The header and the sink are stamped with the end of the last round. -/
theorem exit_stamp (hg : Rounds body scenario loop context entry progress progress' n g) {b : Nat}
    (hb : b = loop.header ∨ b = loop.sink) :
    ∃ o, progress'.times.get? b = some o ∧ o.finish = (g n).1.finish := by
  rw [hg.times]
  by_cases hheader : b = loop.header
  · rw [hheader]
    exact ⟨_, Table.get?_insert_self _ _ _, rfl⟩
  · obtain ⟨m, rfl⟩ := Nat.exists_eq_succ_of_ne_zero (Nat.ne_of_gt hg.pos)
    rw [Table.get?_insert_of_ne _ hheader, hb.resolve_left hheader]
    exact ⟨_, hg.sink m (Nat.lt_succ_self m), rfl⟩

/-- No block finishes before the loop is entered. -/
theorem stamped (hg : Rounds body scenario loop context entry progress progress' n g)
    (hbody : BodyStamps scenario p l loop body) {b : Nat}
    (hb : p.Inside (some l) b) :
    ∃ o, progress'.times.get? b = some o ∧ entry.finish ≤ o.finish := by
  rw [← hg.start_finish]
  by_cases hheader : b = loop.header
  · obtain ⟨o, ho, hfinish⟩ := hg.exit_stamp (.inl hheader)
    exact ⟨o, ho, hfinish ▸ hg.chain (Nat.zero_le n) (Nat.le_refl n)⟩
  · obtain ⟨m, rfl⟩ := Nat.exists_eq_succ_of_ne_zero (Nat.ne_of_gt hg.pos)
    obtain ⟨o, ho, hle⟩ := hbody.stamped (hg.runs m (Nat.lt_succ_self m)) hb
    rw [hg.times, Table.get?_insert_of_ne _ hheader]
    exact ⟨o, ho, Nat.le_trans (hg.chain (Nat.zero_le m) (Nat.le_succ m)) hle⟩

end Rounds

/-! ### Walks through offsets -/

/-- The offset graph of the steady iterations of a loop, the first of which starts at a time. -/
def Explored (body : Body) (schedule : Bus.Schedule) (loop : Loop) (context : Context)
    (time : Nat) (g : Offset.Graph) : Prop :=
  ∃ g₀ g₁ start new, Offset.Graph.empty schedule.interval = .ok g₀ ∧
    (explore body loop context schedule.interval (g₀.addNode time).1 [start]).result = .ok g₁ ∧
    (g₀.addNode time).2 = (start, new) ∧ g₁.connect start = .ok g

/-- A loop that is bounded by its offsets leads from `progress` to `progress'`. It is followed up to
`progress₁` for one round, which ends with the stamp `first`, and the other rounds take `value`. -/
structure Walked (e : Engine) (body : Body) (schedule : Bus.Schedule) (scenario : Scenario)
    (p : Procedure) (loop : Loop) (context : Context) (entry : Stamp)
    (progress progress' : Progress) (n : Nat) (progress₁ : Progress) (first : Stamp)
    (value : Nat) : Prop where
  count : iterations scenario loop = .ok n
  pos : 0 < n
  run : (body scenario false (context.nest .first) entry progress).result = .ok progress₁
  sink : progress₁.times.get? loop.sink = some first
  times : progress'.times =
    (spread false p loop entry.finish (first.finish + value) progress₁).times
  ledger : ∃ graphs, progress'.ledger =
    { (spread false p loop entry.finish (first.finish + value) progress₁).ledger with graphs }
  once : n = 1 → value = 0
  more : n ≠ 1 → ∃ g solution, Explored body schedule loop context first.finish g ∧
    (e.solver.solve g (.ofScenario scenario) (n - 1)).result = .ok solution ∧
    solution.value = value

/-- A loop that is bounded by its offsets ends with its first round if there is no other. Otherwise
the graph of the other rounds is solved, and stored. -/
theorem byOffsets_cases {schedule : Bus.Schedule}
    (h : (e.byOffsets body schedule scenario false p l loop context entry progress).result =
      .ok progress') :
    ∃ n progress₁ first, iterations scenario loop = .ok n ∧ 0 < n ∧
      (body scenario false (context.nest .first) entry progress).result = .ok progress₁ ∧
      progress₁.times.get? loop.sink = some first ∧
      (n = 1 ∧ progress' = spread false p loop entry.finish first.finish progress₁ ∨
        n ≠ 1 ∧ ∃ g solution, Explored body schedule loop context first.finish g ∧
          (e.solver.solve g (.ofScenario scenario) (n - 1)).result = .ok solution ∧
          let left := spread false p loop entry.finish (first.finish + solution.value) progress₁
          let graphs := left.ledger.graphs ++ [(p.id, l, g)]
          progress' = { left with ledger := { left.ledger with graphs } }) := by
  simp only [byOffsets, Traced.result_bind, Traced.result_liftM_except] at h
  obtain ⟨context', henter, h⟩ := bind_eq_ok.mp h
  obtain ⟨progress₁, hrun, h⟩ := bind_eq_ok.mp h
  obtain ⟨first, hsink, h⟩ := bind_eq_ok.mp h
  obtain ⟨n, hn, h⟩ := bind_eq_ok.mp h
  obtain ⟨steady, hsteady, h⟩ := bind_eq_ok.mp h
  rw [mapError_eq_ok] at henter hsink hn hsteady
  obtain rfl := Context.enter_eq_ok henter
  obtain ⟨hpos, rfl⟩ := Word.sub_eq_ok_iff.mp hsteady
  refine ⟨n, progress₁, first, hn, hpos, hrun, stampOf_eq_ok.mp hsink, ?_⟩
  -- without further rounds there is no graph
  split at h
  · exact .inl ⟨by omega, (Except.ok.inj h).symm⟩
  · simp only [Traced.result_bind, Traced.result_liftM_except, Traced.result_emit] at h
    obtain ⟨g₀, hempty, h⟩ := bind_eq_ok.mp h
    obtain ⟨g₁, hexplore, h⟩ := bind_eq_ok.mp h
    obtain ⟨g, hconnect, h⟩ := bind_eq_ok.mp h
    obtain ⟨⟨⟩, -, h⟩ := bind_eq_ok.mp h
    obtain ⟨solution, hsolve, h⟩ := bind_eq_ok.mp h
    obtain ⟨⟨⟩, -, h⟩ := bind_eq_ok.mp h
    obtain ⟨finish, hfinish, h⟩ := bind_eq_ok.mp h
    rw [mapError_eq_ok] at hempty hconnect hfinish
    obtain ⟨-, rfl⟩ := Word.add_eq_ok_iff.mp hfinish
    exact .inr ⟨by omega, g, solution, ⟨g₀, g₁, _, _, hempty, hexplore, rfl, hconnect⟩,
      mapError_eq_ok.mp hsolve, (Except.ok.inj h).symm⟩

theorem byOffsets_eq_ok {schedule : Bus.Schedule}
    (h : (e.byOffsets body schedule scenario false p l loop context entry progress).result =
      .ok progress') :
    ∃ n progress₁ first value,
      Walked e body schedule scenario p loop context entry progress progress' n progress₁ first
        value := by
  obtain ⟨n, progress₁, first, hn, hpos, hrun, hsink, hcases⟩ := byOffsets_cases h
  rcases hcases with ⟨hone, rfl⟩ | ⟨hmore, g, solution, hexplored, hsolve, rfl⟩
  · exact ⟨n, progress₁, first, 0, hn, hpos, hrun, hsink, rfl, ⟨_, rfl⟩, fun _ => rfl,
      fun hmore => absurd hone hmore⟩
  · exact ⟨n, progress₁, first, solution.value, hn, hpos, hrun, hsink, rfl, ⟨_, rfl⟩,
      fun hone => absurd hone hmore, fun _ => ⟨g, solution, hexplored, hsolve, rfl⟩⟩

/-! ### Loops -/

/-- The body of a loop in which at most `n` further loops are nested. -/
def bodyOf (e : Engine) (call : Call) (p : Procedure) (n l : Nat) (loop : Loop) : Body :=
  fun scenario relative context =>
    e.region call (e.loopAt call p n) scenario relative p (some l) context loop.order

/-- A loop is passed if its bound is zero, and otherwise treated as the platform has it. -/
theorem loopAt_eq_ok {relative : Bool}
    (h : (e.loopAt call p (n + 1) scenario relative l context entry progress).result =
      .ok progress') :
    ∃ loop, p.loops[l]? = some loop ∧
      (loop.bound = 0 ∧ progress' = spread relative p loop entry.finish entry.finish progress ∨
        0 < loop.bound ∧ (e.loop (bodyOf e call p n l loop) scenario relative p l loop context
          entry progress).result = .ok progress') := by
  simp only [loopAt, Traced.result_bind, Traced.result_liftM_except] at h
  obtain ⟨loop, hloop, h⟩ := bind_eq_ok.mp h
  rw [mapError_eq_ok] at hloop
  refine ⟨loop, entryAt_eq_ok.mp hloop, ?_⟩
  split at h
  · rename_i hzero
    simp only [Traced.result_bind, Traced.result_emit, Traced.result_pure] at h
    obtain ⟨⟨⟩, -, h⟩ := bind_eq_ok.mp h
    exact .inl ⟨hzero, (Except.ok.inj h).symm⟩
  · rename_i hpos
    exact .inr ⟨Nat.pos_of_ne_zero hpos, h⟩

/-- The visit of a header passes its loop, or treats it as the platform has it. -/
theorem visit_loop {relative : Bool} {region : Option Nat} {r : Nat}
    (hh : p.headerOf? r = some l) (hne : some l ≠ region) (hl : p.loops[l]? = some loop)
    (h : (e.visit call (e.loopAt call p n) scenario relative p region context r entry
      progress).result = .ok progress') :
    loop.bound = 0 ∧ progress' = spread relative p loop entry.finish entry.finish progress ∨
      0 < loop.bound ∧ ∃ m, (e.loop (bodyOf e call p m l loop) scenario relative p l loop context
        entry progress).result = .ok progress' := by
  have hinner := visit_of_header hh hne h
  cases n with
  | zero => cases hinner
  | succ m =>
    obtain ⟨loop', hl', hcases⟩ := loopAt_eq_ok hinner
    obtain rfl := Option.some.inj (hl.symm.trans hl')
    exact hcases.imp_right fun ⟨hbound, hloop⟩ => ⟨hbound, m, hloop⟩

/-- What summarising a loop does: the loop costs what is extrapolated from its summary. -/
theorem summarize_eq_ok {relative : Bool} {start : Nat}
    (h : (e.summarize body scenario relative p l loop context start progress).result =
      .ok progress') :
    ∃ costs ledger n cost, (summary body scenario p loop context progress.ledger).result =
        .ok (costs, ledger) ∧ iterations scenario loop = .ok n ∧
      extrapolate scenario ((e.platform.bus.timed?.map (·.interval)).getD 0) costs.1 costs.2
        (n - 1) = .ok cost ∧
      progress' = spread relative p loop start (start + cost) { progress with ledger } := by
  simp only [summarize, Traced.result_bind, Traced.result_liftM_except, Traced.result_emit] at h
  obtain ⟨⟨costs, ledger⟩, hsummary, h⟩ := bind_eq_ok.mp h
  obtain ⟨n, hn, h⟩ := bind_eq_ok.mp h
  obtain ⟨rest, hrest, h⟩ := bind_eq_ok.mp h
  rw [mapError_eq_ok] at hn hrest
  obtain ⟨-, rfl⟩ := Word.sub_eq_ok_iff.mp hrest
  obtain ⟨cost, hcost, h⟩ := bind_eq_ok.mp h
  obtain ⟨⟨⟩, -, h⟩ := bind_eq_ok.mp h
  obtain ⟨finish, hfinish, h⟩ := bind_eq_ok.mp h
  rw [mapError_eq_ok] at hcost hfinish
  obtain ⟨-, rfl⟩ := Word.add_eq_ok_iff.mp hfinish
  exact ⟨costs, ledger, n, cost, hsummary, hn, hcost, (Except.ok.inj h).symm⟩

/-- A loop is unrolled, bounded by its offsets or summarised. -/
theorem loop_eq_ok
    (h : (e.loop body scenario false p l loop context entry progress).result = .ok progress') :
    (e.platform.loops ≠ .summarize ∧
      (unroll body scenario false p l loop context entry progress).result = .ok progress') ∨
    (∃ schedule, e.platform.loops = .offsets ∧ e.platform.bus.timed? = some schedule ∧
      (e.byOffsets body schedule scenario false p l loop context entry progress).result =
        .ok progress') ∨
    (e.platform.loops = .summarize ∧
      (e.summarize body scenario false p l loop context entry.finish progress).result =
        .ok progress') := by
  unfold Engine.loop at h
  split at h
  · rename_i hloops
    exact .inr (.inr ⟨hloops, h⟩)
  · rename_i schedule hloops htimed
    exact .inr (.inl ⟨schedule, hloops, htimed, h⟩)
  · rename_i hnot _
    exact .inl ⟨hnot, h⟩

theorem bodyStamps_bodyOf (hp : p.WellFormed)
    (hinner : InnerStamps scenario false p (e.loopAt call p n)) (hl : p.loops[l]? = some loop) :
    BodyStamps scenario p l loop (bodyOf e call p n l loop) := by
  unfold bodyOf
  rw [← Procedure.orderOf_loop hl]
  constructor
  case outside => exact fun h hb => region_outside hp hinner h hb
  case stamped => exact fun h hb => region_stamped hp hinner h hb
  case header_le => exact fun h ho hb ho' => header_finish_le hp hinner hl h ho hb ho'

/-- A loop leaves the stamps of other blocks alone. -/
theorem loop_outside (hp : p.WellFormed) (hl : p.loops[l]? = some loop) (hbound : 0 < loop.bound)
    (hbody : BodyStamps scenario p l loop body)
    (h : (e.loop body scenario false p l loop context entry progress).result = .ok progress')
    {b : Nat} (hb : ¬ p.Inside (some l) b) :
    progress'.times.get? b = progress.times.get? b := by
  have hmem : b ∉ loop.blocks := fun hmem => hb ((Procedure.inside_loop hl).mpr hmem)
  rcases loop_eq_ok h with ⟨-, h⟩ | ⟨schedule, -, -, h⟩ | ⟨-, h⟩
  · obtain ⟨n, g, hg⟩ := unroll_eq_ok hbound h
    exact hg.outside hp hbody hl hb
  · obtain ⟨n, progress₁, first, value, hw⟩ := byOffsets_eq_ok h
    rw [hw.times, get?_spread, if_neg hmem]
    exact hbody.outside hw.run hb
  · obtain ⟨costs, ledger, n, cost, -, -, -, rfl⟩ := summarize_eq_ok h
    rw [get?_spread, if_neg hmem]

/-- No block of a loop finishes before the loop is entered. -/
theorem loop_stamped (hp : p.WellFormed) (hl : p.loops[l]? = some loop) (hbound : 0 < loop.bound)
    (hbody : BodyStamps scenario p l loop body)
    (h : (e.loop body scenario false p l loop context entry progress).result = .ok progress')
    {b : Nat} (hb : p.Inside (some l) b) :
    ∃ o, progress'.times.get? b = some o ∧ entry.finish ≤ o.finish := by
  have hmem : b ∈ loop.blocks := (Procedure.inside_loop hl).mp hb
  rcases loop_eq_ok h with ⟨-, h⟩ | ⟨schedule, -, -, h⟩ | ⟨-, h⟩
  · -- unrolled: the last round stamps the block
    obtain ⟨n, g, hg⟩ := unroll_eq_ok hbound h
    exact hg.stamped hbody hb
  · obtain ⟨n, progress₁, first, value, hw⟩ := byOffsets_eq_ok h
    -- by offsets: the first round has stamped the sink, and the others come on top of it
    obtain ⟨o, ho, hle⟩ := hbody.stamped hw.run (hp.sink_inside hl)
    obtain rfl := Option.some.inj (ho.symm.trans hw.sink)
    rw [hw.times, get?_spread, if_pos hmem]
    exact ⟨_, rfl, Nat.le_add_right_of_le hle⟩
  · -- summarised: all blocks get the stamp of the loop
    obtain ⟨costs, ledger, n, cost, -, -, -, rfl⟩ := summarize_eq_ok h
    rw [get?_spread, if_pos hmem]
    exact ⟨_, rfl, Nat.le_add_right _ _⟩

/-- Loops stamp their own blocks, none of which finishes before the loop is entered. -/
theorem innerStamps_loopAt (hp : p.WellFormed) (n : Nat) :
    InnerStamps scenario false p (e.loopAt call p n) := by
  induction n with
  | zero => exact ⟨nofun, nofun⟩
  | succ n ih =>
    constructor
    case outside =>
      intro l context s progress progress' b h hb
      -- a loop with bound zero is passed at once, any other one runs its body
      obtain ⟨loop, hl, ⟨-, rfl⟩ | ⟨hbound, hloop⟩⟩ := loopAt_eq_ok h
      · rw [get?_spread, if_neg fun hmem => hb ((Procedure.inside_loop hl).mpr hmem)]
      · exact loop_outside hp hl hbound (bodyStamps_bodyOf hp ih hl) hloop hb
    case stamped =>
      intro l context s progress progress' b h hb
      obtain ⟨loop, hl, ⟨-, rfl⟩ | ⟨hbound, hloop⟩⟩ := loopAt_eq_ok h
      · rw [get?_spread, if_pos ((Procedure.inside_loop hl).mp hb)]
        exact ⟨_, rfl, Nat.le_refl _⟩
      · exact loop_stamped hp hl hbound (bodyStamps_bodyOf hp ih hl) hloop hb

/-- A summarised loop stamps its blocks alike. -/
theorem loopAt_spread (hloops : e.platform.loops = .summarize) {relative : Bool}
    (h : (e.loopAt call p n scenario relative l context entry progress).result = .ok progress') :
    ∃ loop finish progress₁, p.loops[l]? = some loop ∧ entry.finish ≤ finish ∧
      progress₁.times = progress.times ∧
      progress' = spread relative p loop entry.finish finish progress₁ := by
  cases n with
  | zero => cases h
  | succ n =>
    obtain ⟨loop, hl, ⟨-, rfl⟩ | ⟨-, hloop⟩⟩ := loopAt_eq_ok h
    · exact ⟨loop, _, progress, hl, Nat.le_refl _, rfl, rfl⟩
    · simp only [Engine.loop, hloops] at hloop
      obtain ⟨costs, ledger, m, cost, -, -, -, rfl⟩ := summarize_eq_ok hloop
      exact ⟨loop, _, { progress with ledger }, hl, Nat.le_add_right _ _, rfl, rfl⟩

/-- Summarised loops do so in relative runs as well. -/
theorem innerStamps_summarize (hloops : e.platform.loops = .summarize) {relative : Bool} (n : Nat) :
    InnerStamps scenario relative p (e.loopAt call p n) := by
  constructor
  case outside =>
    intro l context s progress progress' b h hb
    obtain ⟨loop, finish, progress₁, hl, -, htimes, rfl⟩ := loopAt_spread hloops h
    rw [get?_spread, if_neg fun hmem => hb ((Procedure.inside_loop hl).mpr hmem), htimes]
  case stamped =>
    intro l context s progress progress' b h hb
    obtain ⟨loop, finish, progress₁, hl, hle, -, rfl⟩ := loopAt_spread hloops h
    rw [get?_spread, if_pos ((Procedure.inside_loop hl).mp hb)]
    exact ⟨_, rfl, hle⟩

/-! ### Procedures -/

variable {q start : Nat} {ledger ledger' : Ledger} {timing : Timing}

/-- A procedure finishes with the most extreme of the blocks through which it is left. -/
theorem exitTime_eq_ok {times : Table Nat Stamp} {finish : Nat}
    (h : exitTime scenario p times = .ok finish) :
    (∃ b ∈ p.sinks, ∃ o, times.get? b = some o ∧ o.finish = finish) ∧
      ∀ b o, b ∈ p.sinks → times.get? b = some o → scenario.exceeds o.finish finish = false := by
  -- the times to choose from are those of the sinks that have stamps
  have hmem : ∀ {t}, t ∈ (p.sinks.filterMap times.get?).map (·.finish) ↔
      ∃ b ∈ p.sinks, ∃ o, times.get? b = some o ∧ o.finish = t := by
    intro t
    simp only [List.mem_map, List.mem_filterMap]
    constructor
    · rintro ⟨o, ⟨b, hb, ho⟩, ht⟩
      exact ⟨b, hb, o, ho, ht⟩
    · rintro ⟨b, hb, o, ho, ht⟩
      exact ⟨o, ⟨b, hb, ho⟩, ht⟩
  unfold exitTime at h
  cases hlist : (p.sinks.filterMap times.get?).map (·.finish) with
  | nil =>
    rw [hlist] at h
    cases h
  | cons f rest =>
    rw [hlist] at h hmem
    obtain ⟨hfinish, hall⟩ := scenario.foldl_exceeds id f rest
    rw [← Except.ok.inj h]
    exact ⟨hmem.mp hfinish, fun b o hb ho => hall _ (hmem.mpr ⟨b, hb, o, ho, rfl⟩)⟩

/-- The results after a call, which is not recorded if it is relative. -/
def recorded (relative : Bool) (q : Nat) (timing : Timing) (ledger : Ledger) : Ledger :=
  if relative then ledger else { ledger with procedures := ledger.procedures.insert q timing }

/-- A call times the body of the procedure and records the timing. -/
theorem procedureAt_recorded {relative : Bool}
    (h : (e.procedureAt (n + 1) scenario relative q start ledger).result = .ok (timing, ledger')) :
    ∃ p progress finish, e.program.procedures[q]? = some p ∧
      (e.region (e.procedureAt n) (e.loopAt (e.procedureAt n) p p.loops.length) scenario false p
        none .root (p.orderOf none) (.moment start) ⟨∅, ledger⟩).result = .ok progress ∧
      exitTime scenario p progress.times = .ok finish ∧ start ≤ finish ∧
      timing = ⟨start, finish, finish - start⟩ ∧
      ledger' = recorded relative q timing progress.ledger := by
  simp only [procedureAt, Traced.result_bind, Traced.result_liftM_except, Traced.result_emit] at h
  obtain ⟨p, hp, h⟩ := bind_eq_ok.mp h
  obtain ⟨progress, hregion, h⟩ := bind_eq_ok.mp h
  obtain ⟨finish, hexit, h⟩ := bind_eq_ok.mp h
  obtain ⟨⟨⟩, hle, h⟩ := bind_eq_ok.mp h
  obtain ⟨⟨⟩, -, h⟩ := bind_eq_ok.mp h
  rw [mapError_eq_ok] at hp hexit hle
  have hle := of_decide_eq_true (assume_eq_ok.mp hle)
  cases relative with
  | false =>
    obtain ⟨rfl, rfl⟩ := Prod.mk.inj (Except.ok.inj h)
    exact ⟨p, progress, finish, entryAt_eq_ok.mp hp, hregion, hexit, hle, rfl, rfl⟩
  | true =>
    obtain ⟨rfl, rfl⟩ := Prod.mk.inj (Except.ok.inj h)
    exact ⟨p, progress, finish, entryAt_eq_ok.mp hp, hregion, hexit, hle, rfl, rfl⟩

theorem summaries_recorded {relative : Bool} :
    (recorded relative q timing ledger).summaries = ledger.summaries := by
  cases relative <;> rfl

/-- A call takes from its start until the procedure finishes. -/
theorem procedureAt_eq_ok {relative : Bool}
    (h : (e.procedureAt (n + 1) scenario relative q start ledger).result = .ok (timing, ledger')) :
    ∃ p progress, e.program.procedures[q]? = some p ∧
      (e.region (e.procedureAt n) (e.loopAt (e.procedureAt n) p p.loops.length) scenario false p
        none .root (p.orderOf none) (.moment start) ⟨∅, ledger⟩).result = .ok progress ∧
      exitTime scenario p progress.times = .ok timing.finish ∧ start + timing.cost = timing.finish ∧
      ledger'.summaries = progress.ledger.summaries := by
  obtain ⟨p, progress, finish, hp, hregion, hexit, hle, rfl, rfl⟩ := procedureAt_recorded h
  exact ⟨p, progress, hp, hregion, hexit, Nat.add_sub_cancel' hle, summaries_recorded⟩

theorem trace_of_analyze {entry : Nat} (h : (e.analyze entry start scenario).result = .ok timing) :
    ∃ ledger, (e.trace entry start scenario).result = .ok (timing, ledger) := by
  simp only [analyze, Traced.result_bind, Traced.result_pure] at h
  obtain ⟨⟨timing, ledger⟩, htrace, h⟩ := bind_eq_ok.mp h
  obtain rfl := Except.ok.inj h
  exact ⟨ledger, htrace⟩

/-- A timing is determined by its start and its cost. -/
theorem timing_of_trace {entry : Nat}
    (h : (e.trace entry start scenario).result = .ok (timing, ledger)) :
    timing = ⟨start, start + timing.cost, timing.cost⟩ := by
  obtain ⟨p, progress, finish, -, -, -, hle, rfl, -⟩ := procedureAt_recorded h
  show Timing.mk start finish (finish - start) = ⟨start, start + (finish - start), finish - start⟩
  rw [Nat.add_sub_cancel' hle]

end CycleBounds.Bound.Engine
