import CycleBounds.Proofs.Bound.Loops
import CycleBounds.Proofs.Cache.Soundness

/-!
# Bounds at worst

How long an execution takes at most on a core with one cache level of its own. A fetch that is
recorded to miss only at first is charged as a hit in all steady iterations, although the line may
be fetched there for the first time, on a branch that was not taken before. So the bound at worst is
exceeded by executions with such late misses (`branching_exceeds_bound`), and by nothing else:

* `cost_le_bound`: the cost of an execution is at most the bound, and what its late misses cost
  more than hits.
-/

namespace CycleBounds.Bound

open Code (Program Procedure Draft Loop)
open Cache (Access Analysis Classification Config Lru firstLevel firstFeed)
open Run (History Issue Policy Completes Execution)

/-! ### Costs of executions -/

/-- Loops repeat as often as their bounds allow: the header runs as often as the bound says, or once
more if the bound does not count the runs of the header. -/
def bounded : Policy where
  again loop round := round < if loop.naturalExit then loop.bound else loop.bound + 1
  leave _ _ _ := True

/-- The cost of an execution: every fetch costs the latency of a hit or of a miss, as the cache has
it, and every instruction costs up to `extra` beyond its fetch. -/
inductive Costs (c : Config) (extra : Nat) : History → Nat → Prop
  | nil : Costs c extra [] 0
  | cons {i : Issue} {h : History} {n x : Nat} : Costs c extra h n → x ≤ extra →
      Costs c extra (i :: h)
        (n + Cache.Record.latency c ((firstLevel c h).Holds (c.line i.address)) + x)

/-- A fetch misses in a steady iteration, although it is recorded to miss only at first. -/
def LateMiss (k : Classification) (c : Config) (h : History) (i : Issue) : Prop :=
  k.access? i.place i.index = some .firstMiss ∧ i.place.context.innermost? = some .steady ∧
    ¬ (firstLevel c h).Holds (c.line i.address)

instance (k : Classification) (c : Config) (h : History) (i : Issue) :
    Decidable (LateMiss k c h i) :=
  inferInstanceAs (Decidable (_ ∧ _ ∧ _))

def lateMisses (k : Classification) (c : Config) : History → Nat
  | [] => 0
  | i :: h => lateMisses k c h + if LateMiss k c h i then 1 else 0

/-! ### The charge of a fetch -/

/-- A header that is not counted by the bound runs once more at worst. -/
theorem iterations_worst {loop : Loop} {n : Nat} (h : Engine.iterations .worst loop = .ok n) :
    n = if loop.naturalExit then loop.bound else loop.bound + 1 := by
  unfold Engine.iterations at h
  cases hexit : loop.naturalExit with
  | true =>
    rw [hexit] at h
    exact (Except.ok.inj h).symm
  | false =>
    rw [hexit] at h
    exact (Word.add_eq_ok_iff.mp h).2

section Charge

variable {e : Engine} {c : Config}

/-- With one level and a bus of its own, a core is charged the latency of a hit or of a miss. -/
theorem fetch_unshared (hlevels : e.platform.hierarchy = ⟨c, none⟩)
    (hbus : e.platform.bus = .unshared) (hanalysis : e.analysis.l2 = none) {scenario : Scenario}
    {i : Issue} {t d : Nat} {bus bus' : Bus.Tracker}
    (h : (e.fetch scenario false (e.sourceAt scenario i.place i.index) t bus).result =
      .ok (d, bus')) :
    d = Cache.Record.latency c (Engine.hits scenario i.place.context
      ((e.analysis.l1.access? i.place i.index).getD .unknown)) := by
  unfold Engine.sourceAt Engine.source at h
  rw [hanalysis] at h
  cases hhits : Engine.hits scenario i.place.context
      ((e.analysis.l1.access? i.place i.index).getD .unknown) with
  | true =>
    rw [hhits] at h
    obtain ⟨rfl, -⟩ := Prod.mk.inj (Except.ok.inj h)
    rw [hlevels]
    rfl
  | false =>
    rw [hhits] at h
    have hdelay := Engine.transfer_eq_ok h
    rw [hbus, hlevels] at hdelay
    exact (Except.ok.inj hdelay).symm

/-- A fetch whose class is right is charged enough, unless it is a late miss. -/
theorem latency_le_charge (k : Classification) (hlatency : c.hitLatency ≤ c.missLatency)
    {h : History} {i : Issue} {a : Access} (hget : k.access? i.place i.index = some a)
    (ha : a.Describes True (firstLevel c h) (c.line i.address)) :
    Cache.Record.latency c ((firstLevel c h).Holds (c.line i.address)) ≤
      Cache.Record.latency c (Engine.hits .worst i.place.context a) +
        (c.missLatency - c.hitLatency) * if LateMiss k c h i then 1 else 0 := by
  by_cases hholds : (firstLevel c h).Holds (c.line i.address)
  · -- a hit costs least
    have hhit : Cache.Record.latency c ((firstLevel c h).Holds (c.line i.address)) =
        c.hitLatency := by simp [Cache.Record.latency, hholds]
    rw [hhit]
    unfold Cache.Record.latency
    split <;> omega
  by_cases hcharged : Engine.hits .worst i.place.context a = true
  · -- a miss that is charged as a hit is late
    have hlate : LateMiss k c h i := by
      cases a with
      | hitUpper => exact absurd trivial ha
      | alwaysHit age =>
        obtain ⟨position, -, hat⟩ := ha trivial
        exact absurd (Lru.holds_iff.mpr ⟨position, hat⟩) hholds
      | firstMiss => exact ⟨hget, by simpa [Engine.hits, Access.isHit] using hcharged, hholds⟩
      | alwaysMiss | unknown => simp [Engine.hits, Access.isHit] at hcharged
    simp only [Cache.Record.latency, hholds, hcharged, hlate, if_true]
    simp
    omega
  · simp [Cache.Record.latency, hholds, hcharged]

end Charge

/-! ### The bound -/

/-- An execution ends by a time, its late misses apart, if its fetches are classified rightly. -/
def EndsBy (e : Engine) (c : Config) (start t : Nat) (h : History) : Prop :=
  h.All (Cache.Level.Classified e.analysis.l1 (firstFeed c)) →
    ∀ n, Costs c e.platform.instrWcet h n →
      start + n ≤ t + (c.missLatency - c.hitLatency) * lateMisses e.analysis.l1 c h

section Bound

variable {e : Engine} {c : Config} {start : Nat}

/-- What a fetch is charged is enough, unless it is a late miss. -/
theorem EndsBy.fetch (hlatency : c.hitLatency ≤ c.missLatency) {i : Issue} {h : History}
    {t d : Nat} (hd : d = Cache.Record.latency c (Engine.hits .worst i.place.context
      ((e.analysis.l1.access? i.place i.index).getD .unknown)))
    (hh : EndsBy e c start t h) : EndsBy e c start (t + d + e.platform.instrWcet) (i :: h) := by
  rintro ⟨⟨a, hget, ha⟩, hall⟩ _ (_ | ⟨hcosts, hx⟩)
  have hbefore := hh hall _ hcosts
  have hcharge := latency_le_charge e.analysis.l1 hlatency hget ha
  rw [hget, Option.getD_some] at hd
  rw [← hd] at hcharge
  rw [lateMisses, Nat.mul_add]
  omega

/-- The times of an engine at worst are on the safe side of executions, late misses apart. -/
theorem safe_endsBy (hlevels : e.platform.hierarchy = ⟨c, none⟩)
    (hlatency : c.hitLatency ≤ c.missLatency) (hbus : e.platform.bus = .unshared)
    (hanalysis : e.analysis.l2 = none) :
    e.Safe .worst bounded (EndsBy e c start) := by
  -- a history that ends by some time ends by any later one
  have hlater : ∀ t t' h, t ≤ t' → EndsBy e c start t h → EndsBy e c start t' h := by
    intro t t' h hle hh hall n hcosts
    have := hh hall n hcosts
    omega
  constructor
  case mono =>
    intro t t' h hexceeds
    apply hlater
    simpa [Scenario.exceeds] using hexceeds
  case fetch => exact fun hd => EndsBy.fetch hlatency (fetch_unshared hlevels hbus hanalysis hd)
  case rounds =>
    intro loop n k hn hagain
    rw [iterations_worst hn]
    exact .inl hagain
  case leave => exact fun _ _ _ => .inr hlater

end Bound

/-- The cost of an execution that starts with an empty cache, and in which loops repeat as often as
their bounds allow, is at most the bound at worst, and what its late misses cost more than hits. -/
theorem cost_le_bound {program : Program} {entry start core : Nat} {platform : Platform}
    {analysis : Analysis} {solver : Offset.Solver} {timing : Timing} {p : Procedure} {h : History}
    {n : Nat} (hprogram : program.Accepted)
    (hexits : ∀ p ∈ program.procedures, p.ExitsAtEnds)
    (hentry : program.procedures[entry]? = some p) (hlevels : platform.hierarchy.l2 = none)
    (hlatency : platform.hierarchy.l1.hitLatency ≤ platform.hierarchy.l1.missLatency)
    (hbus : platform.bus = .unshared) (hloops : platform.loops = .unroll)
    (hanalysis : (platform.hierarchy.analyze program entry).result = .ok analysis)
    (hresult : ((Engine.mk program analysis platform solver core).analyze entry start
      .worst).result = .ok timing)
    (hrun : Completes bounded program p [] h)
    (hcosts : Costs platform.hierarchy.l1 platform.instrWcet h n) :
    n ≤ timing.cost +
      (platform.hierarchy.l1.missLatency - platform.hierarchy.l1.hitLatency) *
        lateMisses analysis.l1 platform.hierarchy.l1 h := by
  have hhierarchy : platform.hierarchy = ⟨platform.hierarchy.l1, none⟩ := by rw [← hlevels]
  have hl₂ : analysis.l2 = none := by
    obtain ⟨first, -, -, hnone⟩ := Cache.Hierarchy.analyze_eq_ok hanalysis
    rw [hlevels] at hnone
    exact hnone.1
  have hsafe : (Engine.mk program analysis platform solver core).Safe .worst bounded
      (EndsBy _ platform.hierarchy.l1 start) := safe_endsBy hhierarchy hlatency hbus hl₂
  have hstart : EndsBy (Engine.mk program analysis platform solver core) platform.hierarchy.l1
      start start [] := by
    rintro - _ ⟨⟩
    exact Nat.le_refl start
  obtain ⟨hends, hfinish⟩ :=
    Engine.finish_safe hprogram hexits hloops hsafe hresult hentry hstart hrun
  have hclassified := (Cache.Hierarchy.all_sound hprogram hentry hanalysis hrun.free).1
  have hbound : start + n ≤ timing.finish +
      (platform.hierarchy.l1.missLatency - platform.hierarchy.l1.hitLatency) *
        lateMisses analysis.l1 platform.hierarchy.l1 h := hends hclassified n hcosts
  omega

/-! ### Late misses happen

A loop with two branches, one of which is taken in the first round and the other one in the
second. -/

def branchingDraft : Draft where
  id := 0
  name := "branching"
  blocks := [[], [⟨0, none⟩], [⟨16, none⟩, ⟨32, none⟩], [], []]
  edges := [(0, 1), (0, 2), (1, 3), (2, 3), (3, 4)]
  loops := [{ header := 0, sink := 3, members := [1, 2], bound := 2, naturalExit := true }]

def branching : Procedure where
  id := 0
  name := "branching"
  blocks := [⟨[], [], [1, 2], some 0, some 0⟩, ⟨[⟨0, none⟩], [0], [3], none, some 0⟩,
    ⟨[⟨16, none⟩, ⟨32, none⟩], [0], [3], none, some 0⟩, ⟨[], [1, 2], [4], none, some 0⟩,
    ⟨[], [3], [], none, none⟩]
  loops := [⟨0, 3, 2, true, none, 0, [0, 1, 2, 3], [0, 1, 2, 3]⟩]
  order := [0, 4]
  sinks := [4]

theorem branching_accepted : Program.Accepted ⟨[branching]⟩ :=
  ⟨[branchingDraft], [branching], rfl, rfl⟩

theorem branching_loop {l : Nat} {loop : Loop} (h : branching.loops[l]? = some loop) :
    loop = ⟨0, 3, 2, true, none, 0, [0, 1, 2, 3], [0, 1, 2, 3]⟩ := by
  cases l with
  | zero => exact (Option.some.inj h).symm
  | succ l => cases h

/-- The loop is left at its header or its sink only. -/
theorem branching_exits : ∀ p ∈ (Program.mk [branching]).procedures, p.ExitsAtEnds := by
  intro p hp
  obtain rfl := List.mem_singleton.mp hp
  rintro l loop u v hl hu ⟨block, hblock, hv⟩ hout
  obtain rfl := branching_loop hl
  have hu : u = 0 ∨ u = 1 ∨ u = 2 ∨ u = 3 := by simpa using hu
  rcases hu with rfl | rfl | rfl | rfl
  · exact .inl rfl
  · obtain rfl := Option.some.inj hblock
    exact absurd (by simpa using hv : v = 3) (by rintro rfl; exact hout (by decide))
  · obtain rfl := Option.some.inj hblock
    exact absurd (by simpa using hv : v = 3) (by rintro rfl; exact hout (by decide))
  · exact .inr rfl

def branchingPlatform : Platform where
  hierarchy := ⟨⟨0, 4, 4, 1, 10, by decide⟩, none⟩
  bus := .unshared
  instrBcet := 0
  instrWcet := 0
  loops := .unroll
  independent := false
  transfers_fit := nofun
  instr_ordered := Nat.le_refl .zero

def branchingHistory : History :=
  [⟨⟨0, 1, Context.root.nest .steady⟩, 0, 0⟩, ⟨⟨0, 2, Context.root.nest .first⟩, 1, 32⟩,
    ⟨⟨0, 2, Context.root.nest .first⟩, 0, 16⟩]

theorem branching_follows {f g : Run.Frame} {b : Nat} (hended : f.Ended branching)
    (hedge : branching.Edge f.block b)
    (harrives : Run.Arrives branching (f.laps.around branching b) b g) :
    Run.Follows bounded branching f b g := by
  refine ⟨hended, hedge, fun l loop hl hzero => ?_, fun _ _ _ _ _ => trivial, harrives⟩
  obtain rfl := branching_loop hl
  cases hzero

/-- The history is that of a complete run. -/
theorem branching_completes :
    Completes bounded ⟨[branching]⟩ branching [] branchingHistory := by
  have hheader : Run.Walk bounded ⟨[branching]⟩ branching [] ⟨0, [(0, 0)], 0⟩ [] :=
    .arrive (.enter rfl rfl (by decide))
  have hsecond := hheader.follow (b := 2) (branching_follows ⟨_, rfl, rfl⟩ ⟨_, rfl, by decide⟩
    (.block rfl))
  have hfetched := (hsecond.fetch (i := ⟨16, none⟩) rfl rfl).fetch (i := ⟨32, none⟩) rfl rfl
  have hsink := hfetched.follow (b := 3) (branching_follows ⟨_, rfl, rfl⟩ ⟨_, rfl, by decide⟩
    (.block rfl))
  have hagain := hsink.again ⟨⟨_, rfl, rfl⟩, rfl, _, rfl, rfl, Nat.lt_succ_self 1, rfl⟩
  have hfirst := hagain.follow (b := 1) (branching_follows ⟨_, rfl, rfl⟩ ⟨_, rfl, by decide⟩
    (.block rfl))
  have hlate := (hfirst.fetch (i := ⟨0, none⟩) rfl rfl).follow (b := 3)
    (branching_follows ⟨_, rfl, rfl⟩ ⟨_, rfl, by decide⟩ (.block rfl))
  have hleft := hlate.follow (b := 4) (branching_follows ⟨_, rfl, rfl⟩ ⟨_, rfl, by decide⟩
    (.block rfl))
  exact ⟨_, hleft, ⟨_, rfl, rfl⟩, by decide, nofun⟩

theorem branching_costs :
    Costs branchingPlatform.hierarchy.l1 branchingPlatform.instrWcet branchingHistory 30 :=
  .cons (n := 20) (x := 0) (.cons (n := 10) (x := 0) (.cons (n := 0) (x := 0) .nil (Nat.le_refl 0))
    (Nat.le_refl 0)) (Nat.le_refl 0)

/-- The loop takes 22 cycles at worst by the analysis, and one miss of the run comes late. -/
theorem branching_bound : ∃ a timing,
    (branchingPlatform.hierarchy.analyze ⟨[branching]⟩ 0).result = .ok a ∧
    ((Engine.mk ⟨[branching]⟩ a branchingPlatform .embedded 0).analyze 0 0 .worst).result =
      .ok timing ∧
    timing.cost = 22 ∧
    lateMisses a.l1 branchingPlatform.hierarchy.l1 branchingHistory = 1 := by
  have hcomputed : ((branchingPlatform.hierarchy.analyze ⟨[branching]⟩ 0).result.toOption.bind
      fun a => ((Engine.mk ⟨[branching]⟩ a branchingPlatform .embedded 0).analyze 0 0
        .worst).result.toOption.map fun timing =>
          (timing.cost, lateMisses a.l1 branchingPlatform.hierarchy.l1 branchingHistory)) =
      some (22, 1) := by decide +kernel
  obtain ⟨a, ha, htiming⟩ := Option.bind_eq_some_iff.mp hcomputed
  obtain ⟨timing, htiming, heq⟩ := Option.map_eq_some_iff.mp htiming
  obtain ⟨hcost, hlate⟩ := Prod.mk.inj heq
  exact ⟨a, timing, toOption_eq_some.mp ha, toOption_eq_some.mp htiming, hcost, hlate⟩

/-- The cost of an execution exceeds the bound at worst. -/
theorem branching_exceeds_bound : ∃ a timing n,
    (branchingPlatform.hierarchy.analyze ⟨[branching]⟩ 0).result = .ok a ∧
    ((Engine.mk ⟨[branching]⟩ a branchingPlatform .embedded 0).analyze 0 0 .worst).result =
      .ok timing ∧
    Completes bounded ⟨[branching]⟩ branching [] branchingHistory ∧
    Costs branchingPlatform.hierarchy.l1 branchingPlatform.instrWcet branchingHistory n ∧
    timing.cost < n := by
  obtain ⟨a, timing, hanalysis, hresult, hcost, -⟩ := branching_bound
  refine ⟨a, timing, 30, hanalysis, hresult, branching_completes, branching_costs, ?_⟩
  rw [hcost]
  decide

/-- The same execution stays within the bound if its late miss is counted. -/
theorem cost_le_bound_branching : ∃ a timing,
    (branchingPlatform.hierarchy.analyze ⟨[branching]⟩ 0).result = .ok a ∧
    ((Engine.mk ⟨[branching]⟩ a branchingPlatform .embedded 0).analyze 0 0 .worst).result =
      .ok timing ∧
    Completes bounded ⟨[branching]⟩ branching [] branchingHistory ∧
    Costs branchingPlatform.hierarchy.l1 branchingPlatform.instrWcet branchingHistory 30 ∧
    lateMisses a.l1 branchingPlatform.hierarchy.l1 branchingHistory = 1 ∧
    30 ≤ timing.cost + (10 - 1) * 1 := by
  obtain ⟨a, timing, hanalysis, hresult, -, hlate⟩ := branching_bound
  have hentry : (Program.mk [branching]).procedures[0]? = some branching := rfl
  have hbound := cost_le_bound branching_accepted branching_exits hentry rfl (by decide) rfl rfl
    hanalysis hresult branching_completes branching_costs
  rw [hlate] at hbound
  exact ⟨a, timing, hanalysis, hresult, branching_completes, branching_costs, hlate, hbound⟩

end CycleBounds.Bound
