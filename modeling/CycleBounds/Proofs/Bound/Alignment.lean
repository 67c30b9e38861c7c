import CycleBounds.Proofs.Bound.Paths
import CycleBounds.Proofs.Bus.Range
import Mathlib.Data.Nat.Find
import Mathlib.Tactic.Choose

/-!
# Rounds at an unknown alignment

A relative run times a round of a loop from zero, without knowing where the slots of the bus lie.
Still its times are those of a run that starts at the right time, its *origin*, in two cases.

If at most one fetch of the loop goes over the bus, a slot has to start just when it is issued. If
every transfer fills a slot, a slot has to start with the first transfer of the round, and from then
on the tracker knows all slots. For this it has to be the same transfer on all paths, which is so if
the header of the loop makes one.

* `Accounts.spans`: a block takes no longer than it is charged for if its fetches do not.
* `clock_le_of_spans`: so does a path through a round if all blocks do.
* `bounded_of_solitary`: this is so from the right time on if there is one transfer at most.
* `bounded_of_regular`: and if transfers fill their slots and the header makes the first one.
-/

namespace CycleBounds.Bound.Engine

open Code (Procedure Loop Block Instruction)
open Run (Issue Part Path Sweep)

variable {e : Engine} {s : Bus.Schedule} {origin : Nat} {call : Call} {p : Procedure}
  {b l n start : Nat} {loop : Loop} {context : Context} {path : List Issue}

/-- The cores take turns on the bus, and every transfer fills a slot. -/
structure FullSlots (e : Engine) (s : Bus.Schedule) : Prop where
  bus : e.platform.bus = .scheduled s
  turns : s.interval = s.cores * s.slot
  l2 : e.platform.hierarchy.l2HitLatency = s.slot
  memory : e.platform.hierarchy.missPenalty = s.slot

/-! ### Fetches -/

section Fetches

variable {source : Source} {time d : Nat} {bus next : Bus.Tracker}

/-- The tracker alone decides about the transfers of a relative run at worst. -/
theorem transfer_relative (hbus : e.platform.bus = .scheduled s) {latency : Nat} :
    e.transfer .worst true time latency bus = bus.delay s time latency := by
  simp [transfer, hbus, Bus.timed?]

/-- A transfer that is issued when a slot starts is charged for at least as long as it takes. -/
theorem fetchSpan_le_of_lag (hbus : e.platform.bus = .scheduled s)
    (h : (e.fetch .worst true source time bus).result = .ok (d, next))
    (hlag : source ≠ .l1 → s.lag e.core (origin + time) = 0) :
    e.fetchSpan .worst source (origin + time) ≤ d := by
  obtain ⟨hl2, hmemory⟩ := e.platform.transfers_fit s (by rw [hbus]; rfl)
  have htransfer : ∀ {latency}, latency ≤ s.slot → source ≠ .l1 →
      (e.transfer .worst true time latency bus).result = .ok (d, next) →
      e.platform.bus.span .worst e.core (origin + time) latency ≤ d := by
    intro latency hfits hne h
    rw [transfer_relative hbus] at h
    rw [hbus]
    show s.span e.core (origin + time) latency ≤ d
    rw [Bus.Schedule.span, hlag hne, Nat.zero_add, if_pos hfits]
    exact (Bus.Tracker.inRange_of_delay (i := ⟨time, latency⟩) h).latency_le
  cases source with
  | l1 =>
    obtain ⟨rfl, -⟩ := Prod.mk.inj (Except.ok.inj h)
    exact Nat.le_refl _
  | l2 => exact htransfer hl2 (by simp) h
  | memory => exact htransfer hmemory (by simp) h

/-- After a transfer there is a latest one. -/
theorem latest_of_fetch (hslots : e.FullSlots s)
    (h : (e.fetch .worst true source time bus).result = .ok (d, next))
    (hnone : next.latest = none) : bus.latest = none ∧ source = .l1 := by
  cases source with
  | l1 =>
    obtain ⟨-, rfl⟩ := Prod.mk.inj (Except.ok.inj h)
    exact ⟨hnone, rfl⟩
  | l2 =>
    rw [fetch, transfer_relative hslots.bus] at h
    exact absurd hnone (Bus.Tracker.latest_of_delay h)
  | memory =>
    rw [fetch, transfer_relative hslots.bus] at h
    exact absurd hnone (Bus.Tracker.latest_of_delay h)

/-- A fetch is charged for at least as long as it takes. -/
theorem fetch_aligned (hslots : e.FullSlots s)
    (h : (e.fetch .worst true source time bus).result = .ok (d, next))
    (haligned : bus.Aligned s e.core origin time)
    (hfirst : bus.latest = none → source ≠ .l1 → s.lag e.core (origin + time) = 0) :
    e.fetchSpan .worst source (origin + time) ≤ d ∧ next.Aligned s e.core origin (time + d) := by
  -- a transfer fills its slot, so the tracker knows where the next one starts
  have htransfer : ∀ {latency}, latency = s.slot → source ≠ .l1 →
      (e.transfer .worst true time latency bus).result = .ok (d, next) →
      e.platform.bus.span .worst e.core (origin + time) latency ≤ d ∧
        next.Aligned s e.core origin (time + d) := by
    intro latency hfull hne h
    rw [transfer_relative hslots.bus] at h
    rw [hslots.bus]
    exact Bus.Tracker.delay_aligned h hslots.turns hfull haligned fun hnone => hfirst hnone hne
  cases source with
  | l1 =>
    obtain ⟨rfl, rfl⟩ := Prod.mk.inj (Except.ok.inj h)
    exact ⟨Nat.le_refl _, haligned.mono (Nat.le_add_right _ _)⟩
  | l2 => exact htransfer hslots.l2 (by simp) h
  | memory => exact htransfer hslots.memory (by simp) h

end Fetches

/-! ### Blocks -/

/-- No path through a block takes longer than from start to finish, as counted from an origin. -/
def Spans (e : Engine) (origin : Nat) (p : Procedure) (b : Nat) (context : Context)
    (start finish : Nat) : Prop :=
  ∀ {block path}, p.blocks[b]? = some block →
    Path e.program Scenario.worst.rounds (.code p b context block.instructions.length) path →
    e.clock .worst path (origin + start) ≤ origin + finish

def Callless (p : Procedure) (b : Nat) : Prop :=
  ∀ block ∈ p.blocks[b]?, ∀ i ∈ block.instructions, i.callee = none

/-- No fetch of a block goes over the bus at worst. -/
def Quiet (e : Engine) (p : Procedure) (b : Nat) (context : Context) : Prop :=
  ∀ block ∈ p.blocks[b]?, ∀ k < block.instructions.length,
    e.sourceAt .worst ⟨p.id, b, context⟩ k = .l1

instance : Decidable (Callless p b) :=
  inferInstanceAs (Decidable (∀ block ∈ p.blocks[b]?, ∀ i ∈ block.instructions, i.callee = none))

instance : Decidable (e.Quiet p b context) :=
  inferInstanceAs (Decidable (∀ block ∈ p.blocks[b]?, ∀ k < block.instructions.length,
    e.sourceAt .worst ⟨p.id, b, context⟩ k = .l1))

section Accounts

variable {block : Block} {g : Nat → Account}

/-- The accounts of a block without calls in a relative run. -/
structure Accounts (e : Engine) (p : Procedure) (b : Nat) (context : Context) (start : Nat)
    (block : Block) (g : Nat → Account) : Prop where
  cost : (g 0).cost = 0
  step : ∀ k i, block.instructions[k]? = some i → ∃ d,
    (e.fetch .worst true (e.sourceAt .worst ⟨p.id, b, context⟩ k) (start + (g k).cost)
      (g k).bus).result = .ok (d, (g (k + 1)).bus) ∧
    (g (k + 1)).cost = (g k).cost + d + e.platform.instrCost .worst

/-- Every fetch is charged for at least as long as it takes, as counted from an origin. -/
def Charged (e : Engine) (origin : Nat) (p : Procedure) (b : Nat) (context : Context) (start : Nat)
    (block : Block) (g : Nat → Account) : Prop :=
  ∀ k < block.instructions.length, ∀ d next,
    (e.fetch .worst true (e.sourceAt .worst ⟨p.id, b, context⟩ k) (start + (g k).cost)
      (g k).bus).result = .ok (d, next) →
    e.fetchSpan .worst (e.sourceAt .worst ⟨p.id, b, context⟩ k) (origin + (start + (g k).cost)) ≤ d

/-- Instructions take no longer than they are charged for. -/
theorem Accounts.clock_le (h : Accounts e p b context start block g)
    (hcharged : e.Charged origin p b context start block g) (hblock : p.blocks[b]? = some block)
    (hcalls : Callless p b) {k : Nat}
    (hpath : Path e.program Scenario.worst.rounds (.code p b context k) path) :
    e.clock .worst path (origin + start) ≤ origin + (start + (g k).cost) := by
  generalize hpart : Part.code p b context k = part at hpath
  induction hpath generalizing k with
  | start =>
    cases hpart
    simp [h.cost]
  | @fetch p' b' context' k' path block' i _ hblock' hi _ ih =>
    cases hpart
    obtain rfl := Option.some.inj (hblock.symm.trans hblock')
    obtain ⟨hk, -⟩ := List.getElem?_eq_some_iff.mp hi
    obtain ⟨d, hfetch, hcost⟩ := h.step k' i hi
    have hle := hcharged k' hk d _ hfetch
    rw [clock_append, clock_cons, clock_nil]
    apply Nat.le_trans (after_mono (ih rfl))
    simp only [after]
    omega
  | call _ hblock' hi hcallee =>
    cases hpart
    rw [hcalls _ hblock' _ (List.mem_of_getElem? hi)] at hcallee
    cases hcallee
  | _ => cases hpart

/-- A block takes no longer than it is charged for if its fetches do not. -/
theorem Accounts.spans (h : Accounts e p b context start block g)
    (hcharged : e.Charged origin p b context start block g) (hblock : p.blocks[b]? = some block)
    (hcalls : Callless p b) :
    e.Spans origin p b context start (start + (g block.instructions.length).cost) := by
  intro block' path hblock' hpath
  obtain rfl := Option.some.inj (hblock.symm.trans hblock')
  exact h.clock_le hcharged hblock hcalls hpath

/-- The timing of a block, one account per instruction. -/
theorem accounts_of_block {bus : Bus.Tracker} {ledger ledger' : Ledger} {stamp : Stamp}
    (h : (e.block call .worst true p b context start bus ledger).result = .ok (stamp, ledger'))
    (hcalls : Callless p b) :
    ∃ block g, p.blocks[b]? = some block ∧ (g 0).bus = bus ∧
      Accounts e p b context start block g ∧
      stamp.finish = start + (g block.instructions.length).cost ∧
      stamp.bus = (g block.instructions.length).bus := by
  obtain ⟨block, g, hblock, hzero, hfinish, hbus, -, hsteps⟩ := block_eq_ok h
  refine ⟨block, g, hblock, by rw [hzero], ⟨by rw [hzero], ?_⟩, hfinish, hbus⟩
  intro k i hi
  obtain ⟨d, hfetch, hcases⟩ := charge_eq_ok (hsteps k i hi)
  have hcallee : i.callee = none := hcalls block hblock i (List.mem_of_getElem? hi)
  simp only [hcallee] at hcases
  exact ⟨d, hfetch, hcases.1⟩

end Accounts

/-! ### Rounds -/

structure Plain (p : Procedure) (l : Nat) (loop : Loop) : Prop where
  calls : ∀ b ∈ loop.order, Callless p b
  inner : ∀ b ∈ loop.order, p.headerOf? b = none ∨ p.headerOf? b = some l

instance : Decidable (Plain p l loop) :=
  decidable_of_iff ((∀ b ∈ loop.order, Callless p b) ∧
      ∀ b ∈ loop.order, p.headerOf? b = none ∨ p.headerOf? b = some l)
    ⟨fun ⟨hcalls, hinner⟩ => ⟨hcalls, hinner⟩, fun h => ⟨h.calls, h.inner⟩⟩

section Rounds

variable {inner : Inner} {r u : Nat} {before : Stamp} {progress progress' : Progress}

/-- A block of a plain loop stands for itself. -/
theorem Plain.visit (h : Plain p l loop) (hr : r ∈ loop.order)
    (hv : (e.visit call inner .worst true p (some l) context r before progress).result =
      .ok progress') :
    ∃ stamp ledger, (e.block call .worst true p r context before.finish before.bus
      progress.ledger).result = .ok (stamp, ledger) ∧ progress'.times.get? r = some stamp := by
  obtain ⟨stamp, ledger, hblock, rfl⟩ := visit_of_block (h.inner r hr) hv
  exact ⟨stamp, ledger, hblock, Table.get?_insert_self _ _ _⟩

/-- A path through what a block of a plain loop stands for is one through its instructions. -/
theorem Plain.code (h : Plain p l loop) (hr : r ∈ loop.order)
    (hpath : Path e.program Scenario.worst.rounds (.element p (some l) context r u) path) :
    u = r ∧ ∃ block, p.blocks[r]? = some block ∧ Path e.program Scenario.worst.rounds
      (.code p r context block.instructions.length) path := by
  have hnot : ∀ {l'}, p.headerOf? r = some l' → some l' ≠ some l → False := by
    intro l' hh hne
    rcases h.inner r hr with hnone | hsame
    · rw [hnone] at hh
      cases hh
    · exact hne (hh.symm.trans hsame)
  cases hpath with
  | block hblock _ hcode => exact ⟨rfl, _, hblock, hcode⟩
  | pass hh hne => exact (hnot hh hne).elim
  | loop hh hne => exact (hnot hh hne).elim

/-- The visit of a block in a relative run of a round from zero, from a stamp to another one. -/
structure Visit (e : Engine) (call : Call) (inner : Inner) (p : Procedure) (l : Nat)
    (context : Context) (progress progress' : Progress) (r : Nat) (before stamp : Stamp) :
    Prop where
  stage : ∃ first rest t₁ t₂, (sweep e .worst true call inner p (some l) context).Stage p (some l)
    (.moment 0) progress progress' first r rest before t₁ t₂
  block : ∃ ledger ledger', (e.block call .worst true p r context before.finish before.bus
    ledger).result = .ok (stamp, ledger')
  stamped : progress'.times.get? r = some stamp

/-- Every block of a plain loop is visited. -/
theorem Plain.exists_visit (h : Plain p l loop) (hp : p.WellFormed)
    (hl : p.loops[l]? = some loop) (hinner : InnerStamps .worst true p inner)
    (hrun : (e.region call inner .worst true p (some l) context (p.orderOf (some l)) (.moment 0)
      progress).result = .ok progress') (hr : r ∈ loop.order) :
    ∃ before stamp, Visit e call inner p l context progress progress' r before stamp := by
  obtain ⟨first, rest, before, t₁, t₂, hstage⟩ :=
    stage_of_region hp hinner hrun (Procedure.orderOf_loop hl ▸ hr)
  obtain ⟨stamp, ledger, hblock, hstamp⟩ := h.visit hr hstage.visit
  exact ⟨before, stamp, ⟨first, rest, t₁, t₂, hstage⟩, ⟨_, ledger, hblock⟩,
    (hstage.now _ (hp.standsFor_self _ _)).symm.trans hstamp⟩

/-- No path through a round takes longer than its relative run if no block does. -/
theorem Plain.clock_le_of_spans (h : Plain p l loop) (hp : p.WellFormed)
    (hl : p.loops[l]? = some loop)
    (hspans : ∀ r ∈ loop.order, ∃ before stamp,
      Visit e call inner p l context progress progress' r before stamp ∧
        e.Spans origin p r context before.finish stamp.finish)
    (hpath : Path e.program Scenario.worst.rounds (.body p (some l) context u) path) :
    ∃ o, progress'.times.get? u = some o ∧ e.clock .worst path origin ≤ origin + o.finish := by
  have horder : p.orderOf (some l) = loop.order := Procedure.orderOf_loop hl
  have hhead : (p.orderOf (some l)).head? = some loop.header := horder ▸ hp.head_loop hl
  have hmem : ∀ {r}, r ∈ p.orderOf (some l) → r ∈ loop.order := fun hr => horder ▸ hr
  -- the blocks of a path follow each other
  generalize hpart : Part.body p (some l) context u = part at hpath
  induction hpath generalizing u with
  | enter hr helement =>
    cases hpart
    have hfirst := hmem (List.mem_of_mem_head? hr)
    obtain ⟨rfl, block, hblock, hcode⟩ := h.code hfirst helement
    obtain ⟨before, stamp, ⟨⟨first, rest, t₁, t₂, hstage⟩, -, hstamp⟩, hspan⟩ := hspans _ hfirst
    obtain ⟨rfl, -⟩ := hstage.start (hstage.first_eq_nil hp hr)
    exact ⟨stamp, hstamp, hspan hblock hcode⟩
  | @next _ _ _ u v w path path' hbody he hv helement ih =>
    cases hpart
    obtain ⟨o, ho, hle⟩ := ih rfl
    obtain ⟨rfl, block, hblock, hcode⟩ := h.code (hmem hv) helement
    obtain ⟨before, stamp, ⟨⟨first, rest, t₁, t₂, hstage⟩, -, hstamp⟩, hspan⟩ :=
      hspans _ (hmem hv)
    -- the block starts with the latest of its predecessors
    obtain ⟨-, hlast⟩ := start_of_stage hp hstage (hstage.first_ne_nil hp he (hbody.inside hp))
    have hmeet : o.finish ≤ before.finish := Scenario.bounds_iff_not_exceeds.mpr (hlast u o he ho)
    refine ⟨stamp, hstamp, ?_⟩
    rw [clock_append]
    apply Nat.le_trans (clock_mono _) (hspan hblock hcode)
    exact Nat.le_trans hle (Nat.add_le_add_left hmeet origin)
  | _ => cases hpart

end Rounds

/-! ### One transfer -/

/-- The fetches of a loop that go over the bus at worst, by their blocks and indices. -/
def transfersOf (e : Engine) (p : Procedure) (loop : Loop) (context : Context) :
    List (Nat × Nat) :=
  loop.order.flatMap fun b =>
    ((List.range (p.blocks[b]?.elim 0 (·.instructions.length))).filter fun k =>
      e.sourceAt .worst ⟨p.id, b, context⟩ k ≠ .l1).map fun k => (b, k)

/-- Every fetch of a loop that the first level does not serve is listed. -/
theorem mem_transfersOf {block : Block} {k : Nat} (hb : b ∈ loop.order)
    (hblock : p.blocks[b]? = some block) (hk : k < block.instructions.length)
    (hmiss : e.sourceAt .worst ⟨p.id, b, context⟩ k ≠ .l1) :
    (b, k) ∈ e.transfersOf p loop context := by
  refine List.mem_flatMap.mpr ⟨b, hb, List.mem_map_of_mem (List.mem_filter.mpr ⟨?_, ?_⟩)⟩
  · rw [hblock]
    exact List.mem_range.mpr hk
  · exact decide_eq_true hmiss

/-- A loop without calls and inner loops, of which at most one fetch goes over the bus. -/
structure Solitary (e : Engine) (p : Procedure) (l : Nat) (loop : Loop) (context : Context) :
    Prop extends Plain p l loop where
  sole : (e.transfersOf p loop context).length ≤ 1

instance : Decidable (e.Solitary p l loop context) :=
  decidable_of_iff (Plain p l loop ∧ (e.transfersOf p loop context).length ≤ 1)
    ⟨fun ⟨hplain, hsole⟩ => ⟨hplain, hsole⟩, fun h => ⟨h.toPlain, h.sole⟩⟩

/-- From the right time on, no path through a round takes longer than its relative run if at most
one fetch goes over the bus: a slot has to start just when it is issued. -/
theorem bounded_of_solitary (hbus : e.platform.bus = .scheduled s) (hp : p.WellFormed)
    (hl : p.loops[l]? = some loop) (hsolitary : e.Solitary p l loop context) {inner : Inner}
    {progress progress' : Progress} (hinner : InnerStamps .worst true p inner)
    (hrun : (e.region call inner .worst true p (some l) context (p.orderOf (some l)) (.moment 0)
      progress).result = .ok progress') :
    ∃ origin, ∀ u path, Path e.program Scenario.worst.rounds (.body p (some l) context u) path →
      ∃ o, progress'.times.get? u = some o ∧ e.clock .worst path origin ≤ origin + o.finish := by
  have hvisits : ∀ r, r ∈ loop.order → ∃ before stamp block g,
      Visit e call inner p l context progress progress' r before stamp ∧
      p.blocks[r]? = some block ∧ Accounts e p r context before.finish block g ∧
      stamp.finish = before.finish + (g block.instructions.length).cost := by
    intro r hr
    obtain ⟨before, stamp, hvisit⟩ := hsolitary.exists_visit hp hl hinner hrun hr
    obtain ⟨ledger, ledger', hblock⟩ := hvisit.block
    obtain ⟨block, g, hget, -, hg, hfinish, -⟩ := accounts_of_block hblock (hsolitary.calls r hr)
    exact ⟨before, stamp, block, g, hvisit, hget, hg, hfinish⟩
  choose before stamp block g hvisit hblock hg hfinish using hvisits
  obtain ⟨⟨b, k⟩, hsole⟩ : ∃ only, ∀ transfer ∈ e.transfersOf p loop context, transfer = only := by
    match hlist : e.transfersOf p loop context, hsolitary.sole with
    | [], _ => exact ⟨(0, 0), nofun⟩
    | [only], _ => exact ⟨only, fun transfer => List.mem_singleton.mp⟩
  obtain ⟨origin, horigin⟩ : ∃ origin, ∀ hb : b ∈ loop.order,
      s.lag e.core (origin + ((before b hb).finish + (g b hb k).cost)) = 0 := by
    by_cases hb : b ∈ loop.order
    · obtain ⟨origin, horigin⟩ :=
        s.exists_lag_eq_zero e.core ((before b hb).finish + (g b hb k).cost)
      exact ⟨origin, fun _ => horigin⟩
    · exact ⟨0, fun hb' => absurd hb' hb⟩
  have hspans : ∀ r ∈ loop.order, ∃ before stamp,
      Visit e call inner p l context progress progress' r before stamp ∧
        e.Spans origin p r context before.finish stamp.finish := by
    intro r hr
    refine ⟨before r hr, stamp r hr, hvisit r hr, ?_⟩
    rw [hfinish r hr]
    refine (hg r hr).spans ?_ (hblock r hr) (hsolitary.calls r hr)
    intro j hj d next hfetch
    apply fetchSpan_le_of_lag hbus hfetch
    intro hmiss
    obtain ⟨rfl, rfl⟩ := Prod.mk.inj (hsole _ (mem_transfersOf hr (hblock r hr) hj hmiss))
    exact horigin hr
  exact ⟨origin, fun u path hpath => hsolitary.clock_le_of_spans hp hl hspans hpath⟩

/-! ### Transfers that fill their slots -/

section FullSlots

variable {block : Block} {g : Nat → Account}

/-- There is no latest transfer as long as all fetches hit. -/
theorem Accounts.hits_of_latest (hslots : e.FullSlots s) (h : Accounts e p b context start block g)
    {k : Nat} (hk : k ≤ block.instructions.length) (hnone : (g k).bus.latest = none) :
    (g 0).bus.latest = none ∧ ∀ j < k, e.sourceAt .worst ⟨p.id, b, context⟩ j = .l1 := by
  induction k with
  | zero => exact ⟨hnone, nofun⟩
  | succ k ih =>
    obtain ⟨d, hfetch, -⟩ := h.step k _ (List.getElem?_eq_getElem hk)
    obtain ⟨hbefore, hhit⟩ := latest_of_fetch hslots hfetch hnone
    obtain ⟨hzero, hall⟩ := ih (Nat.le_of_succ_le hk) hbefore
    refine ⟨hzero, fun j hj => ?_⟩
    rcases Nat.lt_succ_iff_lt_or_eq.mp hj with hlt | rfl
    · exact hall j hlt
    · exact hhit

/-- A slot starts with the first transfer, if there is none before the block. -/
def StartsSlot (e : Engine) (s : Bus.Schedule) (origin : Nat) (p : Procedure) (b : Nat)
    (context : Context) (start : Nat) (block : Block) (g : Nat → Account) : Prop :=
  ∀ k < block.instructions.length, (g k).bus.latest = none →
    e.sourceAt .worst ⟨p.id, b, context⟩ k ≠ .l1 →
    s.lag e.core (origin + (start + (g k).cost)) = 0

/-- The tracker knows the slots before every instruction if it does before the first one. -/
theorem Accounts.aligned (hslots : e.FullSlots s) (h : Accounts e p b context start block g)
    (hfirst : e.StartsSlot s origin p b context start block g)
    (haligned : (g 0).bus.Aligned s e.core origin start) {k : Nat}
    (hk : k ≤ block.instructions.length) :
    (g k).bus.Aligned s e.core origin (start + (g k).cost) := by
  induction k with
  | zero => rwa [h.cost]
  | succ k ih =>
    obtain ⟨d, hfetch, hcost⟩ := h.step k _ (List.getElem?_eq_getElem hk)
    have hnext := (fetch_aligned hslots hfetch (ih (Nat.le_of_succ_le hk)) (hfirst k hk)).2
    apply hnext.mono
    omega

/-- The stamp of a block in a relative run is right if time zero is the origin: it knows the slots,
and no path through the block takes longer. -/
structure Follows (e : Engine) (s : Bus.Schedule) (origin : Nat) (p : Procedure) (b : Nat)
    (context : Context) (start : Nat) (stamp : Stamp) : Prop where
  aligned : stamp.bus.Aligned s e.core origin stamp.finish
  spans : e.Spans origin p b context start stamp.finish

section Blocks

variable {bus : Bus.Tracker} {ledger ledger' : Ledger} {stamp : Stamp}

/-- The stamp of a block is right if its first transfer starts a slot. -/
theorem Accounts.follows (hslots : e.FullSlots s) (h : Accounts e p b context start block g)
    (hblock : p.blocks[b]? = some block) (hcalls : Callless p b)
    (hfirst : e.StartsSlot s origin p b context start block g)
    (haligned : (g 0).bus.Aligned s e.core origin start)
    (hfinish : stamp.finish = start + (g block.instructions.length).cost)
    (hbus : stamp.bus = (g block.instructions.length).bus) :
    e.Follows s origin p b context start stamp := by
  have hcharged : e.Charged origin p b context start block g := by
    intro k hk d next hfetch
    have hbefore := h.aligned hslots hfirst haligned (Nat.le_of_lt hk)
    exact (fetch_aligned hslots hfetch hbefore (hfirst k hk)).1
  constructor
  case aligned =>
    rw [hbus, hfinish]
    exact h.aligned hslots hfirst haligned (Nat.le_refl _)
  case spans =>
    rw [hfinish]
    exact h.spans hcharged hblock hcalls

/-- A block follows where the slots are known already, or where it does not matter. -/
theorem block_follows (hslots : e.FullSlots s) (hcalls : Callless p b)
    (h : (e.block call .worst true p b context start bus ledger).result = .ok (stamp, ledger'))
    (haligned : bus.Aligned s e.core origin start)
    (hready : bus.latest ≠ none ∨ e.Quiet p b context) :
    e.Follows s origin p b context start stamp ∧
      (bus.latest ≠ none → stamp.bus.latest ≠ none) := by
  obtain ⟨block, g, hblock, rfl, hg, hfinish, hbus⟩ := accounts_of_block h hcalls
  have hfirst : e.StartsSlot s origin p b context start block g := by
    intro k hk hnone hmiss
    rcases hready with hlatest | hquiet
    · exact absurd (hg.hits_of_latest hslots (Nat.le_of_lt hk) hnone).1 hlatest
    · exact absurd (hquiet block hblock k hk) hmiss
  refine ⟨hg.follows hslots hblock hcalls hfirst haligned hfinish hbus, ?_⟩
  intro hlatest hnone
  rw [hbus] at hnone
  exact hlatest (hg.hits_of_latest hslots (Nat.le_refl _) hnone).1

/-- A block without a transfer before it follows if its first transfer starts a slot. -/
theorem exists_follows (hslots : e.FullSlots s) (hcalls : Callless p b)
    (h : (e.block call .worst true p b context start .start ledger).result = .ok (stamp, ledger')) :
    ∃ origin, e.Follows s origin p b context start stamp ∧
      (stamp.bus.latest ≠ none ∨ e.Quiet p b context) := by
  obtain ⟨block, g, hblock, hstart, hg, hfinish, hbus⟩ := accounts_of_block h hcalls
  by_cases hmisses : ∃ k < block.instructions.length,
      e.sourceAt .worst ⟨p.id, b, context⟩ k ≠ .l1
  · -- the first transfer decides where the slots lie
    obtain ⟨hlt, hmiss⟩ := Nat.find_spec hmisses
    obtain ⟨origin, horigin⟩ :=
      s.exists_lag_eq_zero e.core (start + (g (Nat.find hmisses)).cost)
    have hfirst : e.StartsSlot s origin p b context start block g := by
      intro k hk hnone hk'
      obtain ⟨-, hhits⟩ := hg.hits_of_latest hslots (Nat.le_of_lt hk) hnone
      have hle := Nat.find_min' hmisses ⟨hk, hk'⟩
      rcases Nat.lt_or_eq_of_le hle with hbefore | heq
      · exact absurd (hhits _ hbefore) hmiss
      · rwa [← heq]
    have haligned : (g 0).bus.Aligned s e.core origin start := by
      rw [hstart]
      exact Bus.Tracker.aligned_start
    refine ⟨origin, hg.follows hslots hblock hcalls hfirst haligned hfinish hbus, .inl ?_⟩
    intro hnone
    rw [hbus] at hnone
    exact hmiss ((hg.hits_of_latest hslots (Nat.le_refl _) hnone).2 _ hlt)
  · -- without a transfer it does not matter where they lie
    have hquiet : e.Quiet p b context := by
      intro block' hblock' k hk
      obtain rfl := Option.some.inj (hblock.symm.trans hblock')
      by_contra hmiss
      exact hmisses ⟨k, hk, hmiss⟩
    have hfollows : e.Follows s 0 p b context start stamp :=
      (block_follows hslots hcalls h Bus.Tracker.aligned_start (.inr hquiet)).1
    exact ⟨0, hfollows, .inr hquiet⟩

end Blocks

/-- A loop without calls and inner loops, whose header makes a transfer if any block does. -/
structure Regular (e : Engine) (p : Procedure) (l : Nat) (loop : Loop) (context : Context) :
    Prop extends Plain p l loop where
  header : ¬ e.Quiet p loop.header context ∨ ∀ b ∈ loop.order, e.Quiet p b context

instance : Decidable (e.Regular p l loop context) :=
  decidable_of_iff (Plain p l loop ∧
      (¬ e.Quiet p loop.header context ∨ ∀ b ∈ loop.order, e.Quiet p b context))
    ⟨fun ⟨hplain, hheader⟩ => ⟨hplain, hheader⟩, fun h => ⟨h.toPlain, h.header⟩⟩

/-- A stamp after which blocks follow. -/
def Ready (e : Engine) (s : Bus.Schedule) (origin : Nat) (p : Procedure) (loop : Loop)
    (context : Context) (o : Stamp) : Prop :=
  o.bus.Aligned s e.core origin o.finish ∧
    (o.bus.latest ≠ none ∨ ∀ b ∈ loop.order, e.Quiet p b context)

section Rounds

variable {inner : Inner} {r : Nat} {before : Stamp} {progress progress' : Progress}

theorem Ready.block_follows (hready : e.Ready s origin p loop context before)
    (hslots : e.FullSlots s) (hregular : e.Regular p l loop context) (hr : r ∈ loop.order)
    {stamp : Stamp} {ledger ledger' : Ledger}
    (h : (e.block call .worst true p r context before.finish before.bus ledger).result =
      .ok (stamp, ledger')) :
    e.Follows s origin p r context before.finish stamp ∧
      e.Ready s origin p loop context stamp := by
  obtain ⟨haligned, hlatest⟩ := hready
  obtain ⟨hfollows, hkeeps⟩ := Engine.block_follows hslots (hregular.calls r hr) h haligned
    (hlatest.imp_right fun hquiet => hquiet r hr)
  exact ⟨hfollows, hfollows.aligned, hlatest.imp_left hkeeps⟩

/-- The header decides where the slots lie, and all blocks after it know. -/
theorem exists_ready (hslots : e.FullSlots s) (hp : p.WellFormed) (hl : p.loops[l]? = some loop)
    (hregular : e.Regular p l loop context) (hinner : InnerStamps .worst true p inner)
    (hrun : (e.region call inner .worst true p (some l) context (p.orderOf (some l)) (.moment 0)
      progress).result = .ok progress') :
    ∃ origin, (∃ o, progress'.times.get? loop.header = some o ∧
        e.Follows s origin p loop.header context 0 o) ∧
      ∀ b, p.Inside (some l) b →
        ∃ o, progress'.times.get? b = some o ∧ e.Ready s origin p loop context o := by
  have horder : p.orderOf (some l) = loop.order := Procedure.orderOf_loop hl
  have hhead : (p.orderOf (some l)).head? = some loop.header := horder ▸ hp.head_loop hl
  have hmem : ∀ {r}, r ∈ p.orderOf (some l) → r ∈ loop.order := fun hr => horder ▸ hr
  have hfirst := hmem (List.mem_of_mem_head? hhead)
  obtain ⟨first, rest, s₁, t₁, t₂, hstage⟩ :=
    stage_of_region hp hinner hrun (List.mem_of_mem_head? hhead)
  obtain ⟨rfl, rfl⟩ := hstage.start (hstage.first_eq_nil hp hhead)
  obtain ⟨stamp, ledger, hblock, hstamp⟩ := hregular.visit hfirst hstage.visit
  obtain ⟨origin, hfollows, hlatest⟩ :=
    exists_follows hslots (hregular.calls _ hfirst) hblock
  have hready : e.Ready s origin p loop context stamp := by
    refine ⟨hfollows.aligned, ?_⟩
    rcases hregular.header with hmisses | hquiet
    · exact .inl (hlatest.resolve_right hmisses)
    · exact .inr hquiet
  refine ⟨origin, ⟨stamp, ?_, hfollows⟩, ?_⟩
  · exact (hstage.now _ (hp.standsFor_self _ _)).symm.trans hstamp
  -- the other blocks start after blocks that are ready
  rw [region_result] at hrun
  intro b hb
  refine Sweep.valid_of_run (fun _ o => e.Ready s origin p loop context o)
    (fun _ o => e.Ready s origin p loop context o) hp (sweep_local hinner) ?_ ?_ ?_ hrun hb
  · intro r before t t' hr hv hbefore b hb
    obtain ⟨stamp, ledger, hblock, hstamp⟩ := hregular.visit (hmem hr) hv
    obtain rfl := hb.eq_self (hregular.inner r (hmem hr))
    exact ⟨stamp, hstamp, (hbefore.block_follows hslots hregular (hmem hr) hblock).2⟩
  · intro v before t _ hbefore hpreds
    obtain ⟨⟨u, he, hget⟩, -⟩ := stampBefore_eq_ok hp (mapError_eq_ok.mp hbefore)
    obtain ⟨-, o, ho, hvalid⟩ := hpreds u he
    obtain rfl := Option.some.inj (hget.symm.trans ho)
    exact hvalid
  · intro r t' hr hv b hb
    obtain rfl := Option.some.inj (hhead.symm.trans hr)
    obtain rfl := hb.eq_self (hregular.inner _ hfirst)
    obtain rfl := Except.ok.inj (hstage.visit.symm.trans hv)
    exact ⟨stamp, hstamp, hready⟩

/-- From the right time on, no path through a round of a regular loop takes longer than its relative
run, if transfers fill their slots. -/
theorem bounded_of_regular (hslots : e.FullSlots s) (hp : p.WellFormed)
    (hl : p.loops[l]? = some loop) (hregular : e.Regular p l loop context)
    (hinner : InnerStamps .worst true p inner)
    (hrun : (e.region call inner .worst true p (some l) context (p.orderOf (some l)) (.moment 0)
      progress).result = .ok progress') :
    ∃ origin, ∀ u path, Path e.program Scenario.worst.rounds (.body p (some l) context u) path →
      ∃ o, progress'.times.get? u = some o ∧ e.clock .worst path origin ≤ origin + o.finish := by
  have horder : p.orderOf (some l) = loop.order := Procedure.orderOf_loop hl
  obtain ⟨origin, ⟨header, hheader, hfollows⟩, hready⟩ :=
    exists_ready hslots hp hl hregular hinner hrun
  have hspans : ∀ r ∈ loop.order, ∃ before stamp,
      Visit e call inner p l context progress progress' r before stamp ∧
        e.Spans origin p r context before.finish stamp.finish := by
    intro r hr
    obtain ⟨before, stamp, hvisit⟩ := hregular.exists_visit hp hl hinner hrun hr
    refine ⟨before, stamp, hvisit, ?_⟩
    obtain ⟨first, rest, t₁, t₂, hstage⟩ := hvisit.stage
    by_cases hfirst : first = []
    · -- the header is the first one
      obtain ⟨rfl, -⟩ := hstage.start hfirst
      have hhead := hp.head_loop hl
      rw [← horder, hstage.order, hfirst] at hhead
      obtain rfl : r = loop.header := Option.some.inj hhead
      obtain rfl := Option.some.inj (hheader.symm.trans hvisit.stamped)
      exact hfollows.spans
    · -- all others start with a stamp that is ready
      obtain ⟨⟨w, hinside, hget⟩, -⟩ := start_of_stage hp hstage hfirst
      obtain ⟨o, ho, hbefore⟩ := hready w hinside
      obtain rfl := Option.some.inj (hget.symm.trans ho)
      obtain ⟨ledger, ledger', hblock⟩ := hvisit.block
      exact (hbefore.block_follows hslots hregular hr hblock).1.spans
  exact ⟨origin, fun u path hpath => hregular.clock_le_of_spans hp hl hspans hpath⟩

end Rounds

end FullSlots

end CycleBounds.Bound.Engine
