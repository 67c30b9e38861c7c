import CycleBounds.Bound.Trace
import CycleBounds.Proofs.Cache.Findings
import CycleBounds.Proofs.Run.Sweep

/-!
# Timing a block

A time is on the safe side of executions in a sense that is left open: `cover t h` may say that the
fetches of `h` take at most until `t`, or at least. `Safe` lists what is needed of `cover` for a
scenario, and then the times of the engine are on the safe side of all executions under a policy.

* `charge_eq_ok`: what one instruction is charged.
* `flow_of_block`: what a block does, given what calls do (`CallSafe`).
-/

namespace CycleBounds

/-- The choice of a most extreme value. -/
theorem Scenario.foldl_exceeds {α : Type} (scenario : Scenario) (f : α → Nat) (s : α)
    (rest : List α) :
    let r := rest.foldl (fun t u => if scenario.exceeds (f u) (f t) then u else t) s
    r ∈ s :: rest ∧ ∀ x ∈ s :: rest, scenario.exceeds (f x) (f r) = false := by
  induction rest generalizing s with
  | nil =>
    refine ⟨List.mem_cons_self, fun x hx => ?_⟩
    obtain rfl := List.mem_singleton.mp hx
    cases scenario <;> simp [exceeds]
  | cons u rest ih =>
    rw [List.foldl_cons]
    -- the new value takes the place of the choice so far, or it is dropped
    by_cases hu : scenario.exceeds (f u) (f s) = true
    · rw [if_pos hu]
      obtain ⟨hmem, hall⟩ := ih u
      refine ⟨List.mem_cons_of_mem s hmem, fun x hx => ?_⟩
      rcases List.mem_cons.mp hx with rfl | hx
      · have hle := hall u List.mem_cons_self
        cases scenario <;> simp [exceeds] at hu hle ⊢ <;> omega
      · exact hall x hx
    · rw [if_neg hu]
      obtain ⟨hmem, hall⟩ := ih s
      constructor
      · rcases List.mem_cons.mp hmem with heq | hmem
        · rw [heq]
          exact List.mem_cons_self
        · exact List.mem_cons_of_mem s (List.mem_cons_of_mem u hmem)
      · intro x hx
        rcases List.mem_cons.mp hx with rfl | hx
        · exact hall _ List.mem_cons_self
        rcases List.mem_cons.mp hx with rfl | hx
        · have hle := hall s List.mem_cons_self
          cases scenario <;> simp [exceeds] at hu hle ⊢ <;> omega
        · exact hall x (List.mem_cons_of_mem s hx)

end CycleBounds

namespace CycleBounds.Bound.Engine

open Code (Program Procedure Instruction Loop)
open Cache (Place)
open Run (History Issue Laps Frame Policy Contract Steps FlowAt)

/-! ### Cores -/

/-- The core has a slot if the bus is shared. -/
def Scheduled (e : Engine) : Prop :=
  ∀ s, e.platform.bus.schedule? = some s → e.core < s.cores

/-- An engine on a core differs in the core only, which has a slot. -/
theorem onCore_eq_ok {e e' : Engine} {core : Nat} (h : e.onCore core = .ok e') :
    e' = { e with core } ∧ e'.Scheduled := by
  unfold onCore at h
  split at h
  · rename_i s hs
    split at h
    · rename_i hlt
      cases h
      refine ⟨rfl, fun s' hs' => ?_⟩
      obtain rfl := Option.some.inj (hs.symm.trans hs')
      exact hlt
    · cases h
  · rename_i hnone
    cases h
    refine ⟨rfl, fun s hs => ?_⟩
    rw [show e.platform.bus.schedule? = some s from hs] at hnone
    cases hnone

/-! ### The safe side -/

def sourceAt (e : Engine) (scenario : Scenario) (place : Place) (n : Nat) : Source :=
  source scenario place.context ((e.analysis.l1.access? place n).getD .unknown)
    (e.analysis.l2.map fun k => (k.access? place n).getD .unknown)

/-- Instructions are served as the classes at their own index have it. -/
theorem sources_getElem? (e : Engine) (scenario : Scenario) (place : Place)
    (is : List Instruction) (n : Nat) :
    (e.sources scenario place is)[n]? = is[n]?.map fun i => (i, e.sourceAt scenario place n) := by
  unfold sources sourceAt
  cases e.analysis.l2 with
  | none =>
    simp only [List.getElem?_map, Cache.Classification.classified_getElem?, Option.map_map]
    rfl
  | some k =>
    simp only [List.getElem?_map, Cache.Classification.classified_getElem?, Option.map_map]
    rfl

theorem length_sources (e : Engine) (scenario : Scenario) (place : Place)
    (is : List Instruction) : (e.sources scenario place is).length = is.length :=
  length_eq_of_getElem? (sources_getElem? e scenario place is)

/-- Outside of relative runs, a transfer leaves the one that matters as it is. -/
theorem transfer_absolute (e : Engine) (scenario : Scenario) (time latency : Nat)
    (bus : Bus.Tracker) : e.transfer scenario false time latency bus = do
      let d ← e.platform.bus.delay scenario e.core time latency
      return (d, bus) :=
  rfl

/-- Outside of relative runs, a transfer costs what the bus has at that time. -/
theorem transfer_eq_ok {e : Engine} {scenario : Scenario} {time latency d : Nat}
    {bus bus' : Bus.Tracker}
    (h : (e.transfer scenario false time latency bus).result = .ok (d, bus')) :
    e.platform.bus.delay scenario e.core time latency = .ok d := by
  rw [transfer_absolute, Traced.result_bind, Traced.result_liftM] at h
  obtain ⟨d', hd, h⟩ := bind_eq_ok.mp h
  obtain ⟨rfl, -⟩ := Prod.mk.inj (Except.ok.inj h)
  exact hd

/-- What times say about executions: `cover t h` if the time `t` is on the safe side of the history
`h`. -/
structure Safe (e : Engine) (scenario : Scenario) (policy : Policy)
    (cover : Nat → History → Prop) : Prop where
  /-- More extreme times are on the safe side, too. -/
  mono : ∀ {t t' h}, scenario.exceeds t t' = false → cover t h → cover t' h
  /-- What a fetch is charged keeps times on the safe side. -/
  fetch : ∀ {i : Issue} {h t d bus bus'},
    (e.fetch scenario false (e.sourceAt scenario i.place i.index) t bus).result = .ok (d, bus') →
    cover t h → cover (t + d + e.platform.instrCost scenario) (i :: h)
  /-- Rounds of loops that are not followed only help. -/
  rounds : ∀ {loop n k}, iterations scenario loop = .ok n → policy.again loop k →
    k < n ∨ ∀ t h i, cover t h → cover t (i :: h)
  /-- A loop is left after all rounds that are followed, or later times are on the safe side. -/
  leave : ∀ {loop n k b}, iterations scenario loop = .ok n → policy.leave loop k b → k < n →
    (b = loop.sink ∧ k + 1 = n) ∨ ∀ t t' h, t ≤ t' → cover t h → cover t' h

/-- The time that a call takes is on the safe side of all runs of the called procedure. -/
def CallSafe (e : Engine) (scenario : Scenario) (policy : Policy) (cover : Nat → History → Prop)
    (call : Call) : Prop :=
  ∀ {q start ledger timing ledger'},
    (call scenario false q start ledger).result = .ok (timing, ledger') →
    Contract policy e.program (fun _ => True) q (cover start) (cover (start + timing.cost))

/-! ### Instructions -/

section Instructions

variable {e : Engine} {scenario : Scenario} {policy : Policy} {cover : Nat → History → Prop}
  {relative : Bool} {call : Call} {p : Procedure} {b start : Nat}

/-- One instruction is charged its fetch, its own cost, and the procedure that it calls. -/
theorem charge_eq_ok {a a' : Account} {i : Instruction × Source}
    (h : (e.charge call scenario relative p b start a i).result = .ok a') :
    ∃ d, (e.fetch scenario relative i.2 (start + a.cost) a.bus).result = .ok (d, a'.bus) ∧
      match i.1.callee with
      | none => a'.cost = a.cost + d + e.platform.instrCost scenario ∧ a'.ledger = a.ledger
      | some q => ∃ timing, (call scenario relative q
          (start + (a.cost + d + e.platform.instrCost scenario)) a.ledger).result =
            .ok (timing, a'.ledger) ∧
        a'.cost = a.cost + d + e.platform.instrCost scenario + timing.cost := by
  simp only [charge, Traced.result_bind, Traced.result_liftM_except,
    Traced.result_liftM_traced] at h
  obtain ⟨time, htime, h⟩ := bind_eq_ok.mp h
  obtain ⟨⟨d, bus⟩, hfetch, h⟩ := bind_eq_ok.mp h
  obtain ⟨cost, hcost, h⟩ := bind_eq_ok.mp h
  obtain ⟨cost', hcost', h⟩ := bind_eq_ok.mp h
  rw [mapError_eq_ok] at htime hfetch hcost hcost'
  obtain ⟨-, rfl⟩ := Word.add_eq_ok_iff.mp htime
  obtain ⟨-, rfl⟩ := Word.add_eq_ok_iff.mp hcost
  obtain ⟨-, rfl⟩ := Word.add_eq_ok_iff.mp hcost'
  -- a callee starts when the instruction itself is over
  cases hc : i.1.callee with
  | none =>
    rw [hc] at h
    obtain rfl := Except.ok.inj h
    exact ⟨d, hfetch, rfl, rfl⟩
  | some q =>
    rw [hc] at h
    simp only [Traced.result_bind, Traced.result_liftM_except, Traced.result_emit,
      Traced.result_pure] at h
    obtain ⟨time, htime, h⟩ := bind_eq_ok.mp h
    obtain ⟨⟨timing, ledger⟩, hcall, h⟩ := bind_eq_ok.mp h
    obtain ⟨cost, hcost, h⟩ := bind_eq_ok.mp h
    obtain ⟨callee, -, h⟩ := bind_eq_ok.mp h
    obtain ⟨⟨⟩, -, h⟩ := bind_eq_ok.mp h
    obtain rfl := Except.ok.inj h
    rw [mapError_eq_ok] at htime hcost
    obtain ⟨-, rfl⟩ := Word.add_eq_ok_iff.mp htime
    obtain ⟨-, rfl⟩ := Word.add_eq_ok_iff.mp hcost
    exact ⟨d, hfetch, timing, hcall, rfl⟩

/-- An instruction keeps times on the safe side. -/
theorem steps_of_charge (hsafe : Safe e scenario policy cover)
    (hcall : CallSafe e scenario policy cover call) {a a' : Account} {f : Frame} {i : Instruction}
    {h : History} (hi : f.instruction? p = some i)
    (hcharge : (e.charge call scenario false p b start a
      (i, e.sourceAt scenario (f.issue p i).place f.next)).result = .ok a')
    (hh : cover (start + a.cost) h) :
    Steps policy e.program (fun _ => True) p f h (cover (start + a'.cost)) := by
  intro i' hi'
  obtain rfl := Option.some.inj (hi.symm.trans hi')
  refine ⟨trivial, ?_⟩
  obtain ⟨d, hfetch, hcases⟩ := charge_eq_ok hcharge
  -- the time at which the instruction is over, before a callee starts
  have hnext : cover (start + (a.cost + d + e.platform.instrCost scenario)) (f.issue p i :: h) := by
    have := hsafe.fetch (i := f.issue p i) hfetch hh
    rwa [Nat.add_assoc start, Nat.add_assoc start] at this
  cases hc : i.callee with
  | none =>
    rw [hc] at hcases
    rw [hcases.1]
    exact hnext
  | some q =>
    rw [hc] at hcases
    obtain ⟨timing, hrun, hcost⟩ := hcases
    rw [hcost, ← Nat.add_assoc]
    apply (hcall hrun).imp
    · rintro _ rfl
      exact hnext
    · exact fun _ => id

/-! ### Blocks -/

variable {context : Context} {bus : Bus.Tracker} {ledger ledger' : Ledger} {s : Stamp}

/-- A block: the accounts before each of its instructions. -/
theorem block_eq_ok
    (h : (e.block call scenario relative p b context start bus ledger).result =
      .ok (s, ledger')) :
    ∃ blk, ∃ g : Nat → Account, p.blocks[b]? = some blk ∧ g 0 = ⟨0, bus, ledger⟩ ∧
      s.finish = start + (g blk.instructions.length).cost ∧
      s.bus = (g blk.instructions.length).bus ∧
      ledger' = (g blk.instructions.length).ledger ∧
      ∀ (n : Nat) i, blk.instructions[n]? = some i →
        (e.charge call scenario relative p b start (g n)
          (i, e.sourceAt scenario ⟨p.id, b, context⟩ n)).result = .ok (g (n + 1)) := by
  simp only [block, Traced.result_bind, Traced.result_foldlM, Traced.result_liftM_except,
    Traced.result_emit, Traced.result_pure] at h
  obtain ⟨blk, hblk, h⟩ := bind_eq_ok.mp h
  obtain ⟨a, hfold, h⟩ := bind_eq_ok.mp h
  obtain ⟨⟨⟩, -, h⟩ := bind_eq_ok.mp h
  obtain ⟨finish, hfinish, h⟩ := bind_eq_ok.mp h
  rw [mapError_eq_ok] at hblk hfinish
  obtain ⟨-, rfl⟩ := Word.add_eq_ok_iff.mp hfinish
  obtain ⟨rfl, rfl⟩ := Prod.mk.inj (Except.ok.inj h)
  -- the accounts are the stages of the fold
  obtain ⟨g, hfirst, hlast, hstep⟩ := foldlM_stages hfold
  rw [length_sources] at hlast
  refine ⟨blk, g, entryAt_eq_ok.mp hblk, hfirst, by rw [hlast], by rw [hlast], by rw [hlast], ?_⟩
  intro n i hi
  apply hstep
  rw [sources_getElem?, hi]
  rfl

theorem start_le_finish
    (h : (e.block call scenario relative p b context start bus ledger).result =
      .ok (s, ledger')) :
    start ≤ s.finish := by
  obtain ⟨blk, g, -, -, hfinish, -, -, -⟩ := block_eq_ok h
  rw [hfinish]
  exact Nat.le_add_right _ _

/-- A block is stamped with the start that it is timed from. -/
theorem start_of_block
    (h : (e.block call scenario relative p b context start bus ledger).result =
      .ok (s, ledger')) :
    s.start = start := by
  simp only [block, Traced.result_bind, Traced.result_liftM_except, Traced.result_emit,
    Traced.result_pure] at h
  obtain ⟨blk, -, h⟩ := bind_eq_ok.mp h
  obtain ⟨a, -, h⟩ := bind_eq_ok.mp h
  obtain ⟨⟨⟩, -, h⟩ := bind_eq_ok.mp h
  obtain ⟨finish, -, h⟩ := bind_eq_ok.mp h
  obtain ⟨rfl, -⟩ := Prod.mk.inj (Except.ok.inj h)
  rfl

/-- A block keeps times on the safe side. -/
theorem flow_of_block (hp : p.WellFormed) (hsafe : Safe e scenario policy cover)
    (hcall : CallSafe e scenario policy cover call) {region : Option Nat} {base : Laps}
    (h : (e.block call scenario false p b base.context start bus ledger).result = .ok (s, ledger'))
    (hb : p.headerOf? b = none ∨ p.headerOf? b = region) :
    FlowAt policy e.program (fun _ => True) p region base b (cover start)
      (fun _ => cover s.finish) := by
  obtain ⟨blk, g, hblk, hfirst, hfinish, -, -, hstep⟩ := block_eq_ok h
  have hstart : cover start = cover (start + (g 0).cost) := by rw [hfirst, Nat.add_zero]
  rw [hstart, hfinish]
  refine Run.flow_block hp hblk hb (fun n => cover (start + (g n).cost)) (fun _ _ _ => trivial) ?_
  intro n h hh i hi
  have hin : blk.instructions[n]? = some i := by
    simpa [Frame.instruction?, hblk] using hi
  exact steps_of_charge hsafe hcall hi (hstep n i hin) hh i hi

end Instructions

end CycleBounds.Bound.Engine
