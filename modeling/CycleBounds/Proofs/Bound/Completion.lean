import CycleBounds.Proofs.Bound.Estimates
import CycleBounds.Proofs.Cache.Progress

/-!
# Both analyses come to their end

An accepted program is analysed and timed without a fault, whatever the caches, the platform and the
treatment of its loops: only numbers may get too large.

* `analyses_end`: the caches of an accepted program can be analysed, and it can be timed then.
-/

namespace CycleBounds.Bound

open Code (Program)
open Engine (Exhausts)

variable {program : Program} {entry : Nat}

/-- Every core that has a slot can run a program. -/
theorem Engine.onCore_of_lt (e : Engine) {core : Nat}
    (hcore : ∀ s, e.platform.bus.schedule? = some s → core < s.cores) :
    e.onCore core = .ok { e with core } := by
  unfold onCore
  split
  · rename_i s hs
    exact if_pos (hcore s hs)
  · rfl

/-- Nothing but a large number exhausts an analysis if no loop lies too deep. -/
theorem Engine.Exhausts.eq_overflow (hprogram : program.Accepted)
    (hnests : program.NestsAtMost Context.maxDepth) {cause : Failure TimingError}
    (h : Exhausts program cause) : cause = .fault .overflow := by
  rcases h with hoverflow | ⟨-, p, hp, loop, hloop, hdeep⟩
  · exact hoverflow
  · obtain ⟨q, hq⟩ := List.getElem?_of_mem hp
    obtain ⟨l, hl⟩ := List.getElem?_of_mem hloop
    exact absurd hdeep (Nat.not_le_of_lt (hprogram.level_lt hnests hq hl))

/-- The caches of an accepted program can be analysed unless a number overflows, and then the
program can be timed on every core that has a slot, unless a number overflows. -/
theorem analyses_end (hprogram : program.Accepted)
    (hnests : program.NestsAtMost Context.maxDepth) (hentry : entry < program.procedures.length)
    (levels : Cache.Hierarchy) :
    Ensures (· = .overflow) (levels.analyze program entry).result fun analysis =>
      ∀ (platform : Platform) (core : Nat),
        (∀ s, platform.bus.schedule? = some s → core < s.cores) →
        ∃ e, (Engine.mk program analysis platform .embedded 0).onCore core = .ok e ∧
          ∀ start scenario,
            Ensures (· = .fault .overflow) (e.trace entry start scenario).result fun _ => True := by
  refine (levels.ensures_analyze hprogram hnests hentry).imp ?_
  intro analysis _ _ platform core hcore
  have honCore := (Engine.mk program analysis platform .embedded 0).onCore_of_lt hcore
  refine ⟨_, honCore, fun start scenario => ?_⟩
  have hscheduled : (Engine.mk program analysis platform .embedded core).Scheduled := hcore
  have hunaided : (Engine.mk program analysis platform .embedded core).Unaided := fun _ => rfl
  exact (Engine.ensures_trace hprogram hscheduled hunaided hentry).allow fun cause hcause =>
    Exhausts.eq_overflow hprogram hnests hcause

/-- A loop with two branches is the only one around its blocks, and either core has a slot. Both
analyses have results on either core. -/
theorem analyses_end_forked : ∃ analysis,
    (shortPlatform.hierarchy.analyze ⟨[forked]⟩ 0).result = .ok analysis ∧
    ∀ core < 2, ∃ e best worst,
      (Engine.mk ⟨[forked]⟩ analysis shortPlatform .embedded 0).onCore core = .ok e ∧
      (e.trace 0 3 .best).result = .ok best ∧ (e.trace 0 3 .worst).result = .ok worst ∧
      best.1.finish = 26 + 2 * core ∧ worst.1.finish = 38 + 2 * core ∧
      ∀ start scenario,
        Ensures (· = .fault .overflow) (e.trace 0 start scenario).result fun _ => True := by
  have hnests : (Program.mk [forked]).NestsAtMost Context.maxDepth := by
    intro p hp b
    obtain rfl := List.mem_singleton.mp hp
    exact Nat.le_trans List.countP_le_length (by decide)
  have hcomputed : ((shortPlatform.hierarchy.analyze ⟨[forked]⟩ 0).result.toOption.map fun a =>
      [0, 1].map fun core =>
        let e := Engine.mk ⟨[forked]⟩ a shortPlatform .embedded core
        ((e.trace 0 3 .best).result.toOption.map (·.1.finish),
          (e.trace 0 3 .worst).result.toOption.map (·.1.finish))) =
      some ([0, 1].map fun core => (some (26 + 2 * core), some (38 + 2 * core))) := by
    decide +kernel
  obtain ⟨analysis, hanalysis, hresults⟩ := Option.map_eq_some_iff.mp hcomputed
  rw [toOption_eq_some] at hanalysis
  have hends := analyses_end forked_accepted hnests (Nat.succ_pos 0) shortPlatform.hierarchy
  rw [hanalysis] at hends
  refine ⟨analysis, hanalysis, fun core hcore => ?_⟩
  have hslot : ∀ s, shortPlatform.bus.schedule? = some s → core < s.cores := by
    intro s hs
    obtain rfl := Option.some.inj hs
    exact hcore
  obtain ⟨e, he, hends⟩ := hends shortPlatform core hslot
  obtain ⟨rfl, -⟩ := Engine.onCore_eq_ok he
  have hcase := List.map_inj_left.mp hresults core (List.mem_pair.mpr (by omega))
  obtain ⟨hbest, hworst⟩ := Prod.mk.inj hcase
  obtain ⟨best, hbest, hfinish⟩ := Option.map_eq_some_iff.mp hbest
  obtain ⟨worst, hworst, hfinish'⟩ := Option.map_eq_some_iff.mp hworst
  exact ⟨_, best, worst, he, toOption_eq_some.mp hbest, toOption_eq_some.mp hworst, hfinish,
    hfinish', hends⟩

end CycleBounds.Bound
