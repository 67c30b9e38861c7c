import CycleBounds.Proofs.Bound.Rounds
import Mathlib.Data.List.Forall2

/-!
# Two runs side by side

Two runs that follow the same program from different times, or on different platforms, take the same
decisions in the same order. In which sense their times correspond is left open: a `Coupling` says
it of times, of the state of the bus and of the results so far, and `Coupling.Sound` lists what is
needed of it. Then blocks, bodies, unrolled loops and calls of both runs correspond if what they are
made of does.

* `Coupling.Calls`, `Coupling.Inners`, `Coupling.Bodies`: calls, loops and bodies correspond.
* `coupled_block`, `coupled_stampBefore`: a block, and where it starts.
* `coupled_region`, `coupled_unroll`, `coupled_procedureAt`: bodies, unrolled loops and calls.
-/

namespace CycleBounds

theorem rel_imp {α β : Type} {R Q : α → β → Prop} {x : Option α} {y : Option β}
    (h : Option.Rel R x y) (himp : ∀ a b, R a b → Q a b) : Option.Rel Q x y := by
  cases h with
  | some hab => exact .some (himp _ _ hab)
  | none => exact .none

theorem rel_some_left {α β : Type} {R : α → β → Prop} {x : Option α} {y : Option β} {a : α}
    (h : Option.Rel R x y) (hx : x = some a) : ∃ b, y = some b ∧ R a b := by
  cases h with
  | some hab => exact ⟨_, rfl, Option.some.inj hx ▸ hab⟩
  | none => cases hx

theorem rel_some_right {α β : Type} {R : α → β → Prop} {x : Option α} {y : Option β} {b : β}
    (h : Option.Rel R x y) (hy : y = some b) : ∃ a, x = some a ∧ R a b := by
  cases h with
  | some hab => exact ⟨_, rfl, Option.some.inj hy ▸ hab⟩
  | none => cases hy

/-- What is found for the entries of a list is related if it is for every entry. -/
theorem forall₂_filterMap {α β γ : Type} {R : β → γ → Prop} {f : α → Option β} {g : α → Option γ}
    {xs : List α} (h : ∀ x ∈ xs, Option.Rel R (f x) (g x)) :
    List.Forall₂ R (xs.filterMap f) (xs.filterMap g) := by
  refine List.rel_filterMap (R := fun x y => x = y ∧ x ∈ xs) ?_ (List.forall₂_same.mpr ?_)
  · rintro x _ ⟨rfl, hx⟩
    exact h x hx
  · exact fun x hx => ⟨rfl, hx⟩

theorem Word.coupled_add (a b a' b' : Nat) :
    Coupled (fun t t' => t = a + b ∧ t' = a' + b') (add a b) (add a' b') :=
  fun _ _ h h' => ⟨(add_eq_ok_iff.mp h).2, (add_eq_ok_iff.mp h').2⟩

end CycleBounds

namespace CycleBounds.Bound

open Code (Procedure Loop Instruction)
open Engine (Account Body Call Inner Source bodyOf recorded)

/-- How two runs correspond: in their times, in the transfers that matter for what follows, and in
their results so far. -/
structure Coupling where
  time : Nat → Nat → Prop
  bus : Bus.Tracker → Bus.Tracker → Prop
  ledger : Ledger → Ledger → Prop

namespace Coupling

/-- Two stamps correspond as far as later blocks can tell. -/
def Stamps (c : Coupling) (s s' : Stamp) : Prop :=
  c.time s.finish s'.finish ∧ c.bus s.bus s'.bus

/-- The same choice between corresponding stamps. -/
theorem stamps_pick {c : Coupling} {scenario : Scenario} {s s' u u' : Stamp} (hs : c.Stamps s s')
    (hu : c.Stamps u u')
    (hsame : scenario.exceeds u'.finish s'.finish = scenario.exceeds u.finish s.finish) :
    c.Stamps (if scenario.exceeds u.finish s.finish then u else s)
      (if scenario.exceeds u'.finish s'.finish then u' else s') := by
  rw [hsame]
  split
  · exact hu
  · exact hs

structure Alike (c : Coupling) (t t' : Progress) : Prop where
  ledger : c.ledger t.ledger t'.ledger
  times : ∀ b, Option.Rel c.Stamps (t.times.get? b) (t'.times.get? b)

theorem Alike.finish {c : Coupling} {t t' : Progress} (h : c.Alike t t') (b : Nat) :
    Option.Rel (fun s s' : Stamp => c.time s.finish s'.finish) (t.times.get? b)
      (t'.times.get? b) :=
  rel_imp (h.times b) fun _ _ hs => hs.1

structure Accounts (c : Coupling) (start start' : Nat) (a a' : Account) : Prop where
  time : c.time (start + a.cost) (start' + a'.cost)
  bus : c.bus a.bus a'.bus
  ledger : c.ledger a.ledger a'.ledger

/-- Two engines time the same program, and what they do to times and results keeps them
corresponding. -/
structure Sound (c : Coupling) (e e' : Engine) (scenario : Scenario) (relative relative' : Bool) :
    Prop where
  program : e'.program = e.program
  analysis : e'.analysis = e.analysis
  start : c.bus .start .start
  /-- The more extreme ones of two stamps correspond. -/
  pick : ∀ {s s' u u'}, c.Stamps s s' → c.Stamps u u' →
    c.Stamps (if scenario.exceeds u.finish s.finish then u else s)
      (if scenario.exceeds u'.finish s'.finish then u' else s')
  fetch : ∀ {source t t' bus bus'}, c.time t t' → c.bus bus bus' →
    Coupled (fun r r' => c.time (t + r.1 + e.platform.instrCost scenario)
        (t' + r'.1 + e'.platform.instrCost scenario) ∧ c.bus r.2 r'.2)
      (e.fetch scenario relative source t bus).result
      (e'.fetch scenario relative' source t' bus').result
  stamp : ∀ {t t' : Progress} {q b : Nat} {s s' : Stamp}, c.ledger t.ledger t'.ledger →
    c.time s.start s'.start → c.time s.finish s'.finish →
    c.ledger (t.stamp relative q b s).ledger (t'.stamp relative' q b s').ledger
  record : ∀ {ledger ledger' q t t' u u'}, c.ledger ledger ledger' → c.time t t' → c.time u u' →
    c.ledger (recorded relative q ⟨t, u, u - t⟩ ledger)
      (recorded relative' q ⟨t', u', u' - t'⟩ ledger')

def Calls (c : Coupling) (scenario : Scenario) (relative relative' : Bool) (call call' : Call) :
    Prop :=
  ∀ {q start start' ledger ledger'}, c.time start start' → c.ledger ledger ledger' →
    Coupled (fun r r' => c.time (start + r.1.cost) (start' + r'.1.cost) ∧ c.ledger r.2 r'.2)
      (call scenario relative q start ledger).result
      (call' scenario relative' q start' ledger').result

def Inners (c : Coupling) (scenario : Scenario) (relative relative' : Bool) (inner inner' : Inner) :
    Prop :=
  ∀ {l context s s' t t'}, c.Stamps s s' → c.Alike t t' →
    Coupled c.Alike (inner scenario relative l context s t).result
      (inner' scenario relative' l context s' t').result

def Bodies (c : Coupling) (scenario : Scenario) (relative relative' : Bool) (body body' : Body) :
    Prop :=
  ∀ {context s s' t t'}, c.Stamps s s' → c.Alike t t' →
    Coupled c.Alike (body scenario relative context s t).result
      (body' scenario relative' context s' t').result

namespace Sound

variable {c : Coupling} {e e' : Engine} {scenario : Scenario} {relative relative' : Bool}
  {t t' : Progress} {s s' : Stamp}

theorem stamps_moment (hsound : c.Sound e e' scenario relative relative') {x x' : Nat}
    (hx : c.time x x') : c.Stamps (.moment x) (.moment x') :=
  ⟨hx, hsound.start⟩

theorem pick_time (hsound : c.Sound e e' scenario relative relative') {x x' y y' : Nat}
    (hx : c.time x x') (hy : c.time y y') :
    c.time (if scenario.exceeds y x then y else x) (if scenario.exceeds y' x' then y' else x') := by
  have hpick := (hsound.pick (hsound.stamps_moment hx) (hsound.stamps_moment hy)).1
  rwa [apply_ite Stamp.finish, apply_ite Stamp.finish] at hpick

theorem alike_empty {ledger ledger' : Ledger} (h : c.ledger ledger ledger') :
    c.Alike ⟨∅, ledger⟩ ⟨∅, ledger'⟩ :=
  ⟨h, fun _ => .none⟩

theorem alike_stamp (hsound : c.Sound e e' scenario relative relative') {q b : Nat}
    (ht : c.Alike t t') (hstart : c.time s.start s'.start) (hs : c.Stamps s s') :
    c.Alike (t.stamp relative q b s) (t'.stamp relative' q b s') where
  ledger := hsound.stamp ht.ledger hstart hs.1
  times u := by
    show Option.Rel c.Stamps ((t.times.insert b s).get? u) ((t'.times.insert b s').get? u)
    rw [Table.get?_insert, Table.get?_insert]
    split
    · exact .some hs
    · exact ht.times u

theorem alike_spread (hsound : c.Sound e e' scenario relative relative') {p : Procedure}
    {loop : Loop} {x x' y y' : Nat} (ht : c.Alike t t') (hstart : c.time x x')
    (hfinish : c.time y y') :
    c.Alike (Engine.spread relative p loop x y t) (Engine.spread relative' p loop x' y' t') := by
  unfold Engine.spread
  induction loop.blocks generalizing t t' with
  | nil => exact ht
  | cons b blocks ih =>
    rw [List.foldl_cons, List.foldl_cons]
    exact ih (hsound.alike_stamp ht hstart ⟨hfinish, hsound.start⟩)

end Sound

end Coupling

namespace Engine

variable {c : Coupling} {e e' : Engine} {scenario : Scenario} {relative relative' : Bool}
  {call call' : Call} {inner inner' : Inner} {p : Procedure} {b l n n' start start' : Nat}
  {loop : Loop} {body body' : Body} {context : Context} {s s' : Stamp} {t t' : Progress}
  {times times' : Table Nat Stamp} {ledger ledger' : Ledger}

/-! ### Blocks -/

/-- One instruction keeps two runs corresponding, its call included. -/
theorem coupled_charge (hsound : c.Sound e e' scenario relative relative')
    (hcall : c.Calls scenario relative relative' call call') {a a' : Account}
    (ha : c.Accounts start start' a a') (i : Instruction × Source) :
    Coupled (c.Accounts start start') (e.charge call scenario relative p b start a i).result
      (e'.charge call' scenario relative' p b start' a' i).result := by
  intro a₁ a₁' h h'
  obtain ⟨d, hfetch, hcases⟩ := charge_eq_ok h
  obtain ⟨d', hfetch', hcases'⟩ := charge_eq_ok h'
  obtain ⟨htime, hbus⟩ := hsound.fetch ha.time ha.bus _ _ hfetch hfetch'
  simp only [Nat.add_assoc] at htime hcases hcases'
  cases hc : i.1.callee with
  | none =>
    rw [hc] at hcases hcases'
    obtain ⟨hcost, hledger⟩ := hcases
    obtain ⟨hcost', hledger'⟩ := hcases'
    refine ⟨?_, hbus, ?_⟩
    · rwa [hcost, hcost']
    · rw [hledger, hledger']
      exact ha.ledger
  | some q =>
    rw [hc] at hcases hcases'
    obtain ⟨timing, hrun, hcost⟩ := hcases
    obtain ⟨timing', hrun', hcost'⟩ := hcases'
    obtain ⟨hafter, hledger⟩ := hcall htime ha.ledger _ _ hrun hrun'
    refine ⟨?_, hbus, hledger⟩
    rw [hcost, hcost']
    simpa only [Nat.add_assoc] using hafter

/-- A block that starts at corresponding times has corresponding stamps. -/
theorem coupled_block (hsound : c.Sound e e' scenario relative relative')
    (hcall : c.Calls scenario relative relative' call call') {bus bus' : Bus.Tracker}
    (hstart : c.time start start') (hbus : c.bus bus bus') (hledger : c.ledger ledger ledger') :
    Coupled (fun r r' => c.time r.1.start r'.1.start ∧ c.Stamps r.1 r'.1 ∧ c.ledger r.2 r'.2)
      (e.block call scenario relative p b context start bus ledger).result
      (e'.block call' scenario relative' p b context start' bus' ledger').result := by
  -- both engines know the same about the caches
  have hsources : ∀ place is, e'.sources scenario place is = e.sources scenario place is := by
    intro place is
    unfold sources
    rw [hsound.analysis]
  simp only [block, Traced.result_bind, Traced.result_foldlM, Traced.result_liftM_except,
    Traced.result_emit, Traced.result_pure, hsources]
  refine Coupled.bind_same fun blk _ => ?_
  have hnothing : c.Accounts start start' ⟨0, bus, ledger⟩ ⟨0, bus', ledger'⟩ :=
    ⟨hstart, hbus, hledger⟩
  refine (Coupled.foldlM (fun i _ a a' ha => coupled_charge hsound hcall ha i) hnothing).bind ?_
  intro a a' ha
  refine Coupled.bind_same fun _ _ => ?_
  refine (Word.coupled_add start a.cost start' a'.cost).mapError.bind ?_
  rintro _ _ ⟨rfl, rfl⟩
  exact Coupled.pure ⟨hstart, ⟨ha.time, ha.bus⟩, ha.ledger⟩

/-! ### Stamps -/

theorem coupled_stampOf (h : Option.Rel c.Stamps (times.get? b) (times'.get? b)) :
    Coupled c.Stamps (stampOf times b) (stampOf times' b) := by
  intro s s' hs hs'
  rw [stampOf_eq_ok] at hs hs'
  obtain ⟨s₁, hs₁, hstamps⟩ := rel_some_left h hs
  obtain rfl := Option.some.inj (hs'.symm.trans hs₁)
  exact hstamps

/-- Where a block starts, if its predecessors have corresponding stamps. -/
theorem coupled_stampBefore (hsound : c.Sound e e' scenario relative relative')
    (hpreds : ∀ blk, p.blocks[b]? = some blk →
      ∀ u ∈ blk.preds, Option.Rel c.Stamps (times.get? u) (times'.get? u)) :
    Coupled c.Stamps (stampBefore scenario p times b) (stampBefore scenario p times' b) := by
  unfold stampBefore
  refine Coupled.bind_same fun blk hblk => ?_
  have hlist := forall₂_filterMap (hpreds blk (entryAt_eq_ok.mp hblk))
  revert hlist
  generalize blk.preds.filterMap times.get? = stamps
  generalize blk.preds.filterMap times'.get? = stamps'
  intro hlist
  cases hlist with
  | nil => exact fun _ _ h => nomatch h
  | cons hs hrest =>
    refine Coupled.pure (List.rel_foldl ?_ hs hrest)
    exact fun _ _ h _ _ h' => hsound.pick h h'

/-- When a procedure finishes, if it is left through blocks with corresponding stamps. -/
theorem coupled_exitTime (hsound : c.Sound e e' scenario relative relative')
    (hsinks : ∀ b ∈ p.sinks, Option.Rel (fun s s' : Stamp => c.time s.finish s'.finish)
      (times.get? b) (times'.get? b)) :
    Coupled c.time (exitTime scenario p times) (exitTime scenario p times') := by
  have hlist : List.Forall₂ c.time ((p.sinks.filterMap times.get?).map (·.finish))
      ((p.sinks.filterMap times'.get?).map (·.finish)) := by
    rw [List.forall₂_map_left_iff, List.forall₂_map_right_iff]
    exact forall₂_filterMap hsinks
  unfold exitTime
  -- only the lists of finishing times matter, not where they come from
  revert hlist
  generalize (p.sinks.filterMap times.get?).map (·.finish) = finishes
  generalize (p.sinks.filterMap times'.get?).map (·.finish) = finishes'
  intro hlist
  cases hlist with
  | nil => exact fun _ _ h => nomatch h
  | cons hs hrest =>
    refine Coupled.pure (List.rel_foldl ?_ hs hrest)
    exact fun _ _ h _ _ h' => hsound.pick_time h h'

/-! ### Bodies -/

/-- So does one block of a body, or the inner loop that it stands for. -/
theorem coupled_visit (hsound : c.Sound e e' scenario relative relative')
    (hcall : c.Calls scenario relative relative' call call')
    (hinner : c.Inners scenario relative relative' inner inner') {current : Option Nat}
    (hs : c.Stamps s s') (ht : c.Alike t t') :
    Coupled c.Alike (e.visit call inner scenario relative p current context b s t).result
      (e'.visit call' inner' scenario relative' p current context b s' t').result := by
  simp only [visit, Traced.result_bind, Traced.result_liftM_except]
  refine Coupled.bind_same fun blk _ => ?_
  cases blk.headerOf.filter fun l => some l ≠ current with
  | some l => exact hinner hs ht
  | none =>
    simp only [Traced.result_bind, Traced.result_pure]
    refine (coupled_block hsound hcall hs.1 hs.2 ht.ledger).bind ?_
    rintro ⟨stamp, ledger⟩ ⟨stamp', ledger'⟩ ⟨hstart, hstamps, hledger⟩
    have hnext : c.Alike { t with ledger } { t' with ledger := ledger' } := ⟨hledger, ht.times⟩
    exact Coupled.pure (hsound.alike_stamp hnext hstart hstamps)

/-- Bodies keep everything alike if calls and inner loops do. -/
theorem coupled_region (hsound : c.Sound e e' scenario relative relative')
    (hcall : c.Calls scenario relative relative' call call')
    (hinner : c.Inners scenario relative relative' inner inner') {current : Option Nat}
    {order : List Nat} (hs : c.Stamps s s') (ht : c.Alike t t') :
    Coupled c.Alike (e.region call inner scenario relative p current context order s t).result
      (e'.region call' inner' scenario relative' p current context order s' t').result := by
  cases order with
  | nil => exact Coupled.pure ht
  | cons b rest =>
    simp only [region, Traced.result_bind, Traced.result_foldlM, Traced.result_liftM_except]
    refine (coupled_visit hsound hcall hinner hs ht).bind fun t t' ht => ?_
    refine Coupled.foldlM (fun b _ t t' ht => ?_) ht
    refine (coupled_stampBefore hsound fun blk _ u _ => ht.times u).mapError.bind ?_
    exact fun s s' hs => coupled_visit hsound hcall hinner hs ht

/-! ### Loops -/

theorem coupled_iteration (hbody : c.Bodies scenario relative relative' body body')
    (it : Iteration) {x x' : Stamp × Progress} (hs : c.Stamps x.1 x'.1) (ht : c.Alike x.2 x'.2) :
    Coupled (fun y y' => c.Stamps y.1 y'.1 ∧ c.Alike y.2 y'.2)
      (iteration body scenario relative p l loop context it x).result
      (iteration body' scenario relative' p l loop context it x').result := by
  simp only [iteration, Traced.result_bind, Traced.result_liftM_except, Traced.result_pure]
  refine Coupled.bind_same fun context _ => ?_
  refine (hbody hs ht).bind fun t t' ht => ?_
  refine (coupled_stampOf (ht.times loop.sink)).mapError.bind fun s s' hs => ?_
  refine Coupled.bind (R := fun _ _ => True) (fun _ _ _ _ => trivial) fun _ _ _ => ?_
  exact Coupled.pure ⟨hs, ht⟩

/-- Unrolled loops keep everything alike if their bodies do. -/
theorem coupled_unroll (hsound : c.Sound e e' scenario relative relative')
    (hbody : c.Bodies scenario relative relative' body body') (hs : c.Stamps s s')
    (ht : c.Alike t t') :
    Coupled c.Alike (unroll body scenario relative p l loop context s t).result
      (unroll body' scenario relative' p l loop context s' t').result := by
  simp only [unroll, Traced.result_bind, Traced.result_liftM_except, Traced.result_emit,
    Traced.result_pure]
  refine Coupled.bind_same fun n _ => ?_
  refine (coupled_iteration hbody .first hs ht).bind fun first first' hfirst => ?_
  refine (Coupled.iterate (I := fun x x' => c.Stamps x.1 x'.1 ∧ c.Alike x.2 x'.2)
    (fun x x' hx => ?_) (n - 1) hfirst).bind fun last last' hlast => ?_
  · exact coupled_iteration hbody .steady hx.1 hx.2
  · refine Coupled.bind_same fun _ _ => ?_
    exact Coupled.pure (hsound.alike_stamp hlast.2 hs.1 hlast.1)

/-- A loop keeps everything alike if it does as the platforms treat it. -/
theorem coupled_loopAt (hsound : c.Sound e e' scenario relative relative') (hs : c.Stamps s s')
    (ht : c.Alike t t')
    (hloop : ∀ loop, p.loops[l]? = some loop →
      Coupled c.Alike
        (e.loop (bodyOf e call p n l loop) scenario relative p l loop context s t).result
        (e'.loop (bodyOf e' call' p n l loop) scenario relative' p l loop context s' t').result) :
    Coupled c.Alike (e.loopAt call p (n + 1) scenario relative l context s t).result
      (e'.loopAt call' p (n + 1) scenario relative' l context s' t').result := by
  simp only [loopAt, Traced.result_bind, Traced.result_liftM_except]
  refine Coupled.bind_same fun loop hget => ?_
  rw [mapError_eq_ok] at hget
  split
  · simp only [Traced.result_bind, Traced.result_emit, Traced.result_pure]
    refine Coupled.bind_same fun _ _ => ?_
    exact Coupled.pure (hsound.alike_spread ht hs.1 hs.1)
  · exact hloop loop (entryAt_eq_ok.mp hget)

/-! ### Procedures -/

/-- The body of a procedure that starts at corresponding times is left at corresponding times. -/
theorem coupled_body (hsound : c.Sound e e' scenario false false)
    (hcall : c.Calls scenario false false call call')
    (hinner : c.Inners scenario false false inner inner') (hstart : c.time start start')
    (hledger : c.ledger ledger ledger') :
    Coupled (fun t t' => c.ledger t.ledger t'.ledger ∧ ∀ b ∈ p.sinks,
        Option.Rel (fun s s' : Stamp => c.time s.finish s'.finish) (t.times.get? b)
          (t'.times.get? b))
      (e.region call inner scenario false p none .root (p.orderOf none) (.moment start)
        ⟨∅, ledger⟩).result
      (e'.region call' inner' scenario false p none .root (p.orderOf none) (.moment start')
        ⟨∅, ledger'⟩).result := by
  refine (coupled_region hsound hcall hinner (hsound.stamps_moment hstart)
    (Coupling.Sound.alike_empty hledger)).imp ?_
  exact fun t t' ht => ⟨ht.ledger, fun b _ => ht.finish b⟩

/-- Calls correspond if the stamps do with which the body of the procedure is left. -/
theorem coupled_procedureAt (hsound : c.Sound e e' scenario relative relative') {q : Nat}
    (hstart : c.time start start')
    (hregion : ∀ p, e.program.procedures[q]? = some p →
      Coupled (fun t t' => c.ledger t.ledger t'.ledger ∧ ∀ b ∈ p.sinks,
          Option.Rel (fun s s' : Stamp => c.time s.finish s'.finish) (t.times.get? b)
            (t'.times.get? b))
        (e.region (e.procedureAt n) (e.loopAt (e.procedureAt n) p p.loops.length) scenario false p
          none .root (p.orderOf none) (.moment start) ⟨∅, ledger⟩).result
        (e'.region (e'.procedureAt n') (e'.loopAt (e'.procedureAt n') p p.loops.length) scenario
          false p none .root (p.orderOf none) (.moment start') ⟨∅, ledger'⟩).result) :
    Coupled (fun r r' => c.time (start + r.1.cost) (start' + r'.1.cost) ∧ c.ledger r.2 r'.2)
      (e.procedureAt (n + 1) scenario relative q start ledger).result
      (e'.procedureAt (n' + 1) scenario relative' q start' ledger').result := by
  rintro ⟨timing, ledger₁⟩ ⟨timing', ledger₁'⟩ h h'
  obtain ⟨p, t, finish, hp, hrun, hexit, hle, rfl, rfl⟩ := procedureAt_recorded h
  obtain ⟨p', t', finish', hp', hrun', hexit', hle', rfl, rfl⟩ := procedureAt_recorded h'
  rw [hsound.program] at hp'
  obtain rfl := Option.some.inj (hp.symm.trans hp')
  obtain ⟨hledger, hsinks⟩ := hregion p hp _ _ hrun hrun'
  have hfinish := coupled_exitTime hsound hsinks _ _ hexit hexit'
  refine ⟨?_, hsound.record hledger hstart hfinish⟩
  show c.time (start + (finish - start)) (start' + (finish' - start'))
  rwa [Nat.add_sub_cancel' hle, Nat.add_sub_cancel' hle']

end Engine

end CycleBounds.Bound
