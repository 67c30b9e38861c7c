import CycleBounds.Proofs.Cache.Bodies

/-!
# Following loops and calls at one cache level

The first iteration of a loop starts from the state at its entry. Its steady iterations start from a
state that their own end does not change any more (`Settles`), so they cover all later iterations,
however many there are.

* `innerSound_loopAt`: loops are right about executions.
* `callSound_procedureAt`: so are calls, by induction on the length of chains of calls.
-/

namespace CycleBounds.Cache.Level

open Code (Program Procedure Loop)
open Run (History Laps Policy Contract FlowAt FlowBody Encloses)

theorem stateAfter_eq_ok {out : Table Nat State} {b : Nat} {s : State} :
    stateAfter out b = .ok s ↔ out.get? b = some s := by
  unfold stateAfter
  cases out.get? b with
  | none => simp
  | some t => simp

theorem get?_spread {blocks : List Nat} {s : State} {out : Table Nat State} {b : Nat} :
    (spread blocks s out).get? b = if b ∈ blocks then some s else out.get? b :=
  Table.get?_foldl_insert blocks s out b

/-! ### Steady iterations -/

/-- The search for a state that covers its own end: the state and the pass before and after. -/
inductive Settles (run : State → Pass → Except Fault Pass) (sink : Nat) :
    State → Pass → State → Pass → Prop
  | done {head pass pass' o} : run head pass = .ok pass' → pass'.out.get? sink = some o →
      head.join o = head → Settles run sink head pass head pass'
  | next {head pass pass₁ o head' pass'} : run head pass = .ok pass₁ →
      pass₁.out.get? sink = some o → Settles run sink (head.join o) pass₁ head' pass' →
      Settles run sink head pass head' pass'

/-- A search with a result is a sequence of rounds that ends with a stable one. -/
theorem settle_eq_ok {run : State → Pass → Traced Fault Pass} {sink : Nat} {unstable : Defect}
    {fuel rounds n : Nat} {head head' : State} {pass pass' : Pass}
    (h : (settle run sink unstable fuel rounds head pass).result = .ok (head', n, pass')) :
    Settles (fun s pass => (run s pass).result) sink head pass head' pass' := by
  induction fuel generalizing rounds head pass with
  | zero => cases h
  | succ fuel ih =>
    simp only [settle, Traced.result_bind, Traced.result_liftM] at h
    obtain ⟨pass₁, hrun, h⟩ := bind_eq_ok.mp h
    obtain ⟨o, ho, h⟩ := bind_eq_ok.mp h
    rw [stateAfter_eq_ok] at ho
    split at h
    · rename_i heq
      rw [Traced.result_pure, Except.ok.injEq, Prod.mk.injEq, Prod.mk.injEq] at h
      obtain ⟨rfl, -, rfl⟩ := h
      exact .done hrun ho heq
    · exact .next hrun ho (ih h)

/-- A search that ends within some limit takes as many rounds within any other one that is not
lower than that number. -/
theorem settle_of_le {run : State → Pass → Traced Fault Pass} {sink : Nat} {unstable : Defect}
    {fuel rounds n : Nat} {head head' : State} {pass pass' : Pass}
    (h : (settle run sink unstable fuel rounds head pass).result = .ok (head', n, pass')) :
    rounds < n ∧ n ≤ rounds + fuel ∧ ∀ limit, n ≤ rounds + limit →
      (settle run sink unstable limit rounds head pass).result = .ok (head', n, pass') := by
  induction fuel generalizing rounds head pass with
  | zero => cases h
  | succ fuel ih =>
    simp only [settle, Traced.result_bind, Traced.result_liftM] at h
    obtain ⟨pass₁, hrun, h⟩ := bind_eq_ok.mp h
    obtain ⟨o, ho, h⟩ := bind_eq_ok.mp h
    -- one round is the same within any limit
    have hstep : ∀ limit, (settle run sink unstable (limit + 1) rounds head pass).result =
        Traced.result (if head.join o = head then pure (head, rounds + 1, pass₁)
          else settle run sink unstable limit (rounds + 1) (head.join o) pass₁) := by
      intro limit
      simp only [settle, Traced.result_bind, Traced.result_liftM, hrun]
      show stateAfter pass₁.out sink >>= _ = _
      rw [ho]
      rfl
    split at h
    · rename_i heq
      obtain ⟨rfl, hn, rfl⟩ : head = head' ∧ rounds + 1 = n ∧ pass₁ = pass' := by simpa using h
      refine ⟨by omega, by omega, fun limit hlimit => ?_⟩
      obtain ⟨limit, rfl⟩ := Nat.exists_eq_add_one.mpr (show 0 < limit by omega)
      rw [hstep, if_pos heq, hn]
      rfl
    · rename_i hne
      obtain ⟨hlt, hle, hmore⟩ := ih h
      refine ⟨by omega, by omega, fun limit hlimit => ?_⟩
      obtain ⟨limit, rfl⟩ := Nat.exists_eq_add_one.mpr (show 0 < limit by omega)
      rw [hstep, if_neg hne]
      exact hmore limit (by omega)

section Settling

variable {run : State → Pass → Except Fault Pass} {sink : Nat} {head head' : State}
  {pass pass' : Pass}

/-- The last round of the search. -/
theorem Settles.last (h : Settles run sink head pass head' pass') :
    ∃ pass₁ o, run head' pass₁ = .ok pass' ∧ pass'.out.get? sink = some o ∧
      head'.join o = head' := by
  induction h with
  | done hrun ho heq => exact ⟨_, _, hrun, ho, heq⟩
  | next _ _ _ ih => exact ih

/-- The state that was searched covers its own end. -/
theorem Settles.covers_end {c : Config} {m : Lru c} {o : State}
    (h : Settles run sink head pass head' pass') (ho : pass'.out.get? sink = some o)
    (hm : o.Covers m) : head'.Covers m := by
  obtain ⟨-, o', -, ho', hstable⟩ := h.last
  obtain rfl := Option.some.inj (ho.symm.trans ho')
  rw [← hstable]
  exact hm.join_right

theorem Settles.covers {c : Config} {m : Lru c} (h : Settles run sink head pass head' pass')
    (hm : head.Covers m) : head'.Covers m := by
  induction h with
  | done => exact hm
  | next _ _ _ ih => exact ih hm.join_left

theorem Settles.fits {c : Config} (h : Settles run sink head pass head' pass')
    (hrun : ∀ {s pass pass' o}, run s pass = .ok pass' → s.Fits c →
      pass'.out.get? sink = some o → o.Fits c) (hs : head.Fits c) : head'.Fits c := by
  induction h with
  | done => exact hs
  | next hr ho _ ih => exact ih (hs.join (hrun hr hs ho))

/-- What every round relates is related by the search. -/
theorem Settles.rel {R : Pass → Pass → Prop} (h : Settles run sink head pass head' pass')
    (hrun : ∀ {s pass pass'}, run s pass = .ok pass' → R pass pass')
    (trans : ∀ {t u v}, R t u → R u v → R t v) : R pass pass' := by
  induction h with
  | done hr => exact hrun hr
  | next hr _ _ ih => exact trans (hrun hr) ih

end Settling

/-! ### Both kinds of iterations -/

section Joins

variable {first : List (Nat × State)} {out out' : Table Nat State} {b : Nat}

/-- Blocks that are not joined keep their states. -/
theorem joinPasses_outside (h : joinPasses first out = .ok out') (hb : ∀ s, (b, s) ∉ first) :
    out'.get? b = out.get? b := by
  refine foldlM_rel (R := fun out out' : Table Nat State => out'.get? b = out.get? b)
    (fun _ => rfl) (fun h₁ h₂ => h₂.trans h₁) (fun e he out out' hstep => ?_) h
  obtain ⟨t, -, hstep⟩ := bind_eq_ok.mp hstep
  rw [pure_eq_ok] at hstep
  rw [← hstep]
  apply Table.get?_insert_of_ne
  rintro rfl
  exact hb e.2 he

/-- The state after a block covers what both kinds of iterations do. -/
theorem joinPasses_eq_ok {c : Config} (h : joinPasses first out = .ok out')
    (hfirst : ∀ e ∈ first, e.2.Fits c) {t : State} (ht : out.get? b = some t) (hfit : t.Fits c) :
    ∃ o, out'.get? b = some o ∧ o.Fits c ∧ (∀ m : Lru c, t.Covers m → o.Covers m) ∧
      ∀ s, (b, s) ∈ first → ∀ m : Lru c, s.Covers m → o.Covers m := by
  unfold joinPasses at h
  -- by induction on what is joined, while the state after `b` grows
  induction first generalizing out t with
  | nil =>
    rw [List.foldlM_nil, pure_eq_ok] at h
    exact ⟨t, h ▸ ht, hfit, fun _ => id, nofun⟩
  | cons e rest ih =>
    obtain ⟨x, s₀⟩ := e
    obtain ⟨out₁, hstep, h⟩ := foldlM_cons_eq_ok.mp h
    obtain ⟨t₀, ht₀, hstep⟩ := bind_eq_ok.mp hstep
    rw [stateAfter_eq_ok] at ht₀
    rw [pure_eq_ok] at hstep
    subst hstep
    have hrest : ∀ e ∈ rest, e.2.Fits c := fun e he => hfirst e (List.mem_cons_of_mem _ he)
    by_cases hx : b = x
    · subst hx
      obtain rfl := Option.some.inj (ht.symm.trans ht₀)
      have hs₀ : s₀.Fits c := hfirst (b, s₀) List.mem_cons_self
      obtain ⟨o, ho, hof, hright, hleft⟩ :=
        ih h hrest (Table.get?_insert_self _ _ _) (hs₀.join hfit)
      refine ⟨o, ho, hof, fun m hm => hright m hm.join_right, fun s hs m hm => ?_⟩
      rcases List.mem_cons.mp hs with heq | hs
      · obtain rfl := (Prod.mk.inj heq).2
        exact hright m hm.join_left
      · exact hleft s hs m hm
    · obtain ⟨o, ho, hof, hright, hleft⟩ :=
        ih h hrest ((Table.get?_insert_of_ne _ hx _).trans ht) hfit
      refine ⟨o, ho, hof, hright, fun s hs m hm => ?_⟩
      rcases List.mem_cons.mp hs with heq | hs
      · exact absurd (Prod.mk.inj heq).1 hx
      · exact hleft s hs m hm

end Joins

/-- How a body is followed: with or without recording, in a context, from a state. -/
abbrev Body := (recording : Bool) → Context → State → Pass → Except Fault Pass

def ends (loop : Loop) (out : Table Nat State) : List (Nat × State) :=
  loop.blocks.filterMap fun b => (out.get? b).map fun s => (b, s)

/-- The ends of a loop are the states of its blocks. -/
theorem mem_ends {loop : Loop} {out : Table Nat State} {b : Nat} {s : State} :
    (b, s) ∈ ends loop out ↔ b ∈ loop.blocks ∧ out.get? b = some s := by
  unfold ends
  rw [List.mem_filterMap]
  constructor
  · rintro ⟨x, hx, hmap⟩
    obtain ⟨t, ht, heq⟩ := Option.map_eq_some_iff.mp hmap
    obtain ⟨rfl, rfl⟩ := Prod.mk.inj heq
    exact ⟨hx, ht⟩
  · rintro ⟨hb, hs⟩
    exact ⟨b, hb, by rw [hs]; rfl⟩

/-- A loop is followed: its first iteration, the search for a state before its steady iterations,
and these once more if findings are recorded. -/
inductive Iterated (body : Body) (loop : Loop) (recording : Bool) (context : Context)
    (entry : State) (pass : Pass) : Pass → Prop
  | mk {pass₁ pass₂ pass₃ : Pass} {head₁ head : State} {out : Table Nat State}
      (first : body recording (context.nest .first) entry pass = .ok pass₁)
      (sink : pass₁.out.get? loop.sink = some head₁)
      (settles : Settles (body false (context.nest .steady)) loop.sink head₁ pass₁ head pass₂)
      (again : recording = true → body true (context.nest .steady) head pass₂ = .ok pass₃)
      (same : recording = false → pass₃ = pass₂)
      (join : joinPasses (ends loop pass₁.out) pass₃.out = .ok out) :
      Iterated body loop recording context entry pass { pass₃ with out }

section Iterations

variable {subject : Subject} {final : Findings} {feed : Feed subject.config} {p : Procedure}
  {l : Nat} {loop : Loop} {body : Body} {recording : Bool} {context : Context} {entry : State}
  {pass pass' : Pass}

structure BodySound (subject : Subject) (final : Findings) (feed : Feed subject.config)
    (p : Procedure) (l : Nat) (body : Body) : Prop where
  outside : ∀ {recording context s pass pass' b}, body recording context s pass = .ok pass' →
    ¬ p.Inside (some l) b → pass'.out.get? b = pass.out.get? b
  below : ∀ {recording context s pass pass'}, body recording context s pass = .ok pass' →
    pass.findings.Below pass'.findings
  fits : ∀ {recording context s pass pass' b}, body recording context s pass = .ok pass' →
    s.Fits subject.config → p.Inside (some l) b →
    ∃ o, pass'.out.get? b = some o ∧ o.Fits subject.config
  flow : ∀ {recording s pass pass'} {base : Laps}, body recording base.context s pass = .ok pass' →
    pass'.findings.Below final → s.Fits subject.config → Encloses p base (some l) →
    FlowBody .free subject.program (Right subject final feed recording) p (some l) base
      (Tracks subject final feed recording s) (Leaves subject final feed recording pass'.out)

/-- A loop leaves the states of blocks outside of it alone. -/
theorem Iterated.outside (h : Iterated body loop recording context entry pass pass')
    (hbody : BodySound subject final feed p l body) (hl : p.loops[l]? = some loop) {b : Nat}
    (hb : ¬ p.Inside (some l) b) : pass'.out.get? b = pass.out.get? b := by
  obtain ⟨first, -, settles, again, same, join⟩ := h
  rename_i pass₁ pass₂ pass₃ head₁ head out
  have hjoin : out.get? b = pass₃.out.get? b := by
    refine joinPasses_outside join fun s hs => hb ⟨loop, hl, ?_⟩
    exact (mem_ends.mp hs).1
  have hlast : pass₃.out.get? b = pass₂.out.get? b := by
    cases hr : recording with
    | false => rw [same hr]
    | true => exact hbody.outside (again hr) hb
  have hsettles : pass₂.out.get? b = pass₁.out.get? b :=
    settles.rel (R := fun t u => u.out.get? b = t.out.get? b)
      (fun hrun => hbody.outside hrun hb) fun h₁ h₂ => h₂.trans h₁
  show out.get? b = _
  rw [hjoin, hlast, hsettles, hbody.outside first hb]

theorem BodySound.below_again (hbody : BodySound subject final feed p l body) {head : State}
    {pass₂ pass₃ : Pass} (again : recording = true → body true context head pass₂ = .ok pass₃)
    (same : recording = false → pass₃ = pass₂) : pass₂.findings.Below pass₃.findings := by
  cases hr : recording with
  | false =>
    rw [same hr]
    exact .refl _
  | true => exact hbody.below (again hr)

theorem Settles.below_of_body {sink : Nat} {head₁ head : State} {pass₁ pass₂ : Pass}
    (hbody : BodySound subject final feed p l body)
    (settles : Settles (body false context) sink head₁ pass₁ head pass₂) :
    pass₁.findings.Below pass₂.findings :=
  settles.rel (R := fun t u => t.findings.Below u.findings) hbody.below .trans

theorem Iterated.below (h : Iterated body loop recording context entry pass pass')
    (hbody : BodySound subject final feed p l body) : pass.findings.Below pass'.findings := by
  obtain ⟨first, -, settles, again, same, -⟩ := h
  have hagain := hbody.below_again again same
  exact (hbody.below first).trans ((settles.below_of_body hbody).trans hagain)

/-- The last steady iteration that is followed, whether it is recorded or not. -/
theorem last_of_settles {head₁ head : State} {pass₁ pass₂ pass₃ : Pass} {steady : Context}
    {sink : Nat} (settles : Settles (body false steady) sink head₁ pass₁ head pass₂)
    (again : recording = true → body true steady head pass₂ = .ok pass₃)
    (same : recording = false → pass₃ = pass₂) :
    ∃ pass, body recording steady head pass = .ok pass₃ := by
  cases hr : recording with
  | false =>
    obtain ⟨pass, -, hrun, -⟩ := settles.last
    exact ⟨pass, same hr ▸ hrun⟩
  | true => exact ⟨pass₂, again hr⟩

theorem BodySound.fits_out (hbody : BodySound subject final feed p l body) {s o : State} {b : Nat}
    (h : body recording context s pass = .ok pass') (hs : s.Fits subject.config)
    (hb : p.Inside (some l) b) (ho : pass'.out.get? b = some o) : o.Fits subject.config := by
  obtain ⟨o', ho', hfit⟩ := hbody.fits h hs hb
  obtain rfl := Option.some.inj (ho.symm.trans ho')
  exact hfit

theorem Settles.fits_of_body {head₁ head : State} {pass₁ pass₂ : Pass}
    (hbody : BodySound subject final feed p l body) (hsink : p.Inside (some l) loop.sink)
    (settles : Settles (body false context) loop.sink head₁ pass₁ head pass₂)
    (hs : head₁.Fits subject.config) : head.Fits subject.config :=
  settles.fits (fun hrun hs ho => hbody.fits_out hrun hs hsink ho) hs

/-- The state with which a block of a loop ends covers its ends in both kinds of iterations. -/
theorem covers_of_join {c : Config} {pass₁ pass₂ : Pass} {out : Table Nat State}
    (join : joinPasses (ends loop pass₁.out) pass₂.out = .ok out)
    (hfirst : ∀ {b o}, b ∈ loop.blocks → pass₁.out.get? b = some o → o.Fits c)
    (hlast : ∀ {b}, b ∈ loop.blocks → ∃ o, pass₂.out.get? b = some o ∧ o.Fits c)
    {b : Nat} (hb : b ∈ loop.blocks) : ∃ o, out.get? b = some o ∧ o.Fits c ∧
      ∀ t, pass₁.out.get? b = some t ∨ pass₂.out.get? b = some t →
        ∀ m : Lru c, t.Covers m → o.Covers m := by
  obtain ⟨t, ht, hfit⟩ := hlast hb
  have hends : ∀ e ∈ ends loop pass₁.out, e.2.Fits c := by
    intro e he
    obtain ⟨hmem, hget⟩ := mem_ends.mp he
    exact hfirst hmem hget
  obtain ⟨o, ho, hof, hright, hleft⟩ := joinPasses_eq_ok join hends ht hfit
  refine ⟨o, ho, hof, fun t' ht' => ?_⟩
  rcases ht' with ht' | ht'
  · exact hleft t' (mem_ends.mpr ⟨hb, ht'⟩)
  · obtain rfl := Option.some.inj (ht.symm.trans ht')
    exact hright

/-- All blocks of a loop end with ages below the number of ways. -/
theorem Iterated.fits (h : Iterated body loop recording context entry pass pass')
    (hbody : BodySound subject final feed p l body) (hl : p.loops[l]? = some loop)
    (hs : entry.Fits subject.config) (hsink : p.Inside (some l) loop.sink) {b : Nat}
    (hb : b ∈ loop.blocks) : ∃ o, pass'.out.get? b = some o ∧ o.Fits subject.config := by
  obtain ⟨first, sink, settles, again, same, join⟩ := h
  obtain ⟨pass₀, hlast⟩ := last_of_settles settles again same
  have hhead := settles.fits_of_body hbody hsink (hbody.fits_out first hs hsink sink)
  obtain ⟨o, ho, hof, -⟩ := covers_of_join join
    (fun hb ho => hbody.fits_out first hs ⟨loop, hl, hb⟩ ho)
    (fun hb => hbody.fits hlast hhead ⟨loop, hl, hb⟩) hb
  exact ⟨o, ho, hof⟩

/-- A loop whose fetches the findings record. -/
theorem Iterated.flow {base : Laps} {region : Option Nat} {r : Nat} (hp : p.WellFormed)
    (h : Iterated body loop recording base.context entry pass pass')
    (hbody : BodySound subject final feed p l body) (hl : p.loops[l]? = some loop)
    (hbound : 0 < loop.bound) (hsink : p.Inside (some l) loop.sink)
    (hh : p.headerOf? r = some l) (hne : some l ≠ region) (hr : r ∈ p.orderOf region)
    (hbase : Encloses p base region) (hf : pass'.findings.Below final)
    (hs : entry.Fits subject.config) :
    FlowAt .free subject.program (Right subject final feed recording) p region base r
      (Tracks subject final feed recording entry)
      (Leaves subject final feed recording pass'.out) := by
  obtain ⟨first, sink, settles, again, same, join⟩ := h
  rename_i pass₁ pass₂ pass₃ head₁ head out
  obtain ⟨pass₀, hlast⟩ := last_of_settles settles again same
  have hhead₁ := hbody.fits_out first hs hsink sink
  have hhead := settles.fits_of_body hbody hsink hhead₁
  have hbelow₃ : pass₃.findings.Below final := hf
  have hbelow₂ : pass₂.findings.Below final := (hbody.below_again again same).trans hbelow₃
  have hbelow₁ : pass₁.findings.Below final := (settles.below_of_body hbody).trans hbelow₂
  have hinner := fun k => hbase.inner hp hr hh hne hl k
  -- the first round starts from the entry, and every later one from the state that was searched
  refine Run.flow_loop hp hh hne hl hbound
    (fun k => k.casesOn (Tracks subject final feed recording entry)
      fun _ => Tracks subject final feed recording head)
    (fun k b h => k.casesOn (Leaves subject final feed recording pass₁.out b h)
      fun _ => Leaves subject final feed false pass₂.out b h ∧
        Leaves subject final feed recording pass₃.out b h) ?_ ?_ ?_
  · intro k _
    cases k with
    | zero => exact hbody.flow first hbelow₁ hs (hinner 0)
    | succ k =>
      obtain ⟨pass₁', o, hrun, -⟩ := settles.last
      have hsearch := hbody.flow hrun hbelow₂ hhead (hinner (k + 1))
      have hrecord := hbody.flow hlast hbelow₃ hhead (hinner (k + 1))
      apply (hsearch.and hrecord).imp
      · exact fun h ht => ⟨⟨ht.1, nofun⟩, ht⟩
      · exact fun b h _ hend => hend
  · intro k h _ hend
    cases k with
    | zero =>
      obtain ⟨o, ho, ht⟩ := hend
      obtain rfl := Option.some.inj (sink.symm.trans ho)
      exact ht.imp settles.covers
    | succ k =>
      -- the end of a steady iteration is covered by the state before it
      obtain ⟨⟨o, ho, ht⟩, ⟨o', -, ht'⟩⟩ := hend
      exact ⟨fun hall => settles.covers_end ho (ht.1 hall), ht'.2⟩
  · intro k b h hb _ _ hend
    obtain ⟨o, ho, -, hcovers⟩ := covers_of_join join
      (fun hb ho => hbody.fits_out first hs ⟨loop, hl, hb⟩ ho)
      (fun hb => hbody.fits hlast hhead ⟨loop, hl, hb⟩) hb
    refine ⟨o, ho, ?_⟩
    cases k with
    | zero =>
      obtain ⟨t, ht, htrack⟩ := hend
      exact htrack.imp (hcovers t (.inl ht) _)
    | succ k =>
      obtain ⟨-, t, ht, htrack⟩ := hend
      exact htrack.imp (hcovers t (.inr ht) _)

end Iterations

/-! ### Loops -/

section Loops

variable {subject : Subject} {final : Findings} {feed : Feed subject.config} {call : Call}
  {p : Procedure} {recording : Bool} {l n : Nat} {loop : Loop} {context : Context} {entry : State}
  {pass pass' : Pass}

/-- The body of a loop in which at most `n` further loops are nested. -/
def bodyOf (subject : Subject) (call : Call) (p : Procedure) (n l : Nat) (loop : Loop) : Body :=
  fun recording context s pass =>
    (region subject call (loopAt subject call p n) recording p (some l) context loop.order s
      pass).result

/-- A loop is passed if its bound is zero, and otherwise iterated. -/
theorem loopAt_eq_ok
    (h : (loopAt subject call p (n + 1) recording l context entry pass).result = .ok pass') :
    ∃ loop, p.loops[l]? = some loop ∧
      (loop.bound = 0 ∧ pass' = { pass with out := spread loop.blocks entry pass.out } ∨
        0 < loop.bound ∧
          Iterated (bodyOf subject call p n l loop) loop recording context entry pass pass') := by
  simp only [loopAt, Traced.result_bind, Traced.result_liftM] at h
  obtain ⟨loop, hloop, h⟩ := bind_eq_ok.mp h
  refine ⟨loop, entryAt_eq_ok.mp hloop, ?_⟩
  split at h
  · rename_i hzero
    simp only [Traced.result_bind, Traced.result_emit, Traced.result_pure] at h
    obtain ⟨⟨⟩, -, h⟩ := bind_eq_ok.mp h
    exact .inl ⟨hzero, (Except.ok.inj h).symm⟩
  · rename_i hpos
    refine .inr ⟨Nat.pos_of_ne_zero hpos, ?_⟩
    simp only [Traced.result_bind, Traced.result_liftM, Traced.result_emit] at h
    obtain ⟨first, hfirst, h⟩ := bind_eq_ok.mp h
    obtain ⟨steady, hsteady, h⟩ := bind_eq_ok.mp h
    obtain rfl := Context.enter_eq_ok hfirst
    obtain rfl := Context.enter_eq_ok hsteady
    obtain ⟨pass₁, hrun, h⟩ := bind_eq_ok.mp h
    obtain ⟨head₁, hsink, h⟩ := bind_eq_ok.mp h
    obtain ⟨⟨head, rounds, pass₂⟩, hsettle, h⟩ := bind_eq_ok.mp h
    obtain ⟨⟨⟩, -, h⟩ := bind_eq_ok.mp h
    rw [stateAfter_eq_ok] at hsink
    have hsettles := settle_eq_ok hsettle
    -- the steady iteration is followed once more only if it is recorded
    cases recording with
    | false =>
      simp only [Bool.false_eq_true, if_false, Traced.result_bind, Traced.result_pure,
        Traced.result_liftM] at h
      obtain ⟨pass₃, hsame, h⟩ := bind_eq_ok.mp h
      obtain ⟨out, hjoin, h⟩ := bind_eq_ok.mp h
      obtain rfl := Except.ok.inj h
      exact .mk hrun hsink hsettles nofun (fun _ => (Except.ok.inj hsame).symm) hjoin
    | true =>
      simp only [if_true, Traced.result_bind, Traced.result_pure, Traced.result_liftM] at h
      obtain ⟨pass₃, hagain, h⟩ := bind_eq_ok.mp h
      obtain ⟨out, hjoin, h⟩ := bind_eq_ok.mp h
      obtain rfl := Except.ok.inj h
      exact .mk hrun hsink hsettles (fun _ => hagain) nofun hjoin

/-- The body of a loop is right about executions if its calls and inner loops are. -/
theorem bodySound_bodyOf (hp : p.WellFormed) (hcall : CallSound subject final feed call)
    (hinner : InnerSound subject final feed p (loopAt subject call p n))
    (hl : p.loops[l]? = some loop) :
    BodySound subject final feed p l (bodyOf subject call p n l loop) := by
  have hhead : (p.orderOf (some l)).head? = some loop.header :=
    Procedure.orderOf_loop hl ▸ hp.head_loop hl
  unfold bodyOf
  rw [← Procedure.orderOf_loop hl]
  constructor
  case outside => exact fun h hb => region_outside hp hinner h hb
  case below => exact fun h => region_below hcall hinner h
  case fits => exact fun h hs hb => region_fits hp hcall hinner h hs hb
  case flow => exact fun h hf hs hbase => region_flow hp hcall hinner hbase hhead h hf hs

/-- Loops are right about executions, however deep they nest. -/
theorem innerSound_loopAt (hp : p.WellFormed) (hcall : CallSound subject final feed call)
    (n : Nat) : InnerSound subject final feed p (loopAt subject call p n) := by
  induction n with
  | zero => exact ⟨nofun, nofun, nofun, nofun⟩
  | succ n ih =>
    constructor
    case outside =>
      intro recording l context s pass pass' b h hb
      obtain ⟨loop, hl, ⟨-, rfl⟩ | ⟨-, hit⟩⟩ := loopAt_eq_ok h
      · show (spread loop.blocks s pass.out).get? b = _
        rw [get?_spread, if_neg fun hmem => hb ⟨loop, hl, hmem⟩]
      · exact hit.outside (bodySound_bodyOf hp hcall ih hl) hl hb
    case below =>
      intro recording l context s pass pass' h
      obtain ⟨loop, hl, ⟨-, rfl⟩ | ⟨-, hit⟩⟩ := loopAt_eq_ok h
      · exact .refl _
      · exact hit.below (bodySound_bodyOf hp hcall ih hl)
    case fits =>
      intro recording l context s pass pass' b h hs hb
      obtain ⟨loop, hl, hloop⟩ := loopAt_eq_ok h
      obtain ⟨loop', hl', hmem⟩ := hb
      obtain rfl := Option.some.inj (hl.symm.trans hl')
      rcases hloop with ⟨-, rfl⟩ | ⟨-, hit⟩
      · exact ⟨s, by rw [get?_spread, if_pos hmem], hs⟩
      · exact hit.fits (bodySound_bodyOf hp hcall ih hl) hl hs (hp.sink_inside hl) hmem
    case flow =>
      intro recording l s pass pass' region r base h hf hs hh hne hr hbase
      obtain ⟨loop, hl, ⟨hzero, rfl⟩ | ⟨hpos, hit⟩⟩ := loopAt_eq_ok h
      · apply (Run.flow_pass hh hne hl hzero fun h ht => ht.2).imp (fun _ => id)
        intro b h hb ht
        have hmem := (Procedure.standsFor_header hh hne hl).mp hb
        exact ⟨s, by rw [get?_spread, if_pos hmem], ht⟩
      · exact hit.flow hp (bodySound_bodyOf hp hcall ih hl) hl hpos (hp.sink_inside hl) hh hne hr
          hbase hf hs

end Loops

/-! ### Procedures -/

section Procedures

variable {subject : Subject} {final : Findings} {feed : Feed subject.config} {p : Procedure}
  {n q : Nat} {recording : Bool} {s s' : State} {f f' : Findings}

/-- A call follows the body of the procedure. -/
theorem procedureAt_eq_ok
    (h : (procedureAt subject (n + 1) recording q s f).result = .ok (s', f')) :
    ∃ p pass, subject.program.procedures[q]? = some p ∧
      (region subject (procedureAt subject n)
        (loopAt subject (procedureAt subject n) p p.loops.length) recording p none .root
        (p.orderOf none) s ⟨f, ∅⟩).result = .ok pass ∧
      s' = exitState p s pass.out ∧ f' = pass.findings := by
  simp only [procedureAt, Traced.result_bind, Traced.result_liftM, Traced.result_pure] at h
  obtain ⟨p, hp, h⟩ := bind_eq_ok.mp h
  obtain ⟨pass, hpass, h⟩ := bind_eq_ok.mp h
  obtain ⟨rfl, rfl⟩ := Prod.mk.inj (Except.ok.inj h)
  exact ⟨p, pass, entryAt_eq_ok.mp hp, hpass, rfl, rfl⟩

/-- What the blocks through which a procedure is left have, the state in which it returns has. -/
theorem exitState_of_forall {P : State → Prop} (hjoin : ∀ {s t}, P s → P t → P (s.join t))
    {out : Table Nat State} (hs : P s) (hout : ∀ b ∈ p.sinks, ∀ o, out.get? b = some o → P o) :
    P (exitState p s out) := by
  have hall : ∀ o ∈ p.sinks.filterMap out.get?, P o := by
    intro o ho
    obtain ⟨b, hb, hget⟩ := List.mem_filterMap.mp ho
    exact hout b hb o hget
  unfold exitState
  cases hlist : p.sinks.filterMap out.get? with
  | nil => exact hs
  | cons t rest =>
    rw [hlist] at hall
    exact State.foldl_join_of_forall hjoin hall

/-- The state in which a procedure returns covers the ends of all blocks through which it is
left. -/
theorem exitState_covers {c : Config} {m : Lru c} {out : Table Nat State} {b : Nat} {o : State}
    (hb : b ∈ p.sinks) (hget : out.get? b = some o) (hm : o.Covers m) :
    (exitState p s out).Covers m := by
  have ho : o ∈ p.sinks.filterMap out.get? := List.mem_filterMap.mpr ⟨b, hb, hget⟩
  unfold exitState
  cases hlist : p.sinks.filterMap out.get? with
  | nil =>
    rw [hlist] at ho
    cases ho
  | cons t rest => exact State.Covers.foldl_join (hlist ▸ ho) hm

/-- Calls are right about all runs of the called procedures. -/
theorem callSound_procedureAt (hprogram : subject.program.Accepted) (n : Nat) :
    CallSound subject final feed (procedureAt subject n) := by
  induction n with
  | zero => exact ⟨nofun, nofun, nofun⟩
  | succ n ih =>
    constructor
    case below =>
      intro recording q s f s' f' h
      obtain ⟨p, pass, hq, hpass, -, rfl⟩ := procedureAt_eq_ok h
      have hp := hprogram.wellFormed hq
      exact region_below ih (innerSound_loopAt hp ih _) hpass
    case fits =>
      intro recording q s f s' f' h hs
      obtain ⟨p, pass, hq, hpass, rfl, -⟩ := procedureAt_eq_ok h
      have hp := hprogram.wellFormed hq
      apply exitState_of_forall State.Fits.join hs
      intro b hb o ho
      have hin : p.Inside none b := hp.inside_of_mem_order (hp.sinks_mem hb)
      obtain ⟨o', ho', hfit⟩ :=
        region_fits hp ih (innerSound_loopAt hp ih _) hpass hs hin
      obtain rfl := Option.some.inj (ho.symm.trans ho')
      exact hfit
    -- the exit state covers the states after all sinks
    case contract =>
      intro recording q s f s' f' h hf hs
      obtain ⟨p, pass, hq, hpass, rfl, rfl⟩ := procedureAt_eq_ok h
      have hp := hprogram.wellFormed hq
      have hbase : Encloses p [] none := nofun
      have hbody := region_flow hp ih (innerSound_loopAt hp ih _) hbase hp.head_order hpass hf hs
      apply Run.contract_of_body hp hq hbody
      rintro b hb h ⟨o, ho, ht⟩
      exact ht.imp (exitState_covers hb ho)

end Procedures

end CycleBounds.Cache.Level
