import CycleBounds.Proofs.Results
import CycleBounds.Proofs.Run.Flow

/-!
# Sweeps

An analysis follows the blocks of a region in their order: the first one from a given value, and
every other one from a value made of those with which its predecessors end. A `Sweep` is such an
analysis, with what it does at a block left open.

* `Sweep.stage_of_run`: the visit of one block in a run (`Sweep.Stage`).
* `Sweep.valid_of_run`: what holds of the first values holds of all.
* `Sweep.Advances.ensures_run`, `Sweep.ensures_run`: a run comes to its end.
* `Sweep.Advances.arrives`: what holds wherever a run comes to (`Sweep.Arrives`).
* `Sweep.coupled_run`: what two analyses have in common at every block, their runs have in common.
* `Sweep.flow_of_run`: if every visit is right about executions, so is the whole sweep.
-/

namespace CycleBounds.Run

open Code (Program Procedure)

/-- An analysis that visits blocks one by one. It starts a block from a value of type `σ`, and a
value of type `π` holds what has been found so far. -/
structure Sweep (ε σ π : Type) where
  visit : (block : Nat) → σ → π → Except ε π
  /-- The value to start a block from. -/
  before : π → (block : Nat) → Except ε σ
  /-- The value with which a block ends. -/
  out : π → (block : Nat) → Option σ

namespace Sweep

variable {ε σ π : Type}

def next (w : Sweep ε σ π) (t : π) (b : Nat) : Except ε π := do
  let s ← w.before t b
  w.visit b s t

/-- Visit the blocks of an order, the first one from a given value. -/
def run (w : Sweep ε σ π) : (order : List Nat) → σ → π → Except ε π
  | [], _, t => pure t
  | b :: rest, s, t => do
    let t ← w.visit b s t
    rest.foldlM w.next t

variable {w : Sweep ε σ π} {p : Procedure} {region : Option Nat} {s : σ} {t t' : π}

/-- What every visit relates is related by a run. -/
theorem rel_of_run {order : List Nat} {R : π → π → Prop} (refl : ∀ t, R t t)
    (trans : ∀ {t u v}, R t u → R u v → R t v)
    (step : ∀ r ∈ order, ∀ {s t t'}, w.visit r s t = .ok t' → R t t')
    (h : w.run order s t = .ok t') : R t t' := by
  cases order with
  | nil =>
    rw [run, pure_eq_ok] at h
    exact h ▸ refl t
  | cons b rest =>
    obtain ⟨u, hu, h⟩ := bind_eq_ok.mp h
    refine trans (step b List.mem_cons_self hu) (foldlM_rel refl trans (fun x hx s t hn => ?_) h)
    obtain ⟨s', -, hv⟩ := bind_eq_ok.mp hn
    exact step x (List.mem_cons_of_mem b hx) hv

/-- A visit touches only what the block stands for. -/
def Local (w : Sweep ε σ π) (p : Procedure) (region : Option Nat) : Prop :=
  ∀ {r s t t'}, r ∈ p.orderOf region → w.visit r s t = .ok t' →
    ∀ b, ¬ p.StandsFor region r b → w.out t' b = w.out t b

/-- A run touches only the blocks of its region. -/
theorem out_of_run (hlocal : w.Local p region) (hp : p.WellFormed)
    (h : w.run (p.orderOf region) s t = .ok t') {b : Nat} (hb : ¬ p.Inside region b) :
    w.out t' b = w.out t b := by
  refine rel_of_run (R := fun t u => w.out u b = w.out t b) (fun _ => rfl)
    (fun h₁ h₂ => h₂.trans h₁) (fun r hr s t u hv => ?_) h
  exact hlocal hr hv b fun hstands => hb (hp.inside hr hstands)

/-- The visit of one block in a run: from which value and between which states it happens, and what
remains to be done. -/
theorem split_run {first rest : List Nat} {r : Nat}
    (h : w.run (first ++ r :: rest) s t = .ok t') :
    ∃ s₁ t₁ t₂, (first = [] → s₁ = s ∧ t₁ = t) ∧ (first ≠ [] → w.before t₁ r = .ok s₁) ∧
      w.visit r s₁ t₁ = .ok t₂ ∧ rest.foldlM w.next t₂ = .ok t' := by
  cases first with
  | nil =>
    obtain ⟨t₂, hv, h⟩ := bind_eq_ok.mp h
    exact ⟨s, t, t₂, fun _ => ⟨rfl, rfl⟩, fun hne => absurd rfl hne, hv, h⟩
  | cons b first =>
    obtain ⟨t₀, -, h⟩ := bind_eq_ok.mp h
    rw [List.append_eq, List.foldlM_append] at h
    obtain ⟨t₁, -, h⟩ := bind_eq_ok.mp h
    obtain ⟨t₂, hn, h⟩ := foldlM_cons_eq_ok.mp h
    obtain ⟨s₁, hb, hv⟩ := bind_eq_ok.mp hn
    exact ⟨s₁, t₁, t₂, nofun, fun _ => hb, hv, h⟩

/-- A block that is not stood for by any block still to be visited keeps its value. -/
theorem out_of_rest (hlocal : w.Local p region) {rest : List Nat}
    (hrest : ∀ r ∈ rest, r ∈ p.orderOf region) (h : rest.foldlM w.next t = .ok t') {b : Nat}
    (hb : ∀ r ∈ rest, ¬ p.StandsFor region r b) : w.out t' b = w.out t b := by
  refine foldlM_rel (R := fun t u => w.out u b = w.out t b) (fun _ => rfl)
    (fun h₁ h₂ => h₂.trans h₁) (fun r hr t u hn => ?_) h
  obtain ⟨s, -, hv⟩ := bind_eq_ok.mp hn
  exact hlocal (hrest r hr) hv b (hb r hr)

/-- The visit of the block `r` of a region, in a run from `s` and `t` to `t'`. It starts from `s₁`
and leads from `t₁` to `t₂`. What earlier blocks stand for has its final values before, and what
the block itself stands for has them afterwards. -/
structure Stage (w : Sweep ε σ π) (p : Procedure) (region : Option Nat) (s : σ) (t t' : π)
    (first : List Nat) (r : Nat) (rest : List Nat) (s₁ : σ) (t₁ t₂ : π) : Prop where
  order : p.orderOf region = first ++ r :: rest
  start : first = [] → s₁ = s ∧ t₁ = t
  before : first ≠ [] → w.before t₁ r = .ok s₁
  visit : w.visit r s₁ t₁ = .ok t₂
  remains : rest.foldlM w.next t₂ = .ok t'
  earlier : ∀ q ∈ first, ∀ b, p.StandsFor region q b → w.out t₁ b = w.out t' b
  now : ∀ b, p.StandsFor region r b → w.out t₂ b = w.out t' b

/-- A sweep that ends has passed every block of its order. -/
theorem stage_of_run (hp : p.WellFormed) (hlocal : w.Local p region)
    (h : w.run (p.orderOf region) s t = .ok t') {first rest : List Nat} {r : Nat}
    (ho : p.orderOf region = first ++ r :: rest) :
    ∃ s₁ t₁ t₂, w.Stage p region s t t' first r rest s₁ t₁ t₂ := by
  have hmem : ∀ {x}, x ∈ first ++ r :: rest → x ∈ p.orderOf region := fun hx => ho ▸ hx
  have hr : r ∈ first ++ r :: rest := List.mem_append_right _ List.mem_cons_self
  have hrest : ∀ x ∈ rest, x ∈ first ++ r :: rest :=
    fun x hx => List.mem_append_right _ (List.mem_cons_of_mem r hx)
  have hnodup := hp.nodup region
  rw [ho] at hnodup h
  obtain ⟨-, hnodup, hdisjoint⟩ := List.nodup_append.mp hnodup
  obtain ⟨s₁, t₁, t₂, hfirst, hbefore, hvisit, hfold⟩ := split_run h
  -- nothing that follows stands for what an earlier block stands for
  have hlater : ∀ b, (∀ x ∈ rest, ¬ p.StandsFor region x b) → w.out t' b = w.out t₂ b :=
    fun b hb => out_of_rest hlocal (fun x hx => hmem (hrest x hx)) hfold hb
  refine ⟨s₁, t₁, t₂, ho, hfirst, hbefore, hvisit, hfold, fun q hq b hqb => ?_, fun b hrb => ?_⟩
  · -- each block of the order stands for its own blocks, so neither `r` nor `rest` touches those of
    -- `q`
    have hother : ∀ x ∈ r :: rest, ¬ p.StandsFor region x b := fun x hx hxb =>
      hdisjoint q hq x hx (hp.standsFor_unique (hmem (List.mem_append_left _ hq))
        (hmem (List.mem_append_right _ hx)) hqb hxb)
    rw [hlater b fun x hx => hother x (List.mem_cons_of_mem r hx),
      hlocal (hmem hr) hvisit b (hother r List.mem_cons_self)]
  · refine (hlater b fun x hx hxb => ?_).symm
    obtain rfl := hp.standsFor_unique (hmem hr) (hmem (hrest x hx)) hrb hxb
    exact (List.nodup_cons.mp hnodup).1 hx

namespace Stage

variable {first rest : List Nat} {r : Nat} {s₁ : σ} {t₁ t₂ : π}

theorem mem (h : w.Stage p region s t t' first r rest s₁ t₁ t₂) : r ∈ p.orderOf region := by
  rw [h.order]
  exact List.mem_append_right _ List.mem_cons_self

theorem first_eq_nil (h : w.Stage p region s t t' first r rest s₁ t₁ t₂) (hp : p.WellFormed)
    (hhead : (p.orderOf region).head? = some r) : first = [] := by
  by_contra hne
  obtain ⟨x, first, rfl⟩ := List.exists_cons_of_ne_nil hne
  have hnodup := hp.nodup region
  rw [h.order] at hhead hnodup
  obtain rfl : x = r := by simpa using hhead
  simp at hnodup

/-- A block that is reached from within the region is not the first. -/
theorem first_ne_nil (h : w.Stage p region s t t' first r rest s₁ t₁ t₂) (hp : p.WellFormed)
    {u : Nat} (he : p.Edge u r) (hu : p.Inside region u) : first ≠ [] := by
  rintro rfl
  exact hp.not_inside_of_edge_head (by rw [h.order]; rfl) he hu

/-- The predecessors of a block that is not the first have their final values. -/
theorem pred (h : w.Stage p region s t t' first r rest s₁ t₁ t₂) (hp : p.WellFormed)
    (hne : first ≠ []) {u : Nat} (he : p.Edge u r) :
    w.out t₁ u = w.out t' u ∧ p.Inside region u := by
  obtain ⟨q, hq, hqu⟩ := hp.earlier h.order hne he
  refine ⟨h.earlier q hq u hqu, hp.inside ?_ hqu⟩
  rw [h.order]
  exact List.mem_append_left _ hq

/-- What every visit keeps backwards holds after the visit of the block. -/
theorem within (h : w.Stage p region s t t' first r rest s₁ t₁ t₂) (within : π → Prop)
    (hwithin : ∀ {r s t t'}, r ∈ p.orderOf region → w.visit r s t = .ok t' → within t' → within t)
    (ht : within t') : within t₂ := by
  refine foldlM_rel (R := fun t u => within u → within t) (fun _ => id) (fun h₁ h₂ => h₁ ∘ h₂)
    (fun x hx t u hn => ?_) h.remains ht
  obtain ⟨s', -, hv⟩ := bind_eq_ok.mp hn
  refine hwithin ?_ hv
  rw [h.order]
  exact List.mem_append_right _ (List.mem_cons_of_mem r hx)

end Stage

/-- What holds of the values of the first block holds of all values of a region, if it makes blocks
ready to be visited and visits keep it. -/
theorem valid_of_run (ready valid : Nat → σ → Prop) (hp : p.WellFormed) (hlocal : w.Local p region)
    (hvisit : ∀ {r s t t'}, r ∈ p.orderOf region → w.visit r s t = .ok t' → ready r s →
      ∀ b, p.StandsFor region r b → ∃ o, w.out t' b = some o ∧ valid b o)
    (hbefore : ∀ {v s t}, v ∈ p.orderOf region → w.before t v = .ok s →
      (∀ u, p.Edge u v → p.Inside region u ∧ ∃ o, w.out t u = some o ∧ valid u o) → ready v s)
    (hfirst : ∀ {r t₁}, (p.orderOf region).head? = some r → w.visit r s t = .ok t₁ →
      ∀ b, p.StandsFor region r b → ∃ o, w.out t₁ b = some o ∧ valid b o)
    (h : w.run (p.orderOf region) s t = .ok t') {b : Nat} (hb : p.Inside region b) :
    ∃ o, w.out t' b = some o ∧ valid b o := by
  -- by induction on the number of blocks before the one that stands for `b`
  suffices ∀ n {first r rest}, first.length = n → p.orderOf region = first ++ r :: rest →
      ∀ b, p.StandsFor region r b → ∃ o, w.out t' b = some o ∧ valid b o by
    obtain ⟨r, hr, hrb⟩ := hp.exists_standsFor hb
    obtain ⟨first, rest, ho⟩ := List.append_of_mem hr
    exact this first.length rfl ho b hrb
  intro n
  induction n using Nat.strong_induction_on with
  | _ n ih =>
    intro first r rest hlen ho b hrb
    obtain ⟨s₁, t₁, t₂, hstage⟩ := stage_of_run hp hlocal h ho
    rw [← hstage.now b hrb]
    by_cases hne : first = []
    · obtain ⟨rfl, rfl⟩ := hstage.start hne
      exact hfirst (by rw [ho, hne]; rfl) hstage.visit b hrb
    · refine hvisit hstage.mem hstage.visit ?_ b hrb
      refine hbefore hstage.mem (hstage.before hne) fun u he => ⟨(hstage.pred hp hne he).2, ?_⟩
      -- the order is topological: a predecessor was visited before, so the induction reaches it
      obtain ⟨q, hq, hqu⟩ := hp.earlier ho hne he
      obtain ⟨first', rest', hsplit⟩ := List.append_of_mem hq
      have ho' : p.orderOf region = first' ++ q :: (rest' ++ r :: rest) := by
        rw [ho, hsplit, List.append_assoc, List.cons_append]
      have hlt : first'.length < n := by
        rw [← hlen, hsplit, List.length_append, List.length_cons]
        omega
      rw [hstage.earlier q hq u hqu]
      exact ih first'.length hlt rfl ho' u hqu

/-- Visits come to their end, and a block can be started once its predecessors have values. Visits
keep what has been found, and give valid values to what a block stands for. -/
structure Advances (w : Sweep ε σ π) (p : Procedure) (region : Option Nat) (allowed : ε → Prop)
    (kept : π → Prop) (valid : σ → Prop) : Prop where
  visit : ∀ r ∈ p.orderOf region, ∀ s t, valid s → kept t →
    Ensures allowed (w.visit r s t) fun t' => kept t' ∧
      ∀ b, p.StandsFor region r b → ∃ o, w.out t' b = some o ∧ valid o
  before : ∀ {pre v post t}, p.orderOf region = pre ++ v :: post → pre ≠ [] →
    (∀ u, p.Edge u v → ∃ o, w.out t u = some o ∧ valid o) → Ensures allowed (w.before t v) valid

namespace Advances

variable {allowed : ε → Prop} {kept : π → Prop} {valid : σ → Prop}

/-- The next block can be started if what the blocks before it stand for has values. -/
theorem start (h : w.Advances p region allowed kept valid) (hp : p.WellFormed) {pre post : List Nat}
    {v : Nat} (ho : p.orderOf region = pre ++ v :: post) (hne : pre ≠ [])
    (hdone : ∀ r ∈ pre, ∀ b, p.StandsFor region r b → ∃ o, w.out t b = some o ∧ valid o) :
    Ensures allowed (w.before t v) valid := by
  apply h.before ho hne
  intro u hu
  obtain ⟨r, hr, hstands⟩ := hp.earlier ho hne hu
  exact hdone r hr u hstands

/-- A run over the first blocks of a region comes to its end, and what they stand for has values. -/
theorem ensures_initial (h : w.Advances p region allowed kept valid) (hp : p.WellFormed)
    (hlocal : w.Local p region) {first rest : List Nat} (ho : p.orderOf region = first ++ rest)
    (hs : valid s) (ht : kept t) :
    Ensures allowed (w.run first s t) fun t' => kept t' ∧
      ∀ r ∈ first, ∀ b, p.StandsFor region r b → ∃ o, w.out t' b = some o ∧ valid o := by
  -- what the blocks visited so far stand for has values
  have hnext : ∀ now pre t, p.orderOf region = pre ++ (now ++ rest) → pre ≠ [] → kept t →
      (∀ r ∈ pre, ∀ b, p.StandsFor region r b → ∃ o, w.out t b = some o ∧ valid o) →
      Ensures allowed (now.foldlM w.next t) fun t' => kept t' ∧
        ∀ r ∈ pre ++ now, ∀ b, p.StandsFor region r b → ∃ o, w.out t' b = some o ∧ valid o := by
    intro now
    induction now with
    | nil =>
      intro pre t _ _ ht hdone
      rw [List.append_nil]
      exact ⟨ht, hdone⟩
    | cons v now ih =>
      intro pre t ho hne ht hdone
      have hv : v ∈ p.orderOf region := by simp [ho]
      rw [List.foldlM_cons]
      -- the values of the blocks in `pre` are not those of `v`, whose visit leaves them alone
      refine Ensures.bind (P := fun t' => kept t' ∧ ∀ r ∈ pre ++ [v], ∀ b,
        p.StandsFor region r b → ∃ o, w.out t' b = some o ∧ valid o) ?_ ?_
      · refine (h.start hp ho hne hdone).bind fun s _ hs => ?_
        refine (h.visit v hv s t hs ht).imp fun t' hrun ⟨ht', hself⟩ => ⟨ht', fun r hr b hb => ?_⟩
        by_cases hvb : p.StandsFor region v b
        · exact hself b hvb
        · rw [hlocal hv hrun b hvb]
          rcases List.mem_append.mp hr with hr | hr
          · exact hdone r hr b hb
          · exact absurd (List.mem_singleton.mp hr ▸ hb) hvb
      · intro t' _ hdone'
        have hall := ih (pre ++ [v]) t' (by simp [ho]) (by simp) hdone'.1 hdone'.2
        rwa [List.append_assoc, List.singleton_append] at hall
  cases first with
  | nil => exact ⟨ht, nofun⟩
  | cons r first =>
    refine (h.visit r (by simp [ho]) s t hs ht).bind fun t' _ ⟨ht', hself⟩ => ?_
    exact hnext first [r] t' (by simp [ho]) (by simp) ht' (by simpa using hself)

/-- A run comes to its end. What visits keep holds then, and all blocks have values. -/
theorem ensures_run (h : w.Advances p region allowed kept valid) (hp : p.WellFormed)
    (hlocal : w.Local p region) (hs : valid s) (ht : kept t) :
    Ensures allowed (w.run (p.orderOf region) s t) fun t' => kept t' ∧
      ∀ b, p.Inside region b → ∃ o, w.out t' b = some o ∧ valid o := by
  apply (h.ensures_initial hp hlocal (List.append_nil _).symm hs ht).imp
  rintro t' - ⟨ht', hvalues⟩
  refine ⟨ht', fun b hb => ?_⟩
  obtain ⟨r, hr, hstands⟩ := hp.exists_standsFor hb
  exact hvalues r hr b hstands

end Advances

/-- A run comes to a block: the value from which the block is to be visited, and what has been found
until then. -/
def Arrives (w : Sweep ε σ π) (order : List Nat) (s : σ) (t : π) (r : Nat) (s₁ : σ) (t₁ : π) :
    Prop :=
  ∃ first rest, order = first ++ r :: rest ∧ w.run first s t = .ok t₁ ∧
    (first = [] → s₁ = s) ∧ (first ≠ [] → w.before t₁ r = .ok s₁)

theorem Arrives.mem {order : List Nat} {r : Nat} {s₁ : σ} {t₁ : π}
    (h : w.Arrives order s t r s₁ t₁) : r ∈ order := by
  obtain ⟨first, rest, rfl, -⟩ := h
  exact List.mem_append_right first List.mem_cons_self

/-- What every visit relates where a run comes to is related by the run. -/
theorem rel_of_arrivals {order : List Nat} {t' : π} {R : π → π → Prop} (refl : ∀ t, R t t)
    (trans : ∀ {t u v}, R t u → R u v → R t v)
    (step : ∀ {r s₁ t₁ t₂}, w.Arrives order s t r s₁ t₁ → w.visit r s₁ t₁ = .ok t₂ → R t₁ t₂)
    (h : w.run order s t = .ok t') : R t t' := by
  cases order with
  | nil => exact pure_eq_ok.mp h ▸ refl t
  | cons b rest =>
    obtain ⟨u, hu, h⟩ := bind_eq_ok.mp h
    have hfirst : w.Arrives (b :: rest) s t b s t :=
      ⟨[], rest, rfl, rfl, fun _ => rfl, fun hne => absurd rfl hne⟩
    refine trans (step hfirst hu) (foldlM_rel_after refl trans ?_ h)
    intro first r rest' t₁ t₂ hrest hrun hnext
    obtain ⟨s₁, hbefore, hvisit⟩ := bind_eq_ok.mp hnext
    refine step ⟨b :: first, rest', by rw [hrest]; rfl, ?_, nofun, fun _ => hbefore⟩ hvisit
    exact bind_eq_ok.mpr ⟨u, hu, hrun⟩

/-- Wherever a run comes to, it has kept what visits keep and starts from a valid value. -/
theorem Advances.arrives {allowed : ε → Prop} {kept : π → Prop} {valid : σ → Prop}
    (h : w.Advances p region allowed kept valid) (hp : p.WellFormed) (hlocal : w.Local p region)
    (hs : valid s) (ht : kept t) {r : Nat} {s₁ : σ} {t₁ : π}
    (harrives : w.Arrives (p.orderOf region) s t r s₁ t₁) : valid s₁ ∧ kept t₁ := by
  obtain ⟨first, rest, ho, hrun, hstart, hbefore⟩ := harrives
  obtain ⟨ht₁, hdone⟩ := (h.ensures_initial hp hlocal ho hs ht).result hrun
  refine ⟨?_, ht₁⟩
  by_cases hne : first = []
  · rw [hstart hne]
    exact hs
  · exact (h.start hp ho hne hdone).result (hbefore hne)

/-- A run comes to its end if visits do, whatever they start from. -/
theorem ensures_run {allowed : ε → Prop} (hp : p.WellFormed) (hlocal : w.Local p region)
    (hvisit : ∀ r ∈ p.orderOf region, ∀ s t, Ensures allowed (w.visit r s t) fun t' =>
      ∀ b, p.StandsFor region r b → ∃ o, w.out t' b = some o)
    (hbefore : ∀ {pre v post t}, p.orderOf region = pre ++ v :: post → pre ≠ [] →
      (∀ u, p.Edge u v → ∃ o, w.out t u = some o) →
      Ensures allowed (w.before t v) fun _ => True) (s : σ) (t : π) :
    Ensures allowed (w.run (p.orderOf region) s t) fun _ => True := by
  have hadvances : w.Advances p region allowed (fun _ => True) (fun _ => True) := by
    constructor
    case visit =>
      intro r hr s t _ _
      refine (hvisit r hr s t).imp fun t' _ hself => ⟨trivial, fun b hb => ?_⟩
      obtain ⟨o, ho⟩ := hself b hb
      exact ⟨o, ho, trivial⟩
    case before =>
      intro pre v post t ho hne hpreds
      refine hbefore ho hne fun u hu => ?_
      obtain ⟨o, hout, -⟩ := hpreds u hu
      exact ⟨o, hout⟩
  exact (hadvances.ensures_run hp hlocal trivial trivial).imp fun _ _ _ => trivial

/-- Two runs over one region, by analyses of different kinds. What their visits keep is kept, and
their values correspond where this is known of visits (`shown`), if it is known where edges within
the region start. -/
theorem coupled_run {δ σ' π' : Type} {w' : Sweep δ σ' π'} (kept : π → π' → Prop)
    (alike : σ → σ' → Prop) (shown : Nat → Nat → Prop) (hp : p.WellFormed)
    (hlocal : w.Local p region) (hlocal' : w'.Local p region)
    (hstands : ∀ {r b}, shown r b → p.StandsFor region r b)
    (hedge : ∀ {r u v}, r ∈ p.orderOf region → v ∈ p.orderOf region → p.StandsFor region r u →
      p.Edge u v → shown r u)
    (hvisit : ∀ {r s s' t t'}, r ∈ p.orderOf region → alike s s' → kept t t' →
      Coupled (fun u u' => kept u u' ∧ ∀ b, shown r b → Option.Rel alike (w.out u b) (w'.out u' b))
        (w.visit r s t) (w'.visit r s' t'))
    (hbefore : ∀ {v t t'}, (∀ u, p.Edge u v → Option.Rel alike (w.out t u) (w'.out t' u)) →
      Coupled alike (w.before t v) (w'.before t' v)) {s : σ} {s' : σ'} {t : π} {t' : π'}
    (hs : alike s s') (ht : kept t t') :
    Coupled (fun u u' => kept u u' ∧ ∀ r ∈ p.orderOf region, ∀ b, shown r b →
        Option.Rel alike (w.out u b) (w'.out u' b))
      (w.run (p.orderOf region) s t) (w'.run (p.orderOf region) s' t') := by
  -- what the blocks visited so far show corresponds
  have hrest : ∀ rest pre t t', p.orderOf region = pre ++ rest → pre ≠ [] → kept t t' →
      (∀ r ∈ pre, ∀ b, shown r b → Option.Rel alike (w.out t b) (w'.out t' b)) →
      Coupled (fun u u' => kept u u' ∧ ∀ r ∈ pre ++ rest, ∀ b, shown r b →
          Option.Rel alike (w.out u b) (w'.out u' b))
        (rest.foldlM w.next t) (rest.foldlM w'.next t') := by
    intro rest
    induction rest with
    | nil =>
      intro pre t t' _ _ ht hdone
      rw [List.append_nil]
      exact Coupled.pure ⟨ht, hdone⟩
    | cons v rest ih =>
      intro pre t t' ho hne ht hdone
      have hpre : ∀ r ∈ pre, r ∈ p.orderOf region := fun r hr => ho ▸ List.mem_append_left _ hr
      have hv : v ∈ p.orderOf region := by simp [ho]
      rw [List.foldlM_cons, List.foldlM_cons]
      refine Coupled.bind (R := fun u u' => kept u u' ∧ ∀ r ∈ pre ++ [v], ∀ b, shown r b →
        Option.Rel alike (w.out u b) (w'.out u' b)) ?_ ?_
      · refine (hbefore fun u hu => ?_).bind fun s s' hs => ?_
        · obtain ⟨r, hr, hru⟩ := hp.earlier ho hne hu
          exact hdone r hr u (hedge (hpre r hr) hv hru hu)
        · intro u u' hrun hrun'
          obtain ⟨hu, hself⟩ := hvisit hv hs ht u u' hrun hrun'
          refine ⟨hu, fun r hr b hb => ?_⟩
          rcases List.mem_append.mp hr with hr | hr
          · -- `v` may stand for a block of `r` only if it is `r`
            by_cases hvb : p.StandsFor region v b
            · obtain rfl := hp.standsFor_unique (hpre r hr) hv (hstands hb) hvb
              exact hself b hb
            · rw [hlocal hv hrun b hvb, hlocal' hv hrun' b hvb]
              exact hdone r hr b hb
          · obtain rfl := List.mem_singleton.mp hr
            exact hself b hb
      · intro u u' hdone'
        have hall := ih (pre ++ [v]) u u' (by simp [ho]) (by simp) hdone'.1 hdone'.2
        rwa [List.append_assoc, List.singleton_append] at hall
  cases ho : p.orderOf region with
  | nil => exact Coupled.pure ⟨ht, nofun⟩
  | cons r rest =>
    refine (hvisit (by simp [ho]) hs ht).bind fun u u' hu => ?_
    exact hrest rest [r] u u' (by simp [ho]) (by simp) hu.1 (by simpa using hu.2)

/-- If every visit is right about executions, and values to start from are, then so is a run: what
its values cover on entering the region, they cover on leaving it. -/
theorem flow_of_run {policy : Policy} {program : Program} {ok : History → Prop} {base : Laps}
    (valid : σ → Prop) (within : π → Prop) (cover : σ → History → Prop) (hp : p.WellFormed)
    (hlocal : w.Local p region) (hbase : Encloses p base region)
    (hwithin : ∀ {r s t t'}, r ∈ p.orderOf region → w.visit r s t = .ok t' → within t' → within t)
    (hvalid : ∀ {r s t t'}, r ∈ p.orderOf region → w.visit r s t = .ok t' → valid s →
      ∀ b, p.StandsFor region r b → ∃ o, w.out t' b = some o ∧ valid o)
    (hbefore : ∀ {v s t}, w.before t v = .ok s →
      (∀ u, p.Edge u v → ∃ o, w.out t u = some o ∧ valid o) →
      valid s ∧ ∀ {u o}, p.Edge u v → w.out t u = some o → ∀ h, cover o h → cover s h)
    (hvisit : ∀ {r s t t'}, r ∈ p.orderOf region → w.visit r s t = .ok t' → within t' → valid s →
      FlowAt policy program ok p region base r (cover s)
        (fun b h => ∃ o, w.out t' b = some o ∧ cover o h))
    (h : w.run (p.orderOf region) s t = .ok t') (ht : within t') (hs : valid s) {r₀ : Nat}
    (hhead : (p.orderOf region).head? = some r₀) :
    FlowBody policy program ok p region base (cover s)
      (fun b h => ∃ o, w.out t' b = some o ∧ cover o h) := by
  have hall : ∀ {b}, p.Inside region b → ∃ o, w.out t' b = some o ∧ valid o :=
    valid_of_run (fun _ => valid) (fun _ => valid) hp hlocal hvalid
      (fun _ hb hpreds => (hbefore hb fun u he => (hpreds u he).2).1)
      (fun hhead hv => hvalid (List.mem_of_mem_head? hhead) hv hs) h
  -- each block has the value its visit started from; `choose` makes these a function of the block
  have hstage : ∀ r, ∃ s₁, r ∈ p.orderOf region →
      ∃ first rest t₁ t₂, w.Stage p region s t t' first r rest s₁ t₁ t₂ := by
    intro r
    by_cases hr : r ∈ p.orderOf region
    · obtain ⟨first, rest, ho⟩ := List.append_of_mem hr
      obtain ⟨s₁, t₁, t₂, hstage⟩ := stage_of_run hp hlocal h ho
      exact ⟨s₁, fun _ => ⟨first, rest, t₁, t₂, hstage⟩⟩
    · exact ⟨s, fun hr' => absurd hr' hr⟩
  choose start hstart using hstage
  -- blocks but the first start from what covers the ends of their predecessors
  have hnext : ∀ {first r rest t₁ t₂}, w.Stage p region s t t' first r rest (start r) t₁ t₂ →
      first ≠ [] → valid (start r) ∧ ∀ {u o}, p.Edge u r → w.out t' u = some o →
        ∀ h, cover o h → cover (start r) h := by
    intro first r rest t₁ t₂ hstage hne
    obtain ⟨hstart_valid, hcover⟩ := hbefore (hstage.before hne) fun u he => by
      obtain ⟨hfinal, hin⟩ := hstage.pred hp hne he
      rw [hfinal]
      exact hall hin
    refine ⟨hstart_valid, fun {u o} he ho => hcover he ?_⟩
    rw [(hstage.pred hp hne he).1]
    exact ho
  have hr₀ : start r₀ = s := by
    obtain ⟨first, rest, t₁, t₂, hstage⟩ := hstart r₀ (List.mem_of_mem_head? hhead)
    exact (hstage.start (hstage.first_eq_nil hp hhead)).1
  rw [← hr₀]
  -- what `flow_body` asks for, with the chosen values as the assertions before the blocks
  refine flow_body hp (fun r => cover (start r)) hbase ?_ ?_ hhead
  · intro r hr
    obtain ⟨first, rest, t₁, t₂, hstage⟩ := hstart r hr
    have hstart_valid : valid (start r) := by
      by_cases hne : first = []
      · rw [(hstage.start hne).1]
        exact hs
      · exact (hnext hstage hne).1
    have hflow := hvisit hr hstage.visit (hstage.within within hwithin ht) hstart_valid
    refine hflow.imp (fun _ => id) fun b h hb hout => ?_
    rwa [hstage.now b hb] at hout
  · rintro first v rest u ho hne he h ⟨o, hout, hcover⟩
    obtain ⟨first', rest', t₁, t₂, hstage⟩ :=
      hstart v (ho ▸ List.mem_append_right _ List.mem_cons_self)
    obtain ⟨q, hq, hqu⟩ := hp.earlier ho hne he
    have hinside : p.Inside region u := hp.inside (ho ▸ List.mem_append_left _ hq) hqu
    exact (hnext hstage (hstage.first_ne_nil hp he hinside)).2 he hout h hcover

end Sweep

end CycleBounds.Run
