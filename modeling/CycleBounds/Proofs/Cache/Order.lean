import CycleBounds.Proofs.Cache.Neighbours
import CycleBounds.Proofs.Cache.Reachable

/-!
# The order of states

States form a semilattice under joins. One state is below another in a domain if the join of the two
says there what the other says. In the must and in the may domain, this compares which lines there
are and how old they are (`Ages.Younger`), and fetches keep it: where a line is fetched at a lower
age, fewer other lines grow older.

* `Ages.Younger.touch`: a touch keeps younger ages younger, whether or not lines of the same age as
  the touched one grow older.
* `leIn_must_iff`, `leIn_may_iff`: the order of two domains in terms of ages.
* `semilattice_monotone`: joins are those of a semilattice, and fetches are monotone.
-/

namespace CycleBounds.Cache

/-! ### Younger lines -/

namespace Ages

variable {c : Config} {rule : Aging} {pick : Nat → Nat → Nat} {s t : Ages}

/-- The first has all lines of the second, none of them older. -/
def Younger (s t : Ages) : Prop :=
  ∀ l b, t.get? l = some b → ∃ a ≤ b, s.get? l = some a

/-- To meet with the older ages says nothing new just if the other side has all lines, younger. -/
theorem meet_max_eq_right_iff : s.meet max t = t ↔ s.Younger t := by
  constructor
  · intro h l b hb
    have hl := get?_meet max s t l
    rw [h, hb] at hl
    cases ha : s.get? l with
    | none => simp [ha] at hl
    | some a => exact ⟨a, by simpa [ha] using hl, rfl⟩
  · intro h
    ext l
    rw [get?_meet]
    cases hb : t.get? l with
    | none => cases s.get? l <;> rfl
    | some b =>
      obtain ⟨a, hle, ha⟩ := h l b hb
      simp [ha, hle]

/-- To unite with the younger ages says nothing new just if no line is added or gets younger. -/
theorem union_min_eq_right_iff : s.union min t = t ↔ t.Younger s := by
  constructor
  · intro h l a ha
    have hl := get?_union min s t l
    rw [h, ha] at hl
    cases hb : t.get? l with
    | none => simp [hb] at hl
    | some b => exact ⟨b, by simpa [hb] using hl, rfl⟩
  · intro h
    ext l
    rw [get?_union]
    cases ha : s.get? l with
    | none => rfl
    | some a =>
      obtain ⟨b, hle, hb⟩ := h l a ha
      simp [hb, hle]

/-- Where the touched line is younger, fewer lines grow older. -/
theorem Younger.limit_le (h : s.Younger t) {x : Nat}
    (hs : ∀ a, s.get? x = some a → a < rule.ages) :
    rule.limit (s.get? x) ≤ rule.limit (t.get? x) := by
  cases hb : t.get? x with
  | none =>
    show _ ≤ rule.ages
    cases ha : s.get? x with
    | none => exact Nat.le_refl _
    | some a =>
      have := hs a ha
      simp only [Aging.limit]
      split <;> omega
  | some b =>
    obtain ⟨a, hle, ha⟩ := h x b hb
    rw [ha]
    simp only [Aging.limit]
    split <;> omega

/-- A touch keeps younger ages younger. -/
theorem Younger.touch (hrule : rule.sticky = false) (h : s.Younger t)
    (hs : ∀ l a, s.get? l = some a → a < rule.ages)
    (ht : ∀ l b, t.get? l = some b → b < rule.ages) (x : Nat) :
    (s.touch c rule x).Younger (t.touch c rule x) := by
  have hlimit := h.limit_le (hs x)
  intro l b hb
  simp only [State.get?_touch_eq_some hrule] at hb ⊢
  rcases hb with ⟨rfl, rfl⟩ | ⟨hne, hset, hb⟩ | ⟨hne, hset, b', hb', hage⟩
  · exact ⟨0, Nat.le_refl 0, .inl ⟨rfl, rfl⟩⟩
  · obtain ⟨a, hle, ha⟩ := h l b hb
    exact ⟨a, hle, .inr (.inl ⟨hne, hset, ha⟩)⟩
  · obtain ⟨a', hle, ha'⟩ := h l b' hb'
    have hlt := ht l b' hb'
    -- if only the line of the first grows, it was below the limit, and the other was not
    by_cases hgrow : a' < rule.limit (s.get? x)
    · exact ⟨a' + 1, by omega,
        .inr (.inr ⟨hne, hset, a', ha', .inl ⟨hgrow, rfl, by omega⟩⟩)⟩
    · exact ⟨a', by omega,
        .inr (.inr ⟨hne, hset, a', ha', .inr ⟨Nat.not_lt.mp hgrow, rfl⟩⟩)⟩

end Ages

/-! ### The order of a domain -/

namespace State

variable {c : Config} {d : Domain} {s s' t t' : State}

/-- One state is below another in a domain: to join it says nothing new there. -/
def LeIn (d : Domain) (s t : State) : Prop :=
  (s.join t).ages d = t.ages d

instance (d : Domain) (s t : State) : Decidable (LeIn d s t) :=
  inferInstanceAs (Decidable (_ = _))

theorem leIn_must_iff : LeIn .must s t ↔ s.must.Younger t.must :=
  Ages.meet_max_eq_right_iff

theorem leIn_may_iff : LeIn .may s t ↔ t.may.Younger s.may :=
  Ages.union_min_eq_right_iff

theorem LeIn.join (h : LeIn d s t) (h' : LeIn d s' t') : LeIn d (s.join s') (t.join t') := by
  have hswap : (s.join s').join (t.join t') = (s.join t).join (s'.join t') := by ac_rfl
  rw [LeIn, hswap]
  exact Table.ext fun l => get?_join_congr (congrArg (·.get? l) h) (congrArg (·.get? l) h')

/-- A fetch keeps the order of the must and of the may domain. -/
theorem LeIn.access (hd : d ≠ .persistence) (hs : Reachable c s) (ht : Reachable c t)
    (h : LeIn d s t) (address : Nat) : LeIn d (s.access c address) (t.access c address) := by
  cases d with
  | must =>
    rw [leIn_must_iff] at h ⊢
    exact h.touch rfl (fun _ _ => hs.age_lt (d := .must)) (fun _ _ => ht.age_lt (d := .must)) _
  | may =>
    rw [leIn_may_iff] at h ⊢
    exact h.touch rfl (fun _ _ => ht.age_lt (d := .may)) (fun _ _ => hs.age_lt (d := .may)) _
  | persistence => exact absurd rfl hd

/-- Joins are those of a semilattice. A fetch that may happen joins the states with and without it,
which differ in its own set only. In the must and in the may domain, both kinds of fetches keep the
order of states. -/
theorem semilattice_monotone (c : Config) :
    (∀ s t u : State,
      s.join t = t.join s ∧ (s.join t).join u = s.join (t.join u) ∧ s.join s = s) ∧
    (∀ (s : State) (address : Nat),
      s.accessMaybe c address = s.join (s.access c address) ∧
      ∀ d l, c.setOf l ≠ c.setOfAddress address →
        ((s.accessMaybe c address).ages d).get? l = (s.ages d).get? l) ∧
    ∀ (s t : State) (d : Domain), Reachable c s → Reachable c t → d ≠ .persistence →
      LeIn d s t → ∀ address,
        LeIn d (s.access c address) (t.access c address) ∧
        LeIn d (s.accessMaybe c address) (t.accessMaybe c address) := by
  refine ⟨fun s t u => ⟨join_comm s t, join_assoc s t u, join_self s⟩, ?_, ?_⟩
  · intro s address
    exact ⟨accessMaybe_eq_join c s address, fun d l hset => get?_accessMaybe_of_ne s d hset⟩
  · intro s t d hs ht hd hle address
    have haccess := hle.access hd hs ht address
    rw [accessMaybe_eq_join, accessMaybe_eq_join]
    exact ⟨haccess, hle.join haccess⟩

/-- Lines 0 and 1 are fetched in this order, or in either order. The second state is above the
first, and it stays so when line 2 evicts one of them, and when line 0 perhaps is fetched again. -/
theorem semilattice_monotone_crossed :
    let c : Config := ⟨0, 2, 4, 1, 10, by decide⟩
    let s := (State.empty.access c 0).access c 16
    let t := s.join ((State.empty.access c 16).access c 0)
    LeIn .must s t ∧ LeIn .may s t ∧ s.must ≠ t.must ∧ s.may ≠ t.may ∧
      LeIn .must (s.access c 32) (t.access c 32) ∧
      LeIn .may (s.accessMaybe c 0) (t.accessMaybe c 0) := by
  intro c s t
  have hs : Reachable c s := .access 16 (.access 0 .empty)
  have ht : Reachable c t := hs.join (.access 0 (.access 16 .empty))
  have hmust : LeIn .must s t := by decide
  have hmay : LeIn .may s t := by decide
  obtain ⟨-, -, hmono⟩ := semilattice_monotone c
  refine ⟨hmust, hmay, by decide, by decide, ?_, ?_⟩
  · exact (hmono s t .must hs ht (by decide) hmust 32).1
  · exact (hmono s t .may hs ht (by decide) hmay 0).2

/-- A fetch need not keep the order of the persistence domain: line 0 grows older only where line 1
is not known from another branch. -/
example :
    let c : Config := ⟨0, 2, 4, 1, 10, by decide⟩
    let s := State.empty.access c 0
    let t := s.join (State.empty.access c 16)
    LeIn .persistence s t ∧ ¬ LeIn .persistence (s.access c 16) (t.access c 16) := by
  decide

end State

end CycleBounds.Cache
