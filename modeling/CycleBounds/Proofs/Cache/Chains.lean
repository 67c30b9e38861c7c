import CycleBounds.Cache.State
import Mathlib.Algebra.Order.BigOperators.Group.List
import Mathlib.Algebra.Order.Ring.Nat

/-!
# Chains of cache states

A state that is joined with others again and again comes to rest. The lines of a program are
finitely many, and so are their ages (`Within`). Every join that changes a state moves some line of
it closer to what is known least: absent in the must domain, youngest in the may domain, oldest in
the persistence domain. The `rank` of a state adds up how far its lines have come.

* `Within.accessLine`, `Within.join`: what the operations on states keep.
* `rank_le`: ranks are bounded.
* `rank_lt_join`: a join that changes a state raises its rank.
-/

namespace CycleBounds.Cache

/-- Lines that grow older stay within the ages of the rule. -/
theorem Aging.grow_lt {rule : Aging} {limit a b : Nat} (h : rule.grow limit b = some a)
    (hb : b < rule.ages) : a < rule.ages := by
  unfold grow at h
  split at h
  · split at h
    · rename_i hlt
      exact Option.some.inj h ▸ hlt
    · split at h
      · exact Option.some.inj h ▸ hb
      · cases h
  · exact Option.some.inj h ▸ hb

theorem Domain.ages_pos (c : Config) (d : Domain) : 0 < (d.aging c).ages := by
  have hways := c.ways_pos
  cases d with
  | must => exact hways
  | may => exact hways
  | persistence => exact Nat.succ_pos _

namespace State

variable {c : Config} {lines : List Nat} {s t : State}

/-- The lines of a state are some given ones, and their ages are ages of the level. -/
def Within (c : Config) (lines : List Nat) (s : State) : Prop :=
  ∀ d l a, (s.ages d).get? l = some a → l ∈ lines ∧ a < (d.aging c).ages

theorem within_empty : Within c lines empty := by
  intro d l a h
  cases d with
  | must | may | persistence => cases h

/-! ### Operations -/

/-- A fetch of a known line leaves only known lines at known ages. -/
theorem Within.accessLine (hs : Within c lines s) {x : Nat} (hx : x ∈ lines) :
    Within c lines (s.accessLine c x) := by
  intro d l a h
  rw [ages_accessLine, Ages.get?_touch] at h
  split at h
  · rename_i heq
    exact ⟨heq ▸ hx, Option.some.inj h ▸ d.ages_pos c⟩
  · split at h
    · obtain ⟨b, hb, hgrow⟩ := Option.bind_eq_some_iff.mp h
      obtain ⟨hl, hlt⟩ := hs d l b hb
      exact ⟨hl, Aging.grow_lt hgrow hlt⟩
    · exact hs d l a h

/-- An age after a join is one of the ages before. -/
theorem get?_join_cases {d : Domain} {l a : Nat} (h : ((s.join t).ages d).get? l = some a) :
    (s.ages d).get? l = some a ∨ (t.ages d).get? l = some a := by
  cases d with
  | must =>
    simp only [ages, join, Ages.get?_meet] at h ⊢
    split at h
    · rename_i x y hx hy
      rw [hx, hy, ← h]
      rcases max_choice x y with hmax | hmax <;> simp [hmax]
    · cases h
  | may =>
    simp only [ages, join, Ages.get?_union] at h ⊢
    split at h
    · rename_i x y hx hy
      rw [hx, hy, ← h]
      rcases min_choice x y with hmin | hmin <;> simp [hmin]
    · rename_i hx _
      exact .inl (hx.trans h)
    · exact .inr h
  | persistence =>
    simp only [ages, join, Ages.get?_union] at h ⊢
    split at h
    · rename_i x y hx hy
      rw [hx, hy, ← h]
      rcases max_choice x y with hmax | hmax <;> simp [hmax]
    · rename_i hx _
      exact .inl (hx.trans h)
    · exact .inr h

theorem Within.join (hs : Within c lines s) (ht : Within c lines t) :
    Within c lines (s.join t) := by
  intro d l a h
  rcases get?_join_cases h with h | h
  · exact hs d l a h
  · exact ht d l a h

theorem Within.accessMaybe (hs : Within c lines s) {address : Nat}
    (hline : c.line address ∈ lines) : Within c lines (s.accessMaybe c address) := by
  rw [accessMaybe_eq_join]
  exact hs.join (hs.accessLine hline)

/-! ### Ranks -/

end State

/-- How far a line has come in a domain: to be absent is the end in the must domain, and the start
in the others, where it is the end to be the youngest or the oldest line. -/
def Domain.weight (c : Config) : Domain → Option Nat → Nat
  | .must, none => c.ways
  | .must, some a => a
  | .may, none => 0
  | .may, some a => c.ways - a
  | .persistence, none => 0
  | .persistence, some a => a + 1

namespace State

variable {c : Config} {lines : List Nat} {s t : State}

def weight (c : Config) (s : State) (l : Nat) : Nat :=
  Domain.must.weight c (s.must.get? l) + Domain.may.weight c (s.may.get? l) +
    Domain.persistence.weight c (s.persistence.get? l)

def rank (c : Config) (lines : List Nat) (s : State) : Nat :=
  (lines.map (s.weight c)).sum

/-- No line comes further than once through every age of every domain. -/
theorem Within.weight_le (hs : Within c lines s) (l : Nat) : s.weight c l ≤ 3 * c.ways + 1 := by
  have hdomain : ∀ d : Domain, d.weight c ((s.ages d).get? l) ≤ (d.aging c).ages := by
    intro d
    cases hage : (s.ages d).get? l with
    | none => cases d <;> simp [Domain.weight, Domain.aging]
    | some a =>
      have hlt := (hs d l a hage).2
      cases d <;> simp only [Domain.weight, Domain.aging] at hlt ⊢ <;> omega
  have hmust : _ ≤ c.ways := hdomain .must
  have hmay : _ ≤ c.ways := hdomain .may
  have hpersistence : _ ≤ c.ways + 1 := hdomain .persistence
  simp only [ages] at hmust hmay hpersistence
  rw [weight]
  omega

/-- Ranks are bounded. -/
theorem Within.rank_le (hs : Within c lines s) :
    s.rank c lines ≤ lines.length * (3 * c.ways + 1) := by
  have hsum := List.sum_le_card_nsmul (lines.map (s.weight c)) (3 * c.ways + 1) (by
    intro n hn
    obtain ⟨l, -, rfl⟩ := List.mem_map.mp hn
    exact hs.weight_le l)
  rw [List.length_map] at hsum
  exact hsum

/-- A join that changes the age of a line brings it forward. -/
theorem Within.weight_domain (hs : Within c lines s) (ht : Within c lines t) (d : Domain)
    (l : Nat) : d.weight c ((s.ages d).get? l) < d.weight c (((s.join t).ages d).get? l) ∨
      ((s.join t).ages d).get? l = (s.ages d).get? l := by
  cases d with
  | must =>
    simp only [ages, State.join, Ages.get?_meet]
    cases hx : s.must.get? l with
    | none => exact .inr rfl
    | some x =>
      have hlt : x < c.ways := (hs .must l x hx).2
      cases t.must.get? l with
      | none => exact .inl hlt
      | some y =>
        simp only [Domain.weight, Option.some.injEq]
        omega
  | may =>
    simp only [ages, State.join, Ages.get?_union]
    cases hx : s.may.get? l with
    | none =>
      cases hy : t.may.get? l with
      | none => exact .inr rfl
      | some y => exact .inl (Nat.sub_pos_of_lt (ht .may l y hy).2)
    | some x =>
      have hlt : x < c.ways := (hs .may l x hx).2
      cases t.may.get? l with
      | none => exact .inr rfl
      | some y =>
        simp only [Domain.weight, Option.some.injEq]
        omega
  | persistence =>
    simp only [ages, State.join, Ages.get?_union]
    cases s.persistence.get? l with
    | none =>
      cases t.persistence.get? l with
      | none => exact .inr rfl
      | some y => exact .inl (Nat.succ_pos y)
    | some x =>
      cases t.persistence.get? l with
      | none => exact .inr rfl
      | some y =>
        simp only [Domain.weight, Option.some.injEq]
        omega

theorem Within.weight_domain_le (hs : Within c lines s) (ht : Within c lines t) (d : Domain)
    (l : Nat) : d.weight c ((s.ages d).get? l) ≤ d.weight c (((s.join t).ages d).get? l) := by
  rcases hs.weight_domain ht d l with hlt | heq
  · exact Nat.le_of_lt hlt
  · exact Nat.le_of_eq (congrArg _ heq.symm)

theorem Within.weight_le_join (hs : Within c lines s) (ht : Within c lines t) (l : Nat) :
    s.weight c l ≤ (s.join t).weight c l :=
  Nat.add_le_add (Nat.add_le_add (hs.weight_domain_le ht .must l) (hs.weight_domain_le ht .may l))
    (hs.weight_domain_le ht .persistence l)

/-- A line that a join changes has come further. -/
theorem Within.weight_lt_join (hs : Within c lines s) (ht : Within c lines t) {d : Domain} {l : Nat}
    (hne : ((s.join t).ages d).get? l ≠ (s.ages d).get? l) :
    s.weight c l < (s.join t).weight c l := by
  have hmust := hs.weight_domain_le ht .must l
  have hmay := hs.weight_domain_le ht .may l
  have hpersistence := hs.weight_domain_le ht .persistence l
  have hlt := (hs.weight_domain ht d l).resolve_right hne
  simp only [weight, ages] at hmust hmay hpersistence ⊢
  cases d with
  | must | may | persistence =>
    simp only [ages] at hlt
    omega

/-- States with the same ages are the same. -/
theorem eq_of_ages (h : ∀ d l, (s.ages d).get? l = (t.ages d).get? l) : s = t := by
  have hmust : s.must = t.must := Table.ext (h .must)
  have hmay : s.may = t.may := Table.ext (h .may)
  have hpersistence : s.persistence = t.persistence := Table.ext (h .persistence)
  cases s
  cases t
  simp_all

/-- A join that changes a state raises its rank. -/
theorem Within.rank_lt_join (hs : Within c lines s) (ht : Within c lines t)
    (hne : s.join t ≠ s) : s.rank c lines < (s.join t).rank c lines := by
  obtain ⟨d, l, hage⟩ : ∃ d l, ((s.join t).ages d).get? l ≠ (s.ages d).get? l := by
    by_contra hsame
    simp only [not_exists, not_not] at hsame
    exact hne (eq_of_ages hsame)
  have hl : l ∈ lines := by
    -- the line is in one of the two states
    cases hjoin : ((s.join t).ages d).get? l with
    | some a => exact (hs.join ht d l a hjoin).1
    | none =>
      obtain ⟨a, ha⟩ := Option.ne_none_iff_exists'.mp (Ne.symm (hjoin ▸ hage))
      exact (hs d l a ha).1
  exact List.sum_lt_sum _ _ (fun l _ => hs.weight_le_join ht l) ⟨l, hl, hs.weight_lt_join ht hage⟩

end State

end CycleBounds.Cache
