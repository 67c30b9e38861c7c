/-!
# Tables: finite maps kept in ascending key order

A `Table κ α` lists its entries by strictly ascending key, so a key has at most one entry and two
tables with the same look-ups are equal (`Table.ext`). The order is the one of `compare`.

* `get?` is the view of a table: every operation below is described by what it does to `get?`.
* `insert` writes one entry (`get?_insert`).
* `filterMap` changes or drops entry by entry (`get?_filterMap`).
* `traverse` changes every entry by a computation that may stop (`get?_traverse`,
  `traverse_eq_error`).
* `mergeWith` combines two tables key by key (`get?_mergeWith`).
* `KeySet κ` is a table without values: a finite set listed in ascending order.
-/

namespace CycleBounds

/-! ### Lists of entries -/

namespace Entries

variable {κ α β γ : Type} [Ord κ]

def Ascending (l : List (κ × α)) : Prop :=
  l.Pairwise fun x y => compare x.1 y.1 = .lt

/-- The value at a key; the search ends as soon as the keys are larger. -/
def lookup : List (κ × α) → κ → Option α
  | [], _ => none
  | (l, a) :: rest, k =>
    match compare k l with
    | .lt => none
    | .eq => some a
    | .gt => lookup rest k

/-- Write one entry at its place, over the old entry of the key if there is one. -/
def insert (k : κ) (a : α) : List (κ × α) → List (κ × α)
  | [] => [(k, a)]
  | (l, b) :: rest =>
    match compare k l with
    | .lt => (k, a) :: (l, b) :: rest
    | .eq => (k, a) :: rest
    | .gt => (l, b) :: insert k a rest

/-- Change or drop every entry. -/
def filterMap (f : κ → α → Option β) (l : List (κ × α)) : List (κ × β) :=
  l.filterMap fun e => (f e.1 e.2).map fun b => (e.1, b)

/-- An entry at the front, if there is a value for it. -/
def push (k : κ) : Option γ → List (κ × γ) → List (κ × γ)
  | none, l => l
  | some c, l => (k, c) :: l

/-- Merge a list with the entry `(k, a)` at its front, `rest` being the merge of what follows it. -/
def mergeHead (f : Option α → Option β → Option γ) (k : κ) (a : α)
    (rest : List (κ × β) → List (κ × γ)) : List (κ × β) → List (κ × γ)
  | [] => push k (f (some a) none) (rest [])
  | (l, b) :: ys =>
    match compare k l with
    | .lt => push k (f (some a) none) (rest ((l, b) :: ys))
    | .eq => push k (f (some a) (some b)) (rest ys)
    | .gt => push l (f none (some b)) (mergeHead f k a rest ys)

/-- Change every entry, unless one of them stops. -/
def traverse {ε : Type} (f : κ → α → Except ε β) :
    (l : List (κ × α)) → Except ε { m : List (κ × β) // m.map (·.1) = l.map (·.1) }
  | [] => .ok ⟨[], rfl⟩
  | (k, a) :: rest => do
    let b ← f k a
    let ⟨m, h⟩ ← traverse f rest
    return ⟨(k, b) :: m, by simp [h]⟩

/-- Combine two ascending lists key by key. -/
def merge (f : Option α → Option β → Option γ) : List (κ × α) → List (κ × β) → List (κ × γ)
  | [], ys => filterMap (fun _ b => f none (some b)) ys
  | (k, a) :: xs, ys => mergeHead f k a (merge f xs) ys

/-! ### Look-ups in lists of entries -/

section Lookup

theorem lookup_eq_none_of_lt {l : List (κ × α)} {k : κ}
    (h : ∀ e ∈ l, compare k e.1 = .lt) : lookup l k = none := by
  cases l with
  | nil => rfl
  | cons e rest => simp [lookup, h e List.mem_cons_self]

variable [Std.TransOrd κ] [Std.LawfulEqOrd κ]

omit [Std.LawfulEqOrd κ] in
/-- A key at or below the head's has no entry in the tail. -/
theorem lookup_tail_eq_none {l k : κ} {a : α} {rest : List (κ × α)}
    (h : Ascending ((l, a) :: rest)) (hk : compare k l ≠ .gt) : lookup rest k = none := by
  refine lookup_eq_none_of_lt fun e he => ?_
  have hl : compare l e.1 = .lt := (List.pairwise_cons.mp h).1 e he
  exact Std.TransCmp.lt_of_isLE_of_lt (Ordering.ne_gt_iff_isLE.mp hk) hl

theorem lookup_insert (k q : κ) (a : α) (l : List (κ × α)) :
    lookup (insert k a l) q = if compare q k = .eq then some a else lookup l q := by
  induction l with
  | nil => simp only [insert, lookup]; cases compare q k <;> simp
  | cons e rest ih =>
    obtain ⟨l, b⟩ := e
    simp only [insert]
    cases hkl : compare k l with
    | lt =>
      simp only [lookup]
      cases hqk : compare q k with
      | lt => simp [Std.TransCmp.lt_trans hqk hkl]
      | eq => simp
      | gt => simp
    | eq =>
      have hkl' : k = l := Std.LawfulEqCmp.eq_of_compare hkl
      subst hkl'
      simp only [lookup]
      cases compare q k <;> simp
    | gt =>
      simp only [lookup, ih]
      cases hql : compare q l with
      | lt =>
        have : compare q k = .lt :=
          Std.TransCmp.lt_trans hql (Std.OrientedCmp.gt_iff_lt.mp hkl)
        simp [this]
      | eq =>
        have hql' : q = l := Std.LawfulEqCmp.eq_of_compare hql
        subst hql'
        simp [Std.OrientedCmp.gt_iff_lt.mp hkl]
      | gt => simp

theorem lookup_filterMap (f : κ → α → Option β) {l : List (κ × α)} (h : Ascending l) (q : κ) :
    lookup (filterMap f l) q = (lookup l q).bind (f q) := by
  induction l with
  | nil => rfl
  | cons e rest ih =>
    obtain ⟨k, a⟩ := e
    have hrest : Ascending rest := (List.pairwise_cons.mp h).2
    have htail := lookup_tail_eq_none (k := q) h
    have ih := ih hrest
    cases hqk : compare q k with
    | lt =>
      simp only [hqk, ne_eq, reduceCtorEq, not_false_eq_true, forall_const] at htail
      cases hf : f k a <;> simp_all [filterMap, lookup]
    | eq =>
      have hqk' : q = k := Std.LawfulEqCmp.eq_of_compare hqk
      subst hqk'
      simp only [hqk, ne_eq, reduceCtorEq, not_false_eq_true, forall_const] at htail
      cases hf : f q a <;> simp_all [filterMap, lookup]
    | gt => cases hf : f k a <;> simp_all [filterMap, lookup]

omit [Std.TransOrd κ] in
theorem lookup_traverse {ε : Type} {f : κ → α → Except ε β}
    {l : List (κ × α)} {m : { m : List (κ × β) // m.map (·.1) = l.map (·.1) }}
    (h : traverse f l = .ok m) {q : κ} {a : α} (ha : lookup l q = some a) :
    ∃ b, f q a = .ok b ∧ lookup m.1 q = some b := by
  induction l with
  | nil => cases ha
  | cons e rest ih =>
    obtain ⟨k, a'⟩ := e
    simp only [traverse] at h
    cases hb : f k a' with
    | error e =>
      rw [hb] at h
      cases h
    | ok b =>
      cases hm : traverse f rest with
      | error e =>
        rw [hb, hm] at h
        cases h
      | ok m' =>
        rw [hb, hm] at h
        obtain rfl := Except.ok.inj h
        simp only [lookup] at ha ⊢
        cases hcmp : compare q k with
        | lt =>
          rw [hcmp] at ha
          cases ha
        | eq =>
          rw [hcmp] at ha
          obtain rfl := Option.some.inj ha
          obtain rfl := Std.LawfulEqOrd.eq_of_compare hcmp
          exact ⟨b, hb, rfl⟩
        | gt =>
          rw [hcmp] at ha
          exact ih hm ha

omit [Ord κ] [Std.TransOrd κ] [Std.LawfulEqOrd κ] in
/-- A change of all entries that stops does so at one of them. -/
theorem traverse_eq_error {ε : Type} {f : κ → α → Except ε β} {l : List (κ × α)} {cause : ε}
    (h : traverse f l = .error cause) : ∃ e ∈ l, f e.1 e.2 = .error cause := by
  induction l with
  | nil => cases h
  | cons e rest ih =>
    obtain ⟨k, a⟩ := e
    simp only [traverse] at h
    cases hb : f k a with
    | error stop =>
      rw [hb] at h
      obtain rfl : stop = cause := Except.error.inj h
      exact ⟨(k, a), List.mem_cons_self, hb⟩
    | ok b =>
      cases hm : traverse f rest with
      | error stop =>
        rw [hb, hm] at h
        obtain rfl : stop = cause := Except.error.inj h
        obtain ⟨e, he, hstop⟩ := ih hm
        exact ⟨e, List.mem_cons_of_mem _ he, hstop⟩
      | ok m =>
        rw [hb, hm] at h
        cases h

omit [Std.TransOrd κ] in
/-- One step of a merge: the entry that comes first decides its own key, the rest decides all
larger keys, and no smaller key has an entry. -/
theorem lookup_push {k q : κ} {o : Option γ} {l : List (κ × γ)}
    (h : compare q k ≠ .gt → lookup l q = none) :
    lookup (push k o l) q = match compare q k with
      | .lt => none
      | .eq => o
      | .gt => lookup l q := by
  cases o with
  | none => cases hqk : compare q k <;> simp_all [push]
  | some c => cases hqk : compare q k <;> simp [push, lookup, hqk]

theorem lookup_mergeHead {f : Option α → Option β → Option γ} (hf : f none none = none)
    {k : κ} {a : α} {xs : List (κ × α)} (hx : Ascending ((k, a) :: xs))
    {rest : List (κ × β) → List (κ × γ)}
    (hrest : ∀ ys, Ascending ys → ∀ q, lookup (rest ys) q = f (lookup xs q) (lookup ys q))
    {ys : List (κ × β)} (hy : Ascending ys) (q : κ) :
    lookup (mergeHead f k a rest ys) q = f (lookup ((k, a) :: xs) q) (lookup ys q) := by
  induction ys with
  | nil =>
    have htail := lookup_tail_eq_none (k := q) hx
    rw [mergeHead, lookup_push fun hq => by rw [hrest _ hy, htail hq]; exact hf]
    cases hqk : compare q k <;> simp [lookup, hqk, hf, hrest _ hy]
  | cons e ys ih =>
    obtain ⟨l, b⟩ := e
    have hytail : Ascending ys := (List.pairwise_cons.mp hy).2
    have hx' := lookup_tail_eq_none (k := q) hx
    have hy' := lookup_tail_eq_none (k := q) hy
    simp only [mergeHead]
    cases hkl : compare k l with
    | lt =>
      have below : compare q k ≠ .gt → lookup ((l, b) :: ys) q = none := fun hq => by
        simp [lookup, Std.TransCmp.lt_of_isLE_of_lt (Ordering.ne_gt_iff_isLE.mp hq) hkl]
      rw [lookup_push fun hq => by rw [hrest _ hy, hx' hq, below hq]; exact hf]
      cases hqk : compare q k with
      | lt => simp [lookup, hqk, hf, Std.TransCmp.lt_trans hqk hkl]
      | eq =>
        have hqk' : q = k := Std.LawfulEqCmp.eq_of_compare hqk
        subst hqk'
        simp [lookup, hkl]
      | gt => simp [hrest _ hy, lookup, hqk]
    | eq =>
      have hkl' : k = l := Std.LawfulEqCmp.eq_of_compare hkl
      subst hkl'
      rw [lookup_push fun hq => by rw [hrest _ hytail, hx' hq, hy' hq]; exact hf]
      cases hqk : compare q k <;> simp [lookup, hqk, hf, hrest _ hytail]
    | gt =>
      have hlk : compare l k = .lt := Std.OrientedCmp.gt_iff_lt.mp hkl
      have below : compare q l ≠ .gt → lookup ((k, a) :: xs) q = none := fun hq => by
        simp [lookup, Std.TransCmp.lt_of_isLE_of_lt (Ordering.ne_gt_iff_isLE.mp hq) hlk]
      rw [lookup_push fun hq => by rw [ih hytail, below hq, hy' hq]; exact hf]
      cases hql : compare q l with
      | lt => simp [lookup, hql, hf, Std.TransCmp.lt_trans hql hlk]
      | eq =>
        have hql' : q = l := Std.LawfulEqCmp.eq_of_compare hql
        subst hql'
        simp [lookup, hlk]
      | gt => rw [ih hytail]; simp [lookup, hql]

theorem lookup_merge {f : Option α → Option β → Option γ} (hf : f none none = none)
    {xs : List (κ × α)} (hx : Ascending xs) {ys : List (κ × β)} (hy : Ascending ys) (q : κ) :
    lookup (merge f xs ys) q = f (lookup xs q) (lookup ys q) := by
  induction xs generalizing ys q with
  | nil =>
    rw [merge, lookup_filterMap _ hy]
    cases lookup ys q <;> simp [lookup, hf]
  | cons e xs ih =>
    obtain ⟨k, a⟩ := e
    rw [merge]
    exact lookup_mergeHead hf hx (fun ys hys q => ih (List.pairwise_cons.mp hx).2 hys q) hy q

theorem lookup_eq_some_iff {l : List (κ × α)} (h : Ascending l) {k : κ} {a : α} :
    lookup l k = some a ↔ (k, a) ∈ l := by
  induction l with
  | nil => simp [lookup]
  | cons e rest ih =>
    obtain ⟨l, b⟩ := e
    have htail := lookup_tail_eq_none (k := k) h
    have ih := ih (List.pairwise_cons.mp h).2
    have absent : lookup rest k = none → (k, a) ∉ rest := fun hn hm => by
      rw [ih.mpr hm] at hn
      cases hn
    cases hkl : compare k l with
    | lt =>
      have hne : k ≠ l := fun e => by subst e; simp at hkl
      simp [lookup, hkl, hne, absent (htail (by simp [hkl]))]
    | eq =>
      have hkl' : k = l := Std.LawfulEqCmp.eq_of_compare hkl
      subst hkl'
      simp [lookup, absent (htail (by simp)), eq_comm]
    | gt =>
      have hne : k ≠ l := fun e => by subst e; simp at hkl
      simp [lookup, hkl, hne, ih]

theorem eq_of_lookup_eq {l m : List (κ × α)} (hl : Ascending l) (hm : Ascending m)
    (h : ∀ k, lookup l k = lookup m k) : l = m := by
  induction l generalizing m with
  | nil =>
    cases m with
    | nil => rfl
    | cons e _ => simpa [lookup] using h e.1
  | cons e l ih =>
    obtain ⟨k, a⟩ := e
    cases m with
    | nil => simpa [lookup] using h k
    | cons e' m =>
      obtain ⟨k', a'⟩ := e'
      have hk := h k
      have hk' := h k'
      cases hc : compare k k' with
      | lt => simp [lookup, hc] at hk
      | gt => simp [lookup, Std.OrientedCmp.gt_iff_lt.mp hc] at hk'
      | eq =>
        have hkk : k = k' := Std.LawfulEqCmp.eq_of_compare hc
        subst hkk
        have haa : a = a' := by simpa [lookup] using hk
        subst haa
        refine congrArg ((k, a) :: ·) (ih (List.pairwise_cons.mp hl).2
          (List.pairwise_cons.mp hm).2 fun q => ?_)
        cases hq : compare q k with
        | gt => simpa [lookup, hq] using h q
        | lt => rw [lookup_tail_eq_none hl (by simp [hq]), lookup_tail_eq_none hm (by simp [hq])]
        | eq => rw [lookup_tail_eq_none hl (by simp [hq]), lookup_tail_eq_none hm (by simp [hq])]

end Lookup

/-! ### Keys stay in ascending order -/

section Order

theorem fst_mem_of_mem_insert {k : κ} {a : α} {l : List (κ × α)} {e : κ × α}
    (h : e ∈ insert k a l) : e = (k, a) ∨ e ∈ l := by
  induction l with
  | nil => simpa [insert] using h
  | cons x rest ih =>
    obtain ⟨l, b⟩ := x
    simp only [insert] at h
    cases hkl : compare k l <;> simp only [hkl, List.mem_cons] at h ⊢
    · exact h
    · exact h.imp_right .inr
    · rcases h with h | h
      · exact .inr (.inl h)
      · exact (ih h).imp_right .inr

theorem ascending_iff_keys {l : List (κ × α)} :
    Ascending l ↔ (l.map (·.1)).Pairwise fun x y => compare x y = .lt := by
  rw [List.pairwise_map]
  rfl

theorem ascending_of_keys {l : List (κ × α)} {m : List (κ × β)}
    (hk : m.map (·.1) = l.map (·.1)) (h : Ascending l) : Ascending m :=
  ascending_iff_keys.mpr (hk ▸ ascending_iff_keys.mp h)

theorem ascending_filterMap (f : κ → α → Option β) {l : List (κ × α)} (h : Ascending l) :
    Ascending (filterMap f l) := by
  refine List.Pairwise.filterMap _ (fun x y hxy x' hx' y' hy' => ?_) h
  obtain ⟨_, _, rfl⟩ := Option.map_eq_some_iff.mp hx'
  obtain ⟨_, _, rfl⟩ := Option.map_eq_some_iff.mp hy'
  exact hxy

omit [Ord κ] in
theorem mem_push {k : κ} {o : Option γ} {l : List (κ × γ)} {e : κ × γ} (h : e ∈ push k o l) :
    e.1 = k ∨ e ∈ l := by
  cases o with
  | none => exact .inr h
  | some c => exact (List.mem_cons.mp h).imp_left fun h => by rw [h]

theorem ascending_push {k : κ} {o : Option γ} {l : List (κ × γ)} (h : Ascending l)
    (hk : ∀ e ∈ l, compare k e.1 = .lt) : Ascending (push k o l) := by
  cases o with
  | none => exact h
  | some c => exact List.pairwise_cons.mpr ⟨hk, h⟩

/-- The keys of a merge come from the two sides. -/
theorem mem_mergeHead {f : Option α → Option β → Option γ} {k : κ} {a : α} {xs : List (κ × α)}
    {rest : List (κ × β) → List (κ × γ)}
    (hrest : ∀ ys e, e ∈ rest ys → (∃ x ∈ xs, x.1 = e.1) ∨ ∃ y ∈ ys, y.1 = e.1)
    {ys : List (κ × β)} {e : κ × γ} (h : e ∈ mergeHead f k a rest ys) :
    (∃ x ∈ (k, a) :: xs, x.1 = e.1) ∨ ∃ y ∈ ys, y.1 = e.1 := by
  have lift : ∀ ys, e ∈ rest ys → (∃ x ∈ (k, a) :: xs, x.1 = e.1) ∨ ∃ y ∈ ys, y.1 = e.1 :=
    fun ys h => (hrest ys e h).imp_left fun ⟨x, hx, hxe⟩ => ⟨x, List.mem_cons_of_mem _ hx, hxe⟩
  have grow : ∀ {l : κ} {b : β} {ys : List (κ × β)}, (∃ y ∈ ys, y.1 = e.1) →
      ∃ y ∈ (l, b) :: ys, y.1 = e.1 :=
    fun ⟨y, hy, hye⟩ => ⟨y, List.mem_cons_of_mem _ hy, hye⟩
  induction ys with
  | nil =>
    rcases mem_push h with h | h
    · exact .inl ⟨(k, a), List.mem_cons_self, h.symm⟩
    · exact lift _ h
  | cons y ys ih =>
    obtain ⟨l, b⟩ := y
    simp only [mergeHead] at h
    cases hkl : compare k l <;> simp only [hkl] at h <;> rcases mem_push h with h | h
    · exact .inl ⟨(k, a), List.mem_cons_self, h.symm⟩
    · exact lift _ h
    · exact .inl ⟨(k, a), List.mem_cons_self, h.symm⟩
    · exact (lift _ h).imp_right grow
    · exact .inr ⟨(l, b), List.mem_cons_self, h.symm⟩
    · exact (ih h).imp_right grow

theorem mem_merge {f : Option α → Option β → Option γ} {xs : List (κ × α)} {ys : List (κ × β)}
    {e : κ × γ} (h : e ∈ merge f xs ys) : (∃ x ∈ xs, x.1 = e.1) ∨ ∃ y ∈ ys, y.1 = e.1 := by
  induction xs generalizing ys e with
  | nil =>
    obtain ⟨y, hy, hye⟩ := List.mem_filterMap.mp h
    obtain ⟨_, _, rfl⟩ := Option.map_eq_some_iff.mp hye
    exact .inr ⟨y, hy, rfl⟩
  | cons x xs ih =>
    obtain ⟨k, a⟩ := x
    exact mem_mergeHead (fun ys e he => ih he) h

variable [Std.TransOrd κ] [Std.LawfulEqOrd κ]

theorem ascending_insert (k : κ) (a : α) {l : List (κ × α)} (h : Ascending l) :
    Ascending (insert k a l) := by
  induction l with
  | nil => simp [insert, Ascending]
  | cons x rest ih =>
    obtain ⟨l, b⟩ := x
    obtain ⟨hl, hrest⟩ := List.pairwise_cons.mp h
    simp only [insert]
    cases hkl : compare k l with
    | lt =>
      refine List.pairwise_cons.mpr ⟨fun e he => ?_, h⟩
      rcases List.mem_cons.mp he with rfl | he
      · exact hkl
      · exact Std.TransCmp.lt_trans hkl (hl e he)
    | eq =>
      have hkl' : k = l := Std.LawfulEqCmp.eq_of_compare hkl
      subst hkl'
      exact List.pairwise_cons.mpr ⟨hl, hrest⟩
    | gt =>
      refine List.pairwise_cons.mpr ⟨fun e he => ?_, ih hrest⟩
      rcases fst_mem_of_mem_insert he with rfl | he
      · exact Std.OrientedCmp.gt_iff_lt.mp hkl
      · exact hl e he

theorem ascending_mergeHead {f : Option α → Option β → Option γ} {k : κ} {a : α}
    {xs : List (κ × α)} (hx : Ascending ((k, a) :: xs)) {rest : List (κ × β) → List (κ × γ)}
    (hkeys : ∀ ys e, e ∈ rest ys → (∃ x ∈ xs, x.1 = e.1) ∨ ∃ y ∈ ys, y.1 = e.1)
    (hrest : ∀ ys, Ascending ys → Ascending (rest ys))
    {ys : List (κ × β)} (hy : Ascending ys) : Ascending (mergeHead f k a rest ys) := by
  obtain ⟨hk, -⟩ := List.pairwise_cons.mp hx
  -- what follows `k` in the merge lies above `k` if the right-hand side does
  have above : ∀ ys : List (κ × β), (∀ y ∈ ys, compare k y.1 = .lt) →
      ∀ e ∈ rest ys, compare k e.1 = .lt := by
    intro ys hys e he
    rcases hkeys ys e he with ⟨x, hx, hxe⟩ | ⟨y, hy, hye⟩
    · exact hxe ▸ hk x hx
    · exact hye ▸ hys y hy
  induction ys with
  | nil => exact ascending_push (hrest _ hy) (above [] (by simp))
  | cons y ys ih =>
    obtain ⟨l, b⟩ := y
    obtain ⟨hl, hytail⟩ := List.pairwise_cons.mp hy
    simp only [mergeHead]
    cases hkl : compare k l with
    | lt =>
      refine ascending_push (hrest _ hy) (above _ fun y hy' => ?_)
      rcases List.mem_cons.mp hy' with rfl | hy'
      · exact hkl
      · exact Std.TransCmp.lt_trans hkl (hl y hy')
    | eq =>
      have hkl' : k = l := Std.LawfulEqCmp.eq_of_compare hkl
      subst hkl'
      exact ascending_push (hrest _ hytail) (above _ hl)
    | gt =>
      have hlk : compare l k = .lt := Std.OrientedCmp.gt_iff_lt.mp hkl
      refine ascending_push (ih hytail) fun e he => ?_
      rcases mem_mergeHead hkeys he with ⟨x, hx', hxe⟩ | ⟨y, hy', hye⟩
      · rcases List.mem_cons.mp hx' with rfl | hx'
        · exact hxe ▸ hlk
        · exact hxe ▸ Std.TransCmp.lt_trans hlk (hk x hx')
      · exact hye ▸ hl y hy'

theorem ascending_merge (f : Option α → Option β → Option γ) {xs : List (κ × α)}
    (hx : Ascending xs) {ys : List (κ × β)} (hy : Ascending ys) : Ascending (merge f xs ys) := by
  induction xs generalizing ys with
  | nil => exact ascending_filterMap _ hy
  | cons x xs ih =>
    obtain ⟨k, a⟩ := x
    exact ascending_mergeHead hx (fun ys e he => mem_merge he)
      (fun ys hys => ih (List.pairwise_cons.mp hx).2 hys) hy

end Order

end Entries

/-! ### Tables -/

/-- A finite map from `κ` to `α`, its entries in ascending key order. -/
structure Table (κ α : Type) [Ord κ] where
  entries : List (κ × α)
  ascending : Entries.Ascending entries

namespace Table

variable {κ α β γ : Type} [Ord κ]

instance [DecidableEq κ] [DecidableEq α] : DecidableEq (Table κ α) := fun s t =>
  decidable_of_iff (s.entries = t.entries) ⟨fun h => by cases s; cases t; simp_all, congrArg _⟩

def empty : Table κ α := ⟨[], .nil⟩

instance : EmptyCollection (Table κ α) := ⟨empty⟩

instance : Inhabited (Table κ α) := ⟨empty⟩

def get? (t : Table κ α) (k : κ) : Option α :=
  Entries.lookup t.entries k

def contains (t : Table κ α) (k : κ) : Bool :=
  (t.get? k).isSome

def keys (t : Table κ α) : List κ :=
  t.entries.map (·.1)

def values (t : Table κ α) : List α :=
  t.entries.map (·.2)

def size (t : Table κ α) : Nat :=
  t.entries.length

def isEmpty (t : Table κ α) : Bool :=
  t.entries.isEmpty

/-- Change every entry, unless one of them stops. -/
def traverse {ε : Type} (f : κ → α → Except ε β) (t : Table κ α) : Except ε (Table κ β) := do
  let ⟨m, h⟩ ← Entries.traverse f t.entries
  return ⟨m, Entries.ascending_of_keys h t.ascending⟩

/-- Change or drop every entry. -/
def filterMap (f : κ → α → Option β) (t : Table κ α) : Table κ β :=
  ⟨Entries.filterMap f t.entries, Entries.ascending_filterMap f t.ascending⟩

variable [Std.TransOrd κ] [Std.LawfulEqOrd κ]

/-- Write one entry, over the old one of the key if there is one. -/
def insert (t : Table κ α) (k : κ) (a : α) : Table κ α :=
  ⟨Entries.insert k a t.entries, Entries.ascending_insert k a t.ascending⟩

/-- Combine two tables key by key. -/
def mergeWith (f : Option α → Option β → Option γ) (s : Table κ α) (t : Table κ β) : Table κ γ :=
  ⟨Entries.merge f s.entries t.entries, Entries.ascending_merge f s.ascending t.ascending⟩

omit [Std.TransOrd κ] [Std.LawfulEqOrd κ] in
@[simp] theorem get?_empty (k : κ) : (∅ : Table κ α).get? k = none := rfl

/-- Tables with the same look-ups are equal. -/
@[ext] theorem ext {s t : Table κ α} (h : ∀ k, s.get? k = t.get? k) : s = t := by
  obtain ⟨l, hl⟩ := s
  obtain ⟨m, hm⟩ := t
  have : l = m := Entries.eq_of_lookup_eq hl hm h
  subst this
  rfl

theorem get?_insert (t : Table κ α) (k q : κ) (a : α) :
    (t.insert k a).get? q = if compare q k = .eq then some a else t.get? q :=
  Entries.lookup_insert k q a t.entries

theorem get?_insert_self (t : Table κ α) (k : κ) (a : α) : (t.insert k a).get? k = some a := by
  rw [get?_insert, if_pos (Std.LawfulEqOrd.compare_eq_iff_eq.mpr rfl)]

theorem get?_insert_of_ne (t : Table κ α) {k q : κ} (h : q ≠ k) (a : α) :
    (t.insert k a).get? q = t.get? q := by
  rw [get?_insert, if_neg (fun heq => h (Std.LawfulEqOrd.compare_eq_iff_eq.mp heq))]

/-- One value is written at several keys. -/
theorem get?_foldl_insert [DecidableEq κ] (keys : List κ) (a : α) (t : Table κ α) (q : κ) :
    (keys.foldl (fun t k => t.insert k a) t).get? q =
      if q ∈ keys then some a else t.get? q := by
  induction keys generalizing t with
  | nil => simp
  | cons k keys ih =>
    rw [List.foldl_cons, ih]
    by_cases hq : q ∈ keys
    · simp [hq]
    · by_cases hk : q = k
      · simp [hk, get?_insert_self]
      · simp [hq, hk, get?_insert_of_ne]

theorem get?_filterMap (f : κ → α → Option β) (t : Table κ α) (q : κ) :
    (t.filterMap f).get? q = (t.get? q).bind (f q) :=
  Entries.lookup_filterMap f t.ascending q

omit [Std.TransOrd κ] in
theorem get?_traverse {ε : Type} {f : κ → α → Except ε β} {t : Table κ α} {u : Table κ β}
    (h : t.traverse f = .ok u) {q : κ} {a : α} (ha : t.get? q = some a) :
    ∃ b, f q a = .ok b ∧ u.get? q = some b := by
  unfold traverse at h
  cases hm : Entries.traverse f t.entries with
  | error e =>
    rw [hm] at h
    cases h
  | ok m =>
    rw [hm] at h
    obtain rfl := Except.ok.inj h
    exact Entries.lookup_traverse hm ha

omit [Std.TransOrd κ] [Std.LawfulEqOrd κ] in
theorem keys_traverse {ε : Type} {f : κ → α → Except ε β} {t : Table κ α} {u : Table κ β}
    (h : t.traverse f = .ok u) : u.keys = t.keys := by
  unfold traverse at h
  cases hm : Entries.traverse f t.entries with
  | error e =>
    rw [hm] at h
    cases h
  | ok m =>
    rw [hm] at h
    obtain rfl := Except.ok.inj h
    exact m.2

theorem get?_mergeWith {f : Option α → Option β → Option γ} (hf : f none none = none)
    (s : Table κ α) (t : Table κ β) (q : κ) :
    (s.mergeWith f t).get? q = f (s.get? q) (t.get? q) :=
  Entries.lookup_merge hf s.ascending t.ascending q

theorem mem_entries_iff {t : Table κ α} {k : κ} {a : α} :
    (k, a) ∈ t.entries ↔ t.get? k = some a :=
  (Entries.lookup_eq_some_iff t.ascending).symm

theorem traverse_eq_error {ε : Type} {f : κ → α → Except ε β} {t : Table κ α} {cause : ε}
    (h : t.traverse f = .error cause) : ∃ k a, t.get? k = some a ∧ f k a = .error cause := by
  unfold traverse at h
  cases hm : Entries.traverse f t.entries with
  | ok m =>
    rw [hm] at h
    cases h
  | error stop =>
    rw [hm] at h
    obtain rfl : stop = cause := Except.error.inj h
    obtain ⟨⟨k, a⟩, he, hstop⟩ := Entries.traverse_eq_error hm
    exact ⟨k, a, mem_entries_iff.mp he, hstop⟩

theorem mem_keys_iff {t : Table κ α} {k : κ} : k ∈ t.keys ↔ (t.get? k).isSome := by
  rw [keys, List.mem_map, Option.isSome_iff_exists]
  constructor
  · rintro ⟨⟨l, a⟩, h, rfl⟩
    exact ⟨a, mem_entries_iff.mp h⟩
  · rintro ⟨a, h⟩
    exact ⟨(k, a), mem_entries_iff.mpr h, rfl⟩

omit [Std.TransOrd κ] in
/-- No key is listed twice. -/
theorem nodup_keys (t : Table κ α) : t.keys.Nodup := by
  refine (Entries.ascending_iff_keys.mp t.ascending).imp ?_
  rintro k _ hlt rfl
  rw [Std.LawfulEqOrd.compare_eq_iff_eq.mpr rfl] at hlt
  cases hlt

theorem mem_values_iff {t : Table κ α} {a : α} : a ∈ t.values ↔ ∃ k, t.get? k = some a := by
  rw [values, List.mem_map]
  constructor
  · rintro ⟨⟨k, b⟩, h, rfl⟩
    exact ⟨k, mem_entries_iff.mp h⟩
  · rintro ⟨k, h⟩
    exact ⟨(k, a), mem_entries_iff.mpr h, rfl⟩

end Table

abbrev KeySet (κ : Type) [Ord κ] := Table κ Unit

namespace KeySet

variable {κ : Type} [Ord κ] [Std.TransOrd κ] [Std.LawfulEqOrd κ]

/-- The members of a list, each once and in ascending order. -/
def ofList (ks : List κ) : KeySet κ :=
  ks.foldl (fun s k => s.insert k ()) ∅

def erase [DecidableEq κ] (s : KeySet κ) (k : κ) : KeySet κ :=
  s.filterMap fun l _ => if l = k then none else some ()

def union (s t : KeySet κ) : KeySet κ :=
  s.mergeWith Option.or t

theorem mem_keys_ofList {ks : List κ} {k : κ} : k ∈ (ofList ks).keys ↔ k ∈ ks := by
  suffices h : ∀ s : KeySet κ, k ∈ (ks.foldl (fun s k => s.insert k ()) s).keys ↔
      k ∈ ks ∨ k ∈ s.keys by
    simpa [ofList, Table.mem_keys_iff] using h ∅
  induction ks with
  | nil => simp
  | cons l ks ih =>
    intro s
    rw [List.foldl_cons, ih, Table.mem_keys_iff, Table.mem_keys_iff, Table.get?_insert,
      List.mem_cons]
    by_cases h : k = l
    · simp [h]
    · simp [h]

/-! What the operations do to membership. -/

omit [Std.TransOrd κ] [Std.LawfulEqOrd κ] in
@[simp] theorem contains_empty (k : κ) : (∅ : KeySet κ).contains k = false := rfl

theorem mem_keys_iff_contains {s : KeySet κ} {k : κ} : k ∈ s.keys ↔ s.contains k :=
  Table.mem_keys_iff

@[simp] theorem contains_insert {s : KeySet κ} {k l : κ} :
    (s.insert k ()).contains l ↔ l = k ∨ s.contains l := by
  by_cases h : l = k
  · simp [Table.contains, h, Table.get?_insert_self]
  · simp [Table.contains, h, Table.get?_insert_of_ne]

@[simp] theorem contains_erase [DecidableEq κ] {s : KeySet κ} {k l : κ} :
    (s.erase k).contains l ↔ s.contains l ∧ l ≠ k := by
  rw [Table.contains, erase, Table.get?_filterMap]
  by_cases h : l = k
  · simp [h]
  · cases hl : s.get? l <;> simp [Table.contains, h, hl]

@[simp] theorem contains_union {s t : KeySet κ} {l : κ} :
    (s.union t).contains l ↔ s.contains l ∨ t.contains l := by
  rw [Table.contains, union, Table.get?_mergeWith rfl, Option.isSome_or, Bool.or_eq_true]
  rfl

/-- Sets with the same members are equal. -/
theorem eq_of_contains_iff {s t : KeySet κ} (h : ∀ k, s.contains k ↔ t.contains k) : s = t := by
  ext k
  have hk := h k
  unfold Table.contains at hk
  cases hs : s.get? k <;> cases ht : t.get? k <;> simp_all

end KeySet

end CycleBounds
