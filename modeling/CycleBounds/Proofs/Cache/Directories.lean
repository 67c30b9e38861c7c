import CycleBounds.Proofs.Cache.Reachable
import CycleBounds.Proofs.Cache.Ways

/-!
# Directories represent states

A directory lists the lines of every set by age, a state gives the age of every line. Fetches and
merges keep a directory well-formed: each line is in one way at most, and only in its own set. So a
directory gives every line one age at most, and a directory and a state that agree about all ages
stay in step.

* `Reachable.wellFormed`: each line is in one way at most, and only in its set.
* `Represents`: a directory and a state agree about all ages. Each operation keeps this, and what is
  known about a fetch is the same in both forms (`Represents.classify_eq`).
* `reachable_iff_represented`: the two forms lead to the same states.
* `reachable_consistent`: the three domains of a directory fit together.
-/

namespace CycleBounds.Cache

/-! ### Sets -/

namespace Domain

/-- A merge keeps the lines of one side in the may and in the persistence domain. -/
def unites : Domain → Bool
  | .must => false
  | .may | .persistence => true

/-- A merge keeps the lower one of two ages in the may domain. -/
def pick : Domain → Nat → Nat → Nat
  | .may => min
  | .must | .persistence => max

theorem pick_lt (d : Domain) {a b n : Nat} (ha : a < n) (hb : b < n) : d.pick a b < n := by
  cases d <;> simp only [pick] <;> omega

end Domain

/-- The age of a line after a join of states, by the rule of the domain. -/
theorem State.get?_join (s t : State) (d : Domain) (l : Nat) : ((s.join t).ages d).get? l =
    Ways.mergedAge d.unites d.pick ((s.ages d).get? l) ((t.ages d).get? l) := by
  cases d with
  | must =>
    refine (Ages.get?_meet _ _ _ l).trans ?_
    simp only [State.ages]
    cases s.must.get? l <;> cases t.must.get? l <;> rfl
  | may =>
    refine (Ages.get?_union _ _ _ l).trans ?_
    simp only [State.ages]
    cases s.may.get? l <;> cases t.may.get? l <;> rfl
  | persistence =>
    refine (Ages.get?_union _ _ _ l).trans ?_
    simp only [State.ages]
    cases s.persistence.get? l <;> cases t.persistence.get? l <;> rfl

namespace SetWays

variable {c : Config} {d : Domain} {i l line : Nat} {s t : SetWays}

theorem ways_empty : (empty c).ways d = .empty (d.aging c).ages := by
  cases d <;> rfl

theorem ways_access : (s.access c line).ways d = (s.ways d).touch (d.aging c) line := by
  cases d <;> rfl

theorem ways_join : (s.join t).ways d = (s.ways d).combine d.unites d.pick (t.ways d) := by
  cases d <;> rfl

theorem ext_ways (h : ∀ d, s.ways d = t.ways d) : s = t := by
  obtain ⟨must, may, persistence⟩ := s
  obtain ⟨must', may', persistence'⟩ := t
  obtain rfl : must = must' := h .must
  obtain rfl : may = may' := h .may
  obtain rfl : persistence = persistence' := h .persistence
  rfl

/-- The ways of the set of a given index. -/
structure WellFormed (c : Config) (i : Nat) (s : SetWays) : Prop where
  /-- There is a way for every age. -/
  length : ∀ d, (s.ways d).length = (d.aging c).ages
  /-- A line is in no two ways. -/
  once : ∀ d, (s.ways d).Once
  /-- The lines are lines of the set. -/
  placed : ∀ d a l, (s.ways d).Holds a l → c.setOf l = i

theorem wellFormed_empty : (empty c).WellFormed c i where
  length := fun d => by rw [ways_empty, Ways.empty, List.length_replicate]
  once := fun d => by rw [ways_empty]; exact Ways.once_empty _
  placed := fun d a l h => by rw [ways_empty] at h; exact absurd h (Ways.not_holds_empty _)

/-- A fetch of a line of the set keeps the set well-formed. -/
theorem WellFormed.access (hs : s.WellFormed c i) (hline : c.setOf line = i) :
    (s.access c line).WellFormed c i where
  length := fun d => by rw [ways_access, Ways.length_touch, hs.length]
  once := fun d => by rw [ways_access]; exact (hs.once d).touch (hs.length d) (d.ages_pos c) line
  placed := by
    intro d a l h
    rw [ways_access, Ways.holds_touch (hs.length d) (d.ages_pos c) (hs.once d)] at h
    split at h
    case isTrue hl => rw [hl, hline]
    case isFalse hl =>
      obtain ⟨b, hb, -⟩ := h
      exact hs.placed d b l hb

/-- The age of a line of the set, by the rule of each domain. -/
theorem WellFormed.age?_access (hs : s.WellFormed c i) :
    ((s.access c line).ways d).age? l = if l = line then some 0 else
      ((s.ways d).age? l).bind ((d.aging c).grow ((d.aging c).limit ((s.ways d).age? line))) := by
  rw [ways_access, Ways.age?_touch (hs.length d) (d.ages_pos c) (hs.once d)]

section Join

variable (hs : s.WellFormed c i) (ht : t.WellFormed c i)

include hs ht

theorem WellFormed.age?_join : ((s.join t).ways d).age? l =
    Ways.mergedAge d.unites d.pick ((s.ways d).age? l) ((t.ways d).age? l) := by
  rw [ways_join, Ways.age?_combine ((ht.length d).trans (hs.length d).symm)
    (fun _ _ => d.pick_lt) (hs.once d) (ht.once d)]

/-- A join puts no line into two ways, or into another set. -/
theorem WellFormed.join : (s.join t).WellFormed c i where
  length := fun d => by rw [ways_join, Ways.length_combine, hs.length]
  once := fun d => by
    rw [ways_join]
    exact (hs.once d).combine ((ht.length d).trans (hs.length d).symm) (fun _ _ => d.pick_lt)
      (ht.once d)
  placed := by
    intro d a l h
    rw [ways_join, Ways.holds_combine ((ht.length d).trans (hs.length d).symm)
      (fun _ _ => d.pick_lt) (hs.once d) (ht.once d)] at h
    -- a line of the result is a line of one side
    cases ha : (s.ways d).age? l with
    | some b => exact hs.placed d b l (Ways.holds_of_age? ha)
    | none =>
      cases hb : (t.ways d).age? l with
      | some b => exact ht.placed d b l (Ways.holds_of_age? hb)
      | none => simp [ha, hb, Ways.mergedAge] at h

end Join

end SetWays

/-! ### Directories -/

namespace Directory

variable {c : Config} {d : Domain} {dir dir' : Directory} {s t : State} {i l : Nat} {set : SetWays}

/-- There is a well-formed set for each index. -/
structure WellFormed (c : Config) (dir : Directory) : Prop where
  length : dir.length = c.sets
  sets : ∀ (i : Nat) (set : SetWays), dir[i]? = some set → set.WellFormed c i

/-- The directories that the operations lead to, from that of an empty cache. -/
inductive Reachable (c : Config) : Directory → Prop
  | empty : Reachable c (.empty c)
  | access {dir : Directory} (address : Nat) :
      Reachable c dir → Reachable c (dir.access c address)
  | accessMaybe {dir : Directory} (address : Nat) :
      Reachable c dir → Reachable c (dir.accessMaybe c address)
  | join {dir dir' : Directory} : Reachable c dir → Reachable c dir' → Reachable c (dir.join dir')

theorem wellFormed_empty (c : Config) : (empty c).WellFormed c where
  length := List.length_replicate
  sets := by
    intro i set h
    obtain ⟨-, rfl⟩ := List.mem_replicate.mp (List.mem_of_getElem? h)
    exact SetWays.wellFormed_empty

/-- A change of one set. -/
theorem WellFormed.modify {f : SetWays → SetWays} (hdir : dir.WellFormed c)
    (hf : ∀ set, set.WellFormed c i → (f set).WellFormed c i) :
    WellFormed c (dir.modify i f) where
  length := (List.length_modify _ _ _).trans hdir.length
  sets := by
    intro j set h
    rw [List.getElem?_modify] at h
    obtain ⟨old, hold, rfl⟩ := Option.map_eq_some_iff.mp h
    have := hdir.sets j old hold
    split
    case isTrue heq =>
      subst heq
      exact hf old this
    case isFalse hne => exact this

theorem WellFormed.join (hdir : dir.WellFormed c) (hdir' : dir'.WellFormed c) :
    (dir.join dir').WellFormed c where
  length := by rw [Directory.join, List.length_zipWith, hdir.length, hdir'.length, Nat.min_self]
  sets := by
    intro i set h
    rw [Directory.join, List.getElem?_zipWith_eq_some] at h
    obtain ⟨left, right, hleft, hright, rfl⟩ := h
    exact (hdir.sets i left hleft).join (hdir'.sets i right hright)

/-- Each line is in one way at most, and only in its set. -/
theorem Reachable.wellFormed (h : Reachable c dir) : dir.WellFormed c := by
  induction h with
  | empty => exact wellFormed_empty c
  | access address _ ih => exact ih.modify fun set hset => hset.access rfl
  | accessMaybe address _ ih => exact ih.modify fun set hset => hset.join (hset.access rfl)
  | join _ _ ih ih' => exact ih.join ih'

/-! ### Directories and states -/

/-- A directory and a state agree about the ages of all lines. -/
def Represents (c : Config) (dir : Directory) (s : State) : Prop :=
  ∀ d l, dir.ageLine? c d l = (s.ages d).get? l

theorem ageLine?_eq (h : dir[c.setOf l]? = some set) :
    dir.ageLine? c d l = (set.ways d).age? l := by
  rw [ageLine?, h, Option.bind_some]

theorem WellFormed.exists_set (h : dir.WellFormed c) (l : Nat) :
    ∃ set, dir[c.setOf l]? = some set ∧ set.WellFormed c (c.setOf l) := by
  have hlt : c.setOf l < dir.length := by
    rw [h.length]
    exact Nat.mod_lt l (twoPow_pos c.setBits)
  exact ⟨_, List.getElem?_eq_getElem hlt, h.sets _ _ (List.getElem?_eq_getElem hlt)⟩

theorem represents_empty (c : Config) : Represents c (.empty c) .empty := by
  intro d l
  obtain ⟨set, hset, -⟩ := (wellFormed_empty c).exists_set l
  obtain ⟨-, rfl⟩ := List.mem_replicate.mp (List.mem_of_getElem? hset)
  rw [ageLine?_eq hset, SetWays.ways_empty,
    Ways.age?_eq_none_iff.mpr fun _ => Ways.not_holds_empty _]
  cases d <;> rfl

/-- A change of one set leaves the ages of lines of other sets as they are. -/
theorem ageLine?_modify {f : SetWays → SetWays} (h : dir[c.setOf l]? = some set) :
    ageLine? c (dir.modify i f) d l =
      ((if i = c.setOf l then f set else set).ways d).age? l := by
  refine ageLine?_eq ?_
  rw [List.getElem?_modify, h]
  rfl

/-- A fetch changes a directory and a state alike. -/
theorem Represents.access (hdir : dir.WellFormed c) (h : Represents c dir s) (address : Nat) :
    Represents c (dir.access c address) (s.access c address) := by
  intro d l
  obtain ⟨set, hset, hwf⟩ := hdir.exists_set l
  rw [Directory.access, ageLine?_modify hset]
  by_cases heq : c.setOf (c.line address) = c.setOf l
  · rw [Config.setOfAddress, if_pos heq, hwf.age?_access, State.access, State.ages_accessLine,
      Ages.get?_touch, if_pos heq.symm, ← h d l, ← h d (c.line address), ageLine?_eq hset,
      ageLine?_eq (by rw [heq]; exact hset)]
  · rw [Config.setOfAddress, if_neg heq, State.access,
      State.get?_accessLine_of_ne s d (Ne.symm heq), ← h d l, ageLine?_eq hset]

/-- A join changes directories and states alike. -/
theorem Represents.join (hdir : dir.WellFormed c) (hdir' : dir'.WellFormed c)
    (h : Represents c dir s) (h' : Represents c dir' t) :
    Represents c (dir.join dir') (s.join t) := by
  intro d l
  obtain ⟨set, hset, hwf⟩ := hdir.exists_set l
  obtain ⟨set', hset', hwf'⟩ := hdir'.exists_set l
  have hjoin : (dir.join dir')[c.setOf l]? = some (set.join set') :=
    List.getElem?_zipWith_eq_some.mpr ⟨set, set', hset, hset', rfl⟩
  rw [ageLine?_eq hjoin, hwf.age?_join hwf', State.get?_join, ← h d l, ← h' d l,
    ageLine?_eq hset, ageLine?_eq hset']

/-- In the set of the line, a fetch that may happen is a merge; the other sets are left alone. -/
theorem Represents.accessMaybe (hdir : dir.WellFormed c) (h : Represents c dir s)
    (address : Nat) : Represents c (dir.accessMaybe c address) (s.accessMaybe c address) := by
  have haccess := h.access hdir address
  intro d l
  obtain ⟨set, hset, hwf⟩ := hdir.exists_set l
  rw [Directory.accessMaybe, ageLine?_modify hset]
  by_cases heq : c.setOf (c.line address) = c.setOf l
  · have hafter : (dir.access c address).ageLine? c d l =
        ((set.access c (c.line address)).ways d).age? l := by
      rw [Directory.access, ageLine?_modify hset, Config.setOfAddress, if_pos heq]
    rw [Config.setOfAddress, if_pos heq, hwf.age?_join (hwf.access heq), State.accessMaybe_eq_join,
      State.get?_join, ← h d l, ← haccess d l, ageLine?_eq hset, hafter]
  · rw [Config.setOfAddress, if_neg heq, State.get?_accessMaybe_of_ne s d (Ne.symm heq), ← h d l,
      ageLine?_eq hset]

/-- What is known about a fetch is read off the ages. -/
theorem Represents.classify_eq (h : Represents c dir s) (address : Nat) :
    dir.classify c address = s.classify c address := by
  unfold classify age? State.classify State.classifyLine
  rw [h, h, h]
  rfl

/-- A line is in the way of its age. -/
theorem Represents.holds_iff (hdir : dir.WellFormed c) (h : Represents c dir s)
    (hset : dir[i]? = some set) {a : Nat} :
    (set.ways d).Holds a l ↔ c.setOf l = i ∧ (s.ages d).get? l = some a := by
  have hwf := hdir.sets i set hset
  rw [← h d l]
  constructor
  · intro ha
    obtain rfl := hwf.placed d a l ha
    rw [ageLine?_eq hset]
    exact ⟨rfl, (hwf.once d).age?_eq_some_iff.mpr ha⟩
  · rintro ⟨rfl, ha⟩
    rw [ageLine?_eq hset] at ha
    exact Ways.holds_of_age? ha

/-- A state is represented by one directory at most, so the two forms can be compared alike. -/
theorem Represents.eq_iff (hdir : dir.WellFormed c) (hdir' : dir'.WellFormed c)
    (h : Represents c dir s) (h' : Represents c dir' t) : dir = dir' ↔ s = t := by
  constructor
  · rintro rfl
    exact State.ext fun d l => (h d l).symm.trans (h' d l)
  · rintro rfl
    refine List.ext_getElem (hdir.length.trans hdir'.length.symm) fun i hi hi' => ?_
    have hset := List.getElem?_eq_getElem hi
    have hset' := List.getElem?_eq_getElem hi'
    have hways : ∀ d, dir[i].ways d = dir'[i].ways d := by
      intro d
      have hlen := ((hdir.sets i _ hset).length d).trans ((hdir'.sets i _ hset').length d).symm
      refine Ways.eq_of_holds_iff hlen fun a l => ?_
      rw [h.holds_iff hdir hset, h'.holds_iff hdir' hset']
    exact SetWays.ext_ways hways

/-! ### Directories that fetches and merges lead to -/

/-- Every directory that the operations lead to represents a state that they lead to. -/
theorem Reachable.exists_represented (h : Reachable c dir) :
    ∃ s, State.Reachable c s ∧ Represents c dir s := by
  induction h with
  | empty => exact ⟨_, .empty, represents_empty c⟩
  | access address hdir ih =>
    obtain ⟨s, hs, hrep⟩ := ih
    exact ⟨_, hs.access address, hrep.access hdir.wellFormed address⟩
  | accessMaybe address hdir ih =>
    obtain ⟨s, hs, hrep⟩ := ih
    exact ⟨_, hs.accessMaybe address, hrep.accessMaybe hdir.wellFormed address⟩
  | join hdir hdir' ih ih' =>
    obtain ⟨s, hs, hrep⟩ := ih
    obtain ⟨t, ht, hrep'⟩ := ih'
    exact ⟨_, hs.join ht, hrep.join hdir.wellFormed hdir'.wellFormed hrep'⟩

/-- The states that the operations lead to are those that directories represent. -/
theorem reachable_iff_represented :
    State.Reachable c s ↔ ∃ dir, Reachable c dir ∧ Represents c dir s := by
  constructor
  · intro h
    induction h with
    | empty => exact ⟨_, .empty, represents_empty c⟩
    | access address _ ih =>
      obtain ⟨dir, hdir, hrep⟩ := ih
      exact ⟨_, hdir.access address, hrep.access hdir.wellFormed address⟩
    | accessMaybe address _ ih =>
      obtain ⟨dir, hdir, hrep⟩ := ih
      exact ⟨_, hdir.accessMaybe address, hrep.accessMaybe hdir.wellFormed address⟩
    | join _ _ ih ih' =>
      obtain ⟨dir, hdir, hrep⟩ := ih
      obtain ⟨dir', hdir', hrep'⟩ := ih'
      exact ⟨_, hdir.join hdir', hrep.join hdir.wellFormed hdir'.wellFormed hrep'⟩
  · rintro ⟨dir, hdir, hrep⟩
    obtain ⟨t, ht, hrep'⟩ := hdir.exists_represented
    rwa [(hrep.eq_iff hdir.wellFormed hdir.wellFormed hrep').mp rfl]

/-! ### Domains that fit together -/

/-- The lines of the youngest ways are in the youngest places of the cache that a state covers. -/
theorem Reachable.length_take_must_le (h : Reachable c dir) (hset : dir[i]? = some set) (n : Nat) :
    ((set.must.take (n + 1)).flatMap (·.keys)).length ≤ n + 1 := by
  obtain ⟨s, hs, hrep⟩ := h.exists_represented
  obtain ⟨m, hm⟩ := hs.exists_covers
  have hwf := h.wellFormed.sets i set hset
  have hsub : (set.must.take (n + 1)).flatMap (·.keys) ⊆ (m.lines i).take (n + 1) := by
    intro l hl
    obtain ⟨a, ha, hhold⟩ := Ways.mem_take.mp hl
    obtain ⟨rfl, hage⟩ := (hrep.holds_iff (d := .must) h.wellFormed hset).mp hhold
    obtain ⟨j, hj, hat⟩ := hm.must hage
    refine List.mem_iff_getElem?.mpr ⟨j, ?_⟩
    rw [List.getElem?_take_of_lt (by omega)]
    exact hat
  calc ((set.must.take (n + 1)).flatMap (·.keys)).length
      ≤ ((m.lines i).take (n + 1)).length :=
        (List.subperm_of_subset ((hwf.once .must).nodup_take (n + 1)) hsub).length_le
    _ ≤ n + 1 := List.length_take_le _ _

end Directory

/-- The three domains of a set fit together. -/
structure SetWays.Consistent (c : Config) (i : Nat) (s : SetWays) : Prop
    extends s.WellFormed c i where
  /-- Lines that are cached may be cached, at most as old. -/
  may_le_must : ∀ l a, s.must.age? l = some a → ∃ b ≤ a, s.may.age? l = some b
  /-- Lines that may be cached have been loaded. -/
  persistence_of_may : ∀ l a, s.may.age? l = some a → ∃ b, s.persistence.age? l = some b
  /-- There are at most as many lines up to an age as there are positions. -/
  room : ∀ n, ((s.must.take (n + 1)).flatMap (·.keys)).length ≤ n + 1

namespace Directory

variable {c : Config} {dir : Directory}

/-- Whatever fetches and merges have led to a directory, it has all sets of the cache, in every set
and domain each line is in one way at most and only in its own set, and the domains of a set fit
together. -/
theorem reachable_consistent (h : Reachable c dir) :
    dir.length = c.sets ∧ ∀ (i : Nat) (set : SetWays), dir[i]? = some set → set.Consistent c i := by
  obtain ⟨s, hs, hrep⟩ := h.exists_represented
  refine ⟨h.wellFormed.length, fun i set hset => ?_⟩
  have hwf := h.wellFormed.sets i set hset
  have hage : ∀ d l a, (set.ways d).age? l = some a ↔ c.setOf l = i ∧ (s.ages d).get? l = some a :=
    fun d l a => (hwf.once d).age?_eq_some_iff.trans (hrep.holds_iff h.wellFormed hset)
  refine { hwf with may_le_must := ?_, persistence_of_may := ?_, room := ?_ }
  · intro l a ha
    obtain ⟨hl, hget⟩ := (hage .must l a).mp ha
    obtain ⟨b, hle, hb⟩ := hs.may_le_must hget
    exact ⟨b, hle, (hage .may l b).mpr ⟨hl, hb⟩⟩
  · intro l a ha
    obtain ⟨hl, hget⟩ := (hage .may l a).mp ha
    obtain ⟨b, hb⟩ := hs.persistence_of_may hget
    exact ⟨b, (hage .persistence l b).mpr ⟨hl, hb⟩⟩
  · exact h.length_take_must_le hset

/-- Lines 0 and 1 are fetched in either order, and then perhaps line 2. The ages that the must
domain has for lines 0 and 1 are two more than those of the may domain. -/
theorem reachable_consistent_crossed :
    let c : Config := ⟨0, 4, 4, 1, 10, by decide⟩
    let left := ((empty c).access c 0).access c 16
    let right := ((empty c).access c 16).access c 0
    let dir := (left.join right).accessMaybe c 32
    Reachable c dir ∧
      dir.map (fun s => (s.must.lines, s.may.lines)) =
        [([(2, 0), (2, 1)], [(0, 0), (0, 1), (0, 2)])] ∧
      ∀ (i : Nat) (set : SetWays), dir[i]? = some set → set.Consistent c i := by
  intro c left right dir
  have hdir : Reachable c dir :=
    .accessMaybe 32 (.join (.access 16 (.access 0 .empty)) (.access 0 (.access 16 .empty)))
  exact ⟨hdir, by decide, (reachable_consistent hdir).2⟩

end Directory

end CycleBounds.Cache
