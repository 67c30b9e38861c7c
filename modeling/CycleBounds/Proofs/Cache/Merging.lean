import CycleBounds.Proofs.Cache.Costs
import Mathlib.Data.List.Induction

/-!
# Merged records

A block that is recorded several times in one context keeps the join of all records. The fetches
that are stored are the strongest ones that cover all recorded lists (`LeastCover`), so they depend
neither on the order of the lists nor on how often each of them is recorded, and their costs
enclose those of every list.
-/

namespace CycleBounds.Cache

variable {c : Config} {context : Context} {fs gs hs : List Fetch}

/-! ### Joined fetches -/

/-- The fetches of one block with the classes that cover those of both lists. -/
def joined (fs gs : List Fetch) : List Fetch :=
  List.zipWith (fun f g => { f with access := f.access.join g.access }) fs gs

/-- Both lists are weakened to the joined one, which has the same outline. -/
theorem weaker_joined (h : outline fs = outline gs) :
    Weaker fs (joined fs gs) ∧ Weaker gs (joined fs gs) ∧ outline (joined fs gs) = outline gs := by
  induction fs generalizing gs with
  | nil =>
    obtain rfl : gs = [] := List.map_eq_nil_iff.mp h.symm
    exact ⟨.nil, .nil, rfl⟩
  | cons f fs ih =>
    cases gs with
    | nil => cases h
    | cons g gs =>
      obtain ⟨hline, hupper, hrest⟩ := outline_cons_eq h
      obtain ⟨hleft, hright, houtline⟩ := ih hrest
      refine ⟨.cons ⟨rfl, Access.weakens_join_left _ _⟩ hleft,
        .cons ⟨hline.symm, Access.weakens_join_right _ _⟩ hright, ?_⟩
      -- both fetches are served above or neither is, so the join is as both are
      have hjoin : f.access.join g.access = .hitUpper ↔ g.access = .hitUpper := by
        rw [Access.join_eq_hitUpper, hupper, and_self_iff]
      exact List.cons_eq_cons.mpr ⟨Prod.ext hline (decide_eq_decide.mpr hjoin), houtline⟩

/-- Joined fetches are no weaker than any list that is weaker than both. -/
theorem joined_weaker (hf : Weaker fs hs) (hg : Weaker gs hs) : Weaker (joined fs gs) hs := by
  induction hf generalizing gs with
  | nil =>
    cases hg
    exact .nil
  | cons hfirst _ ih =>
    cases hg with
    | cons hsecond hrest =>
      exact .cons ⟨hfirst.line, hfirst.access.join_weakens hsecond.access⟩ (ih hrest)

/-! ### Covers -/

/-- The strongest list of fetches that covers all lists of a collection. -/
structure LeastCover (lists : List Fetch → Prop) (fs : List Fetch) : Prop where
  covers : ∀ l, lists l → Weaker l fs
  least : ∀ gs, (∀ l, lists l → Weaker l gs) → Weaker fs gs

namespace LeastCover

variable {lists : List Fetch → Prop} {l : List Fetch}

/-- Lists have one strongest cover at most. -/
theorem unique (h : LeastCover lists fs) (h' : LeastCover lists gs) : fs = gs :=
  (h.least gs h'.covers).antisymm (h'.least fs h.covers)

theorem single (h : ∀ l', lists l' ↔ l' = l) : LeastCover lists l where
  covers := by
    intro l' hl'
    rw [(h l').mp hl']
    exact .refl l
  least _ hgs := hgs l ((h l).mpr rfl)

/-- One more list keeps the join of all lists the strongest cover. -/
theorem add (h : LeastCover lists fs) (houtline : outline fs = outline l) :
    LeastCover (fun l' => lists l' ∨ l' = l) (joined fs l) where
  covers := by
    obtain ⟨hleft, hright, -⟩ := weaker_joined houtline
    rintro l' (hl' | rfl)
    · exact (h.covers l' hl').trans hleft
    · exact hright
  least gs hgs :=
    joined_weaker (h.least gs fun l' hl' => hgs l' (.inl hl')) (hgs l (.inr rfl))

end LeastCover

/-! ### Stored records -/

/-- What is stored of a place at which some lists have been recorded. -/
inductive Stored (c : Config) (context : Context) (lists : List Fetch → Prop) :
    Option Record → Prop
  | none : (∀ l, ¬ lists l) → Stored c context lists none
  | some {fs l : List Fetch} : LeastCover lists fs → Record.Fits c context fs → lists l →
      outline fs = outline l → Stored c context lists (some (.counted c context fs))

namespace Stored

variable {lists : List Fetch → Prop} {o o' : Option Record} {l : List Fetch}

/-- What is stored of a place depends only on which lists have been recorded there. -/
theorem unique (h : Stored c context lists o) (h' : Stored c context lists o') : o = o' := by
  cases h with
  | none hnone =>
    cases h' with
    | none => rfl
    | some _ _ hl => exact absurd hl (hnone _)
  | some hleast _ hl =>
    cases h' with
    | none hnone => exact absurd hl (hnone _)
    | some hleast' => rw [hleast.unique hleast']

theorem of_iff {lists' : List Fetch → Prop} (h : Stored c context lists o)
    (hiff : ∀ l, lists l ↔ lists' l) : Stored c context lists' o := by
  obtain rfl : lists = lists' := funext fun l => propext (hiff l)
  exact h

end Stored

namespace Classification

variable {k k' : Classification} {place : Place} {l : List Fetch} {lists : List Fetch → Prop}

theorem join_counted {fs : List Fetch} (houtline : outline fs = outline l) :
    (Record.counted c context fs).join c context (.counted c context l) =
      Record.ofFetches c context (joined fs l) := by
  have hlen : assume (fs.length = l.length) .differentBlocks = .ok () :=
    assume_eq_ok.mpr (decide_eq_true (length_eq_of_outline houtline))
  show (assume (fs.length = l.length) .differentBlocks >>= fun _ => _) = _
  rw [hlen]
  rfl

/-- Recording one more list at a place: it is merged with those recorded before, and the costs of
the merged list have to be in range. -/
theorem record_merges (hstored : Stored k.config place.context lists (k.get? place))
    (halike : ∀ l', lists l' → outline l' = outline l) :
    ∃ fs, LeastCover (fun l' => lists l' ∨ l' = l) fs ∧ outline fs = outline l ∧
      k.record place l = (do
        let r ← Record.ofFetches k.config place.context fs
        return ⟨k.config, k.records.insert place r⟩) := by
  unfold record
  -- recording looks up the place once
  generalize k.get? place = o at hstored
  cases hstored with
  | none hnone =>
    refine ⟨l, .single fun l' => or_iff_right (hnone l'), rfl, ?_⟩
    rfl
  | @some fs l' hleast _ hl' houtline =>
    have houtline : outline fs = outline l := houtline.trans (halike l' hl')
    obtain ⟨-, hright, hjoined⟩ := weaker_joined houtline
    refine ⟨joined fs l, hleast.add houtline, hjoined, ?_⟩
    by_cases hfits : Record.Fits k.config place.context l
    · rw [Record.ofFetches_eq_ok_iff.mpr ⟨hfits, rfl⟩]
      show (Record.join _ _ _ _ >>= fun r => _) = _
      rw [join_counted houtline]
    · -- without a record of its own, the list has none when it is merged
      have hmerged : ¬ Record.Fits k.config place.context (joined fs l) :=
        fun h => hfits (h.of_weaker hright)
      rw [Record.ofFetches_overflow hfits, Record.ofFetches_overflow hmerged]
      rfl

def recordAll (k : Classification) (calls : List (Place × List Fetch)) :
    Except Fault Classification :=
  calls.foldlM (fun k call => k.record call.1 call.2) k

theorem recordAll_concat (k : Classification) (calls : List (Place × List Fetch))
    (call : Place × List Fetch) :
    k.recordAll (calls ++ [call]) = k.recordAll calls >>= fun k' => k'.record call.1 call.2 := by
  simp [recordAll, List.foldlM_append]

/-- The lists that are recorded at a place have one outline. -/
def AlikeAt (calls : List (Place × List Fetch)) (place : Place) : Prop :=
  ∀ l l', (place, l) ∈ calls → (place, l') ∈ calls → outline l = outline l'

variable {calls calls' : List (Place × List Fetch)}

theorem config_of_recordAll (hk : k.recordAll calls = .ok k') : k'.config = k.config := by
  refine foldlM_rel (R := fun (k k' : Classification) => k'.config = k.config) (fun _ => rfl)
    (fun h h' => h'.trans h) (fun call _ {k k'} hrecord => ?_) hk
  obtain ⟨fresh, stored, -, rfl, -⟩ := record_cases hrecord
  rfl

/-- Recording lists one after the other stores the strongest list that covers them. -/
theorem recordAll_stored (halike : AlikeAt calls place)
    (h : (empty c).recordAll calls = .ok k) :
    Stored c place.context (fun l => (place, l) ∈ calls) (k.get? place) := by
  -- the last list that is recorded meets the record of all the others
  induction calls using List.reverseRecOn generalizing k with
  | nil =>
    obtain rfl := pure_eq_ok.mp h
    exact .none fun l => List.not_mem_nil
  | append_singleton calls call ih =>
    rw [recordAll_concat] at h
    obtain ⟨k₀, hk₀, hrecord⟩ := bind_eq_ok.mp h
    obtain rfl : k₀.config = c := config_of_recordAll hk₀
    have hstored := ih (fun l l' hl hl' =>
      halike l l' (List.mem_append_left _ hl) (List.mem_append_left _ hl')) hk₀
    obtain ⟨q, l⟩ := call
    by_cases hq : q = place
    · obtain rfl := hq
      obtain ⟨fs, hleast, houtline, heq⟩ := record_merges hstored fun l' hl' =>
        halike l' l (List.mem_append_left _ hl') (List.mem_append_right _ (.head _))
      rw [hrecord] at heq
      obtain ⟨r, hr, heq⟩ := bind_eq_ok.mp heq.symm
      obtain rfl := pure_eq_ok.mp heq
      obtain ⟨hfits, rfl⟩ := Record.ofFetches_eq_ok_iff.mp hr
      rw [get?, Table.get?_insert_self]
      refine .of_iff (.some hleast hfits (.inr rfl) houtline) fun l' => ?_
      simp
    · obtain ⟨fresh, stored, -, rfl, -⟩ := record_cases hrecord
      rw [get?, Table.get?_insert_of_ne _ (Ne.symm hq)]
      refine hstored.of_iff fun l' => ?_
      simp [Ne.symm hq]

/-- Some of the lists recorded at a place have costs out of range when they are merged. -/
structure Excess (c : Config) (calls : List (Place × List Fetch)) (place : Place)
    (lists : List Fetch → Prop) (fs l : List Fetch) : Prop where
  recorded : ∀ l', lists l' → (place, l') ∈ calls
  merged : LeastCover lists fs
  like : lists l ∧ outline fs = outline l
  unfit : ¬ Record.Fits c place.context fs

/-- Recording stops only for merged lists with costs out of range. -/
theorem ensures_recordAll (halike : ∀ place, AlikeAt calls place) :
    Ensures (fun cause => cause = .overflow ∧ ∃ place lists fs l, Excess c calls place lists fs l)
      ((empty c).recordAll calls) fun _ => True := by
  induction calls using List.reverseRecOn with
  | nil => trivial
  | append_singleton calls call ih =>
    rw [recordAll_concat]
    have hbefore : ∀ place, AlikeAt calls place := fun place l l' hl hl' =>
      halike place l l' (List.mem_append_left _ hl) (List.mem_append_left _ hl')
    refine ((ih hbefore).allow ?_).bind fun k hk _ => ?_
    · rintro cause ⟨rfl, place, lists, fs, l, h⟩
      exact ⟨rfl, place, lists, fs, l,
        { h with recorded := fun l' hl' => List.mem_append_left _ (h.recorded l' hl') }⟩
    · obtain ⟨place, l⟩ := call
      obtain rfl : k.config = c := config_of_recordAll hk
      have hstored := recordAll_stored (hbefore place) hk
      have hlast : (place, l) ∈ calls ++ [(place, l)] := List.mem_append_right _ (.head _)
      obtain ⟨fs, hleast, houtline, heq⟩ := record_merges hstored fun l' hl' =>
        halike place l' l (List.mem_append_left _ hl') hlast
      show Ensures _ (k.record place l) _
      rw [heq]
      by_cases hfits : Record.Fits k.config place.context fs
      · rw [Record.ofFetches_eq_ok_iff.mpr ⟨hfits, rfl⟩]
        trivial
      · rw [Record.ofFetches_overflow hfits]
        refine ⟨rfl, place, _, fs, l, ?_, hleast, ⟨.inr rfl, houtline⟩, hfits⟩
        rintro l' (hl' | rfl)
        · exact List.mem_append_left _ hl'
        · exact hlast

theorem Excess.long {lists : List Fetch → Prop} {fs : List Fetch}
    (h : Excess c calls place lists fs l) :
    ∃ call ∈ calls, Word.limit ≤ call.2.length * max c.hitLatency c.missLatency := by
  obtain ⟨hl, houtline⟩ := h.like
  refine ⟨(place, l), h.recorded l hl, Nat.le_of_not_lt fun hlt => h.unfit ?_⟩
  rw [← length_eq_of_outline houtline] at hlt
  exact Record.fits_of_short hlt

/-- What is merged is covered by the record that is stored in the end, so it is in range. -/
theorem Excess.not_ok {lists : List Fetch → Prop} {fs : List Fetch}
    (h : Excess c calls' place lists fs l) (halike : AlikeAt calls place)
    (hmem : ∀ call, call ∈ calls' → call ∈ calls) : (empty c).recordAll calls ≠ .ok k := by
  intro hk
  have hstored := recordAll_stored halike hk
  generalize k.get? place = o at hstored
  cases hstored with
  | none hnone => exact hnone l (hmem _ (h.recorded l h.like.1))
  | some hleast hfits =>
    refine h.unfit (hfits.of_weaker (h.merged.least _ fun l' hl' => ?_))
    exact hleast.covers l' (hmem _ (h.recorded l' hl'))

/-- What is stored of a place is determined by the lists that are recorded there. -/
theorem get?_eq_of_recordAll (halike : AlikeAt calls place)
    (hmem : ∀ l, (place, l) ∈ calls' ↔ (place, l) ∈ calls)
    (hk : (empty c).recordAll calls = .ok k) (hk' : (empty c).recordAll calls' = .ok k') :
    k'.get? place = k.get? place := by
  have halike' : AlikeAt calls' place := fun l l' hl hl' =>
    halike l l' ((hmem l).mp hl) ((hmem l').mp hl')
  have hstored := recordAll_stored halike hk
  have hstored' := recordAll_stored halike' hk'
  exact (hstored'.of_iff hmem).unique hstored

/-- Only the lists that are recorded matter, not their order and repetition. -/
theorem recordAll_congr (halike : ∀ place, AlikeAt calls place)
    (hmem : ∀ call, call ∈ calls' ↔ call ∈ calls) :
    (empty c).recordAll calls' = (empty c).recordAll calls := by
  have halike' : ∀ place, AlikeAt calls' place := fun place l l' hl hl' =>
    halike place l l' ((hmem _).mp hl) ((hmem _).mp hl')
  have hend := ensures_recordAll (c := c) halike
  have hend' := ensures_recordAll (c := c) halike'
  -- either end of one recording excludes the other end for its rearrangement
  cases hk : (empty c).recordAll calls with
  | ok k =>
    cases hk' : (empty c).recordAll calls' with
    | error cause =>
      rw [hk'] at hend'
      obtain ⟨-, place, lists, fs, l, hexcess⟩ := hend'
      exact absurd hk (hexcess.not_ok (halike place) fun call => (hmem call).mp)
    | ok k' =>
      have hconfig := (config_of_recordAll hk').trans (config_of_recordAll hk).symm
      rw [eq_of_get? hconfig fun place =>
        get?_eq_of_recordAll (halike place) (fun l => hmem (place, l)) hk hk']
  | error cause =>
    rw [hk] at hend
    obtain ⟨rfl, place, lists, fs, l, hexcess⟩ := hend
    cases hk' : (empty c).recordAll calls' with
    | ok k' => exact absurd hk' (hexcess.not_ok (halike' place) fun call => (hmem call).mpr)
    | error cause' =>
      rw [hk'] at hend'
      rw [hend'.1]

/-- However often and in whatever order lists of fetches with one outline are recorded at every
place, the result is the same. What is stored of a place is the record of the strongest fetches
that cover its lists, and its costs enclose those of every list. -/
theorem merging_conservative (halike : ∀ place, AlikeAt calls place) :
    (∀ calls', (∀ call, call ∈ calls' ↔ call ∈ calls) →
      (empty c).recordAll calls' = (empty c).recordAll calls) ∧
    Ensures (fun cause => cause = .overflow ∧
        ∃ call ∈ calls, Word.limit ≤ call.2.length * max c.hitLatency c.missLatency)
      ((empty c).recordAll calls) fun k => ∀ place l, (place, l) ∈ calls →
        ∃ r, k.get? place = some r ∧
          (∀ calls' k', (∀ l', (place, l') ∈ calls' ↔ (place, l') ∈ calls) →
            (empty c).recordAll calls' = .ok k' → k'.get? place = some r) ∧
          LeastCover (fun l' => (place, l') ∈ calls) r.fetches ∧
          r.hits + r.misses + r.unknowns = r.fetches.length ∧
          Record.ofFetches c place.context r.fetches = .ok r ∧
          ∃ s, Record.ofFetches c place.context l = .ok s ∧
            (c.hitLatency ≤ c.missLatency → r.bcost ≤ s.bcost ∧ s.wcost ≤ r.wcost) := by
  refine ⟨fun calls' hmem => recordAll_congr halike hmem, ?_⟩
  refine ((ensures_recordAll halike).allow ?_).imp ?_
  · rintro cause ⟨rfl, place, lists, fs, l, hexcess⟩
    exact ⟨rfl, hexcess.long⟩
  · intro k hk _ place l hl
    have hsame : ∀ calls' k', (∀ l', (place, l') ∈ calls' ↔ (place, l') ∈ calls) →
        (empty c).recordAll calls' = .ok k' → k'.get? place = k.get? place :=
      fun _ _ hmem hk' => get?_eq_of_recordAll (halike place) hmem hk hk'
    have hstored := recordAll_stored (halike place) hk
    generalize k.get? place = o at hstored hsame
    cases hstored with
    | none hnone => exact absurd hl (hnone l)
    | @some fs l₀ hleast hfits hl₀ houtline =>
      have hcovers : Weaker l fs := hleast.covers l hl
      have hlike : outline l = outline fs := (halike place l l₀ hl hl₀).trans houtline.symm
      exact ⟨_, rfl, hsame, hleast, Record.counts_sum _ _ _,
        Record.ofFetches_eq_ok_iff.mpr ⟨hfits, rfl⟩, _,
        Record.ofFetches_eq_ok_iff.mpr ⟨hfits.of_weaker hcovers, rfl⟩,
        fun hle => ⟨Record.cost_best_le hcovers hlike hle, Record.cost_worst_le hcovers hle⟩⟩

def visits : List (Place × List Fetch) :=
  [(⟨0, 1, Context.root.nest .steady⟩, [⟨4, .hitUpper⟩, ⟨5, .alwaysHit 0⟩, ⟨6, .alwaysMiss⟩]),
    (⟨0, 1, Context.root.nest .steady⟩, [⟨4, .hitUpper⟩, ⟨5, .firstMiss⟩, ⟨6, .alwaysHit 1⟩])]

theorem merging_conservative_visits :
    let c : Config := ⟨1, 2, 4, 5, 50, Nat.two_pos⟩
    let place : Place := ⟨0, 1, Context.root.nest .steady⟩
    (∀ place, AlikeAt visits place) ∧
    (empty c).recordAll (visits.reverse ++ visits) = (empty c).recordAll visits ∧
    ∃ k r, (empty c).recordAll visits = .ok k ∧ k.get? place = some r ∧
      ∀ visit ∈ visits, ∃ s, Record.ofFetches c place.context visit.2 = .ok s ∧
        r.bcost ≤ s.bcost ∧ s.wcost ≤ r.wcost := by
  intro c place
  have halike : ∀ place, AlikeAt visits place := by
    intro place l l' hl hl'
    simp only [visits, List.mem_cons, Prod.mk.injEq, List.not_mem_nil, or_false] at hl hl'
    rcases hl with ⟨-, rfl⟩ | ⟨-, rfl⟩ <;> rcases hl' with ⟨-, rfl⟩ | ⟨-, rfl⟩ <;> rfl
  obtain ⟨hsame, hstored⟩ := merging_conservative (c := c) halike
  obtain ⟨k, hk, hstored⟩ := hstored.exists_ok (by
    rintro cause ⟨-, hlong⟩
    revert hlong
    decide)
  have hplace : ∀ visit ∈ visits, (place, visit.2) ∈ visits := by decide
  obtain ⟨r, hr, -⟩ := hstored place _ (hplace _ List.mem_cons_self)
  refine ⟨halike, hsame _ (by simp), k, r, hk, hr, fun visit hvisit => ?_⟩
  obtain ⟨r', hr', -, -, -, -, s, hs, hcosts⟩ := hstored place visit.2 (hplace visit hvisit)
  obtain rfl := Option.some.inj (hr.symm.trans hr')
  exact ⟨s, hs, hcosts (by decide)⟩

end Classification

end CycleBounds.Cache
