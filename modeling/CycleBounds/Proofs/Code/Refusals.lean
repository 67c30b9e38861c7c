import CycleBounds.Proofs.Code.Passable

/-!
# Drafts that are not built

A draft that is not built is refused for a stated cause, with one exception: the check of how
control enters a loop looks at predecessors only, so that it misses an entry without an edge. Then
the header of a loop may not be the first of its blocks, which is taken for granted afterwards.

* `Draft.SideEntered`: control enters a loop elsewhere than at its header, and no edge shows it. The
  execution starts there, or it is where an outer loop goes on.
* `Draft.sideEntered_of_not_first`: where the header of a loop is not the first, that is the cause.
* `Draft.ensures_build`: building a draft ends with a procedure or a refusal if no loop is entered
  like that, and never with a procedure if one is.
-/

namespace CycleBounds

/-- Where a list is not mapped, there is a first entry that is not. -/
theorem mapM_eq_error {ε α β : Type} {f : α → Except ε β} {xs : List α} {cause : ε}
    (h : xs.mapM f = .error cause) : ∃ (i : Nat) (x : α), xs[i]? = some x ∧ f x = .error cause ∧
      ∀ (j : Nat) y, j < i → xs[j]? = some y → ∃ b, f y = .ok b := by
  induction xs with
  | nil => cases h
  | cons x xs ih =>
    rw [List.mapM_cons] at h
    cases hx : f x with
    | error e =>
      rw [hx] at h
      obtain rfl : e = cause := Except.error.inj h
      exact ⟨0, x, rfl, hx, nofun⟩
    | ok b =>
      rw [hx] at h
      cases hxs : xs.mapM f with
      | ok bs =>
        rw [hxs] at h
        cases h
      | error e =>
        rw [hxs] at h
        obtain rfl : e = cause := Except.error.inj h
        obtain ⟨i, y, hi, hy, hbefore⟩ := ih hxs
        refine ⟨i + 1, y, hi, hy, fun j z hj hz => ?_⟩
        cases j with
        | zero =>
          obtain rfl : x = z := Option.some.inj hz
          exact ⟨b, hx⟩
        | succ j => exact hbefore j z (Nat.lt_of_succ_lt_succ hj) hz

namespace Code.Draft

variable {d : Draft} {all : List Nat} {i : Nat} {l : LoopDraft}

/-- A loop is entered at another block than its header, though no edge into it shows that: at the
first block of all, or at the header of a loop around it that is declared before it. -/
def SideEntered (d : Draft) : Prop :=
  ∃ (i : Nat) (l : LoopDraft), d.loops[i]? = some l ∧ ∃ b ∈ l.blocks, b ≠ l.header ∧
    (b = 0 ∨ ∃ k < i, ∃ m, d.loops[k]? = some m ∧ b = m.header ∧ l.blocks ⊆ m.blocks)

/-! ### The first block of a loop -/

/-- A block that comes before all its predecessors is block 0. -/
theorem eq_zero_of_first (harranged : d.Arranged all)
    (hreach : ∀ b, 0 < b → b < d.blocks.length → d.preds b ≠ []) {xs : List Nat} {x : Nat}
    (hlt : x < d.blocks.length) (hfirst : ∀ y ∈ xs, all.idxOf x ≤ all.idxOf y)
    (hpreds : ∀ u ∈ d.preds x, u ∈ xs) : x = 0 := by
  by_contra hne
  obtain ⟨u, hu⟩ := List.exists_mem_of_ne_nil _ (hreach x (Nat.pos_of_ne_zero hne) hlt)
  have hbefore := harranged.idxOf_lt u x ((harranged.mem_iff x).mpr hlt) hu
  have hafter := hfirst u (hpreds u hu)
  omega

theorem mem_of_mem_order (hl : d.loops[i]? = some l) {x : Nat}
    (hx : x ∈ d.regionOrder all (some i)) : x ∈ l.blocks := by
  rw [regionOrder, List.mem_filter, ranks, nest_getElem?, hl] at hx
  simp only [Option.map_some, Option.getD_some, List.contains_iff_mem, decide_eq_true_iff] at hx
  exact hx.2.1

/-- The first block of a region is the one that comes first among all blocks. -/
theorem head?_regionOrder (harranged : d.Arranged all) (hl : d.loops[i]? = some l) {x : Nat}
    (hlt : x < d.blocks.length) (hx : x ∈ l.blocks) (hinn : d.nest.innermost x = some i)
    (hfirst : ∀ y ∈ l.blocks, all.idxOf x ≤ all.idxOf y) :
    (d.regionOrder all (some i)).head? = some x := by
  have hmem : x ∈ d.regionOrder all (some i) := by
    rw [regionOrder, List.mem_filter, harranged.mem_iff, ranks, nest_getElem?, hl]
    simp [ranksIn, hlt, hx, Nest.deepest_levels, hinn]
  have hpairwise : (d.regionOrder all (some i)).Pairwise _ := harranged.pairwise.filter _
  cases ho : d.regionOrder all (some i) with
  | nil =>
    rw [ho] at hmem
    cases hmem
  | cons y ys =>
    have hy : y ∈ l.blocks := by
      apply mem_of_mem_order hl
      rw [ho]
      exact List.mem_cons_self
    rw [ho] at hmem hpairwise
    rcases List.mem_cons.mp hmem with rfl | hlater
    · rfl
    · -- nothing of the loop comes before `x`
      have hle := hfirst y hy
      have hgt := (List.pairwise_cons.mp hpairwise).1 x hlater
      omega

/-- Where the header of a loop is not the first of its order, though no edge enters this loop or one
before it at the side, a loop is entered there without an edge. -/
theorem sideEntered_of_not_first (harranged : d.Arranged all)
    (hreach : ∀ b, 0 < b → b < d.blocks.length → d.preds b ≠ [])
    (hloops : d.checkLoops = .ok ()) (hproper : d.nest.Proper) (hl : d.loops[i]? = some l)
    (hentered : ∀ (j : Nat) m, j ≤ i → d.loops[j]? = some m → ∀ b ∈ m.blocks, b ≠ m.header →
      ∀ u ∈ d.preds b, u ∈ m.blocks)
    (hfirst : (d.regionOrder all (some i)).head? ≠ some l.header) : d.SideEntered := by
  have hlt := (of_checkLoops hloops hl).1
  obtain ⟨x, hx, hmin⟩ := exists_first all (header_mem_blocks l)
  by_cases hheader : x = l.header
  · subst hheader
    -- the header comes first, so it belongs to an inner loop
    cases hinn : d.nest.innermost l.header with
    | none => exact absurd hinn (innermost_ne_none hl hx)
    | some j =>
      obtain ⟨m, hm, hmem, hsmall⟩ := Checked.innermost_spec hproper hinn
      have hij : j ≠ i := by
        rintro rfl
        exact hfirst (head?_regionOrder harranged hl (hlt _ hx) hx hinn hmin)
      have hwithin := Nest.strictlyWithin_iff.mp (hproper.strictlyWithin hij (nest_of_loop hm)
        (nest_of_loop hl) hmem hx (hsmall i l hl hx))
      have hne : l.header ≠ m.header :=
        fun heq => hij (headers_of_checkLoops hloops hm hl heq.symm)
      refine ⟨j, m, hm, l.header, hmem, hne, ?_⟩
      -- only loops up to this one are known to be entered at their headers
      rcases Nat.lt_or_ge i j with hlater | hearlier
      · exact .inr ⟨i, hlater, l, hl, rfl, hwithin.2⟩
      · refine .inl (eq_zero_of_first harranged hreach (hlt _ hx) hmin fun u hu => ?_)
        exact hwithin.2 u (hentered j m hearlier hm l.header hmem hne u hu)
  · -- all predecessors of the first block lie in the loop, so there are none
    refine ⟨i, l, hl, x, hx, hheader, .inl ?_⟩
    exact eq_zero_of_first harranged hreach (hlt x hx) hmin
      fun u hu => hentered i l (Nat.le_refl i) hl x hx hheader u hu

/-! ### Building -/

/-- What keeps a loop from being built: it is entered at the side, it repeats from another loop, or
its header does not come first. -/
theorem of_buildLoop_error {cause : Failure ProgramError} (hl : d.loops[i]? = some l)
    (h : d.buildLoop d.nest d.nest.levels all l i = .error cause) :
    (∃ b ∈ l.blocks, cause = .error (.loopEntry d.id i b) ∧ b ≠ l.header ∧
      ∃ u ∈ d.preds b, u ∉ l.blocks) ∨
    (cause = .error (.nestedSink d.id i) ∧ d.nest.innermost l.sink ≠ some i) ∨
    cause = .fault (.defect .headerNotFirst) ∧
      (∀ b ∈ l.blocks, b ≠ l.header → ∀ u ∈ d.preds b, u ∈ l.blocks) ∧
      (d.regionOrder all (some i)).head? ≠ some l.header := by
  simp only [buildLoop, filter_eq_regionOrder hl] at h
  -- the three tests of a loop, in order
  split at h
  · rename_i b hf
    have hout := List.find?_some hf
    rw [decide_eq_true_iff] at hout
    simp only [Nest.within, List.all_eq_true, List.contains_iff_mem, not_forall] at hout
    obtain ⟨hne, u, hu, hout⟩ := hout
    exact .inl ⟨b, List.mem_of_find?_eq_some hf, (Except.error.inj h).symm, hne, u, hu, hout⟩
  · rename_i hf
    split at h
    · rename_i hsink
      exact .inr (.inl ⟨(Except.error.inj h).symm, hsink⟩)
    · by_cases hfirst : (d.regionOrder all (some i)).head? = some l.header
      · rw [hfirst, decide_eq_true rfl] at h
        cases h
      · rw [decide_eq_false hfirst] at h
        refine .inr (.inr ⟨(Except.error.inj h).symm, fun b hb hne u hu => ?_, hfirst⟩)
        have hin := List.find?_eq_none.mp hf b hb
        rw [decide_eq_true_iff, not_and, not_not] at hin
        exact Nest.mem_of_within (hin hne) hu

/-- No loop of a checked draft is entered at its side. -/
theorem Checked.not_sideEntered (hc : d.Checked all) : ¬ d.SideEntered := by
  rintro ⟨i, l, hl, b, hb, hne, hentry⟩
  have hlt := hc.blocks_lt i l hl
  have hheader := hc.idxOf_header_le hl hb
  apply hne
  apply hc.idxOf_inj (hlt b hb)
  apply Nat.le_antisymm _ hheader
  rcases hentry with rfl | ⟨k, -, m, hm, rfl, hsub⟩
  · exact hc.idxOf_zero_le (hlt _ (header_mem_blocks l))
  · exact hc.idxOf_header_le hm (hsub (header_mem_blocks l))

/-- Why building a draft may stop: the draft is refused, or a loop is entered at its side. -/
def Stops (d : Draft) (cause : Failure ProgramError) : Prop :=
  (∃ e, cause = .error e) ∨ cause = .fault (.defect .headerNotFirst) ∧ d.SideEntered

theorem ensures_check {α : Type} (x : Except ProgramError α) :
    Ensures d.Stops (liftM x : Except (Failure ProgramError) α) fun a => x = .ok a := by
  cases x with
  | ok a => rfl
  | error e => exact .inl ⟨e, rfl⟩

/-- Loops fail to be built with a refusal, or because one is entered at its side. -/
theorem ensures_buildLoops (harranged : d.Arranged all) (hreach : d.checkReachable = .ok ())
    (hloops : d.checkLoops = .ok ()) (hproper : d.nest.Proper) :
    Ensures d.Stops (d.loops.zipIdx.mapM fun (l, i) => d.buildLoop d.nest d.nest.levels all l i)
      fun _ => True := by
  have entry : ∀ {i : Nat} {e : LoopDraft × Nat}, d.loops.zipIdx[i]? = some e →
      d.loops[i]? = some e.1 ∧ e.2 = i := by
    intro i e he
    rw [List.getElem?_zipIdx, Option.map_eq_some_iff] at he
    obtain ⟨l, hl, rfl⟩ := he
    exact ⟨hl, Nat.zero_add i⟩
  cases hmap : d.loops.zipIdx.mapM fun (l, i) => d.buildLoop d.nest d.nest.levels all l i with
  | ok loops => trivial
  | error cause =>
    obtain ⟨i, ⟨l, k⟩, he, hfail, hbefore⟩ := mapM_eq_error hmap
    obtain ⟨hl, rfl⟩ := entry he
    rcases of_buildLoop_error hl hfail with ⟨b, -, hrefused, -⟩ | ⟨hrefused, -⟩ |
      ⟨rfl, hentered, hfirst⟩
    · exact .inl ⟨_, hrefused⟩
    · exact .inl ⟨_, hrefused⟩
    · refine .inr ⟨rfl, sideEntered_of_not_first harranged
        (fun b => preds_ne_nil_of_checkReachable hreach) hloops hproper hl ?_ hfirst⟩
      intro j m hj hm
      rcases Nat.lt_or_eq_of_le hj with hlt | rfl
      · -- the loops before this one are built, so no edge enters them at the side
        have hzip : d.loops.zipIdx[j]? = some (m, j) := by simp [List.getElem?_zipIdx, hm]
        obtain ⟨loop, hbuilt⟩ := hbefore j (m, j) hlt hzip
        exact (of_buildLoop hproper hm hbuilt).1
      · obtain rfl := Option.some.inj (hl.symm.trans hm)
        exact hentered

/-- Building a draft stops with a refusal, or at a loop that is entered at its side. -/
theorem ensures_stops (d : Draft) : Ensures d.Stops d.build fun _ => True := by
  simp only [build]
  split
  · exact .inl ⟨_, rfl⟩
  refine (ensures_check _).bind fun _ _ _ => ?_
  refine (ensures_check _).bind fun _ _ hreach => ?_
  refine (ensures_check _).bind fun all _ hall => ?_
  refine (ensures_check _).bind fun _ _ hloops => ?_
  refine (ensures_check _).bind fun _ _ hnest => ?_
  refine (ensures_buildLoops (arranged_of_topological hall) hreach hloops
    (proper_of_checkNesting hnest)).bind fun loops _ _ => ?_
  split
  · exact .inl ⟨_, rfl⟩
  · trivial

/-- Building a draft ends with a procedure or a refusal, unless a loop is entered at its side: then
it may end with the broken assumption that headers come first, and it yields no procedure. The loops
that are looked up on the way exist, and the loops around a loop are larger than it. -/
theorem ensures_build (d : Draft) :
    Ensures (fun cause => (∃ e, cause = .error e) ∨
        cause = .fault (.defect .headerNotFirst) ∧ d.SideEntered) d.build
      (fun _ => ¬ d.SideEntered) ∧
    (∀ b i, d.headerOf b = some i ∨ d.nest.innermost b = some i → i < d.loops.length) ∧
    ∀ l ∈ d.loops, ∀ i, d.nest.parent l.blocks = some i →
      ∃ m, d.loops[i]? = some m ∧ l.blocks.length < m.blocks.length := by
  refine ⟨(ensures_stops d).imp fun p hp _ => ?_, ?_, ?_⟩
  · obtain ⟨all, hb⟩ := build_eq_ok hp
    exact hb.not_sideEntered
  · rintro b i (hheader | hinn)
    · exact (List.findIdx?_eq_some_iff_getElem.mp hheader).1
    · obtain ⟨xs, hxs, -⟩ := Nest.innermost_eq_some hinn
      obtain ⟨l, hl, -⟩ := nest_eq_some.mp hxs
      exact (List.getElem?_eq_some_iff.mp hl).1
  · intro l _ i hparent
    obtain ⟨ys, hys, hwithin, -⟩ := Nest.smallest_eq_some hparent
    rw [nest_getElem?] at hys
    obtain ⟨m, hm, rfl⟩ := Option.map_eq_some_iff.mp hys
    exact ⟨m, hm, (Nest.strictlyWithin_iff.mp hwithin).1⟩

/-- Two blocks in one loop, the second of which is its header. -/
def backEntered : Draft where
  id := 0
  name := "p"
  blocks := [[], []]
  edges := [(0, 1)]
  loops := [⟨1, 1, [0], 1, true⟩]

/-- A loop that the execution starts in is neither built nor refused. -/
theorem build_backEntered : backEntered.build = .error (.fault (.defect .headerNotFirst)) := rfl

end Code.Draft

end CycleBounds
