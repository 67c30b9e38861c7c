import CycleBounds.Proofs.Code.Causes

/-!
# Which drafts are accepted

`Draft.WellFormed` says what a draft has to be like to become a procedure, in terms of its edges and
of the blocks that its loops have. `Draft.build` accepts exactly such drafts, provided that no loop
has block 0 elsewhere than as its header: execution starts there, which is not seen from the edges.

* `Draft.wellFormed_of_accepted`: accepted drafts are well-formed.
* `Draft.WellFormed.not_blames`: there is nothing to refuse about a well-formed draft.
* `Draft.WellFormed.idxOf_header_le`: whatever order its blocks are put in, the header of a loop is
  the first of its blocks. So no loop is entered at its side.
* `Draft.build_ok_iff` puts these together.
-/

namespace CycleBounds.Code.Draft

variable {d : Draft} {all : List Nat}

/-- Edges lead to all blocks but the first and form no cycle. Loops consist of existing blocks, have
headers of their own and nest properly. Edges enter them at their headers only, and they repeat from
a sink that lies in no loop inside. -/
structure WellFormed (d : Draft) : Prop extends d.Connected where
  not_edge_zero : ∀ u, ¬ d.Edge u 0
  acyclic : ∀ b, ¬ d.OnCycle b
  has_lt : ∀ l ∈ d.loops, ∀ b, l.Has b → b < d.blocks.length
  headers : ∀ {i j : Nat} {l m}, d.loops[i]? = some l → d.loops[j]? = some m →
    l.header = m.header → i = j
  nested : ∀ {i j : Nat} {l m}, d.loops[i]? = some l → d.loops[j]? = some m → i ≠ j →
    l.Apart m ∨ l.StrictlyIn m ∨ m.StrictlyIn l
  entered_at_header : ∀ l ∈ d.loops, ∀ b, l.Has b → b ≠ l.header → ∀ u, d.Edge u b → l.Has u
  /-- The loop is the smallest one that has its sink. -/
  sink_innermost : ∀ {i j : Nat} {l m}, d.loops[i]? = some l → d.loops[j]? = some m →
    m.Has l.sink → j = i ∨ l.StrictlyIn m

/-! ### Accepted drafts -/

/-- Accepted drafts are well-formed. -/
theorem wellFormed_of_accepted {p : Procedure} (h : d.build = .ok p) : d.WellFormed := by
  obtain ⟨all, htop, hb, -⟩ := build_arranged h
  have hacyclic := not_onCycle_of_topological hb.edges_lt htop
  have hentered : ∀ {b}, b ≠ 0 → b < d.blocks.length → ∃ u, d.Edge u b := by
    intro b hne hlt
    obtain ⟨u, hu⟩ := List.exists_mem_of_ne_nil _ (hb.reachable b (Nat.pos_of_ne_zero hne) hlt)
    exact ⟨u, mem_preds.mp hu⟩
  have hnested : ∀ {i j : Nat} {l m}, d.loops[i]? = some l → d.loops[j]? = some m → i ≠ j →
      l.Apart m ∨ l.StrictlyIn m ∨ m.StrictlyIn l := by
    intro i j l m hl hm hij
    rw [LoopDraft.apart_iff, LoopDraft.strictlyIn_iff, LoopDraft.strictlyIn_iff]
    exact hb.proper i j l.blocks m.blocks hij (nest_of_loop hl) (nest_of_loop hm)
  refine {
    nonempty := List.length_pos_iff.mp hb.nonempty
    edge_lt := fun huv => hb.edges_lt _ huv
    entered := hentered
    not_edge_zero := fun u hu => ?_
    acyclic := hacyclic
    has_lt := fun l hmem b hhas => ?_
    headers := fun hl hm => hb.headers _ _ _ _ hl hm
    nested := hnested
    entered_at_header := fun l hmem b hhas hne u hu => ?_
    sink_innermost := fun {i j l m} hl hm hhas => ?_ }
  · -- with an edge to block 0 all blocks would have predecessors
    have hpred : ∀ x ∈ List.range d.blocks.length, ∃ v ∈ List.range d.blocks.length,
        d.Edge v x := by
      intro x hx
      have hedge : ∃ v, d.Edge v x := by
        by_cases hzero : x = 0
        · exact ⟨u, hzero ▸ hu⟩
        · exact hentered hzero (List.mem_range.mp hx)
      obtain ⟨v, hv⟩ := hedge
      exact ⟨v, List.mem_range.mpr (hb.edges_lt _ hv).1, hv⟩
    obtain ⟨c, hcycle, -⟩ := exists_cycle_of_preds hpred (List.mem_range.mpr hb.nonempty)
    exact hacyclic c hcycle
  · obtain ⟨i, hl⟩ := List.getElem?_of_mem hmem
    exact hb.blocks_lt i l hl b (LoopDraft.mem_blocks_iff.mpr hhas)
  · obtain ⟨i, hl⟩ := List.getElem?_of_mem hmem
    exact LoopDraft.mem_blocks_iff.mp (hb.toChecked.entered i l hl b
      (LoopDraft.mem_blocks_iff.mpr hhas) hne u (mem_preds.mpr hu))
  · by_cases hij : j = i
    · exact .inl hij
    · refine .inr (LoopDraft.strictlyIn_iff.mpr ?_)
      obtain ⟨l', hl', hmem, hsmall⟩ := Checked.innermost_spec hb.proper (hb.innermost_sink i l hl)
      obtain rfl := Option.some.inj (hl.symm.trans hl')
      have hmem' := LoopDraft.mem_blocks_iff.mpr hhas
      exact hb.proper.strictlyWithin (Ne.symm hij) (nest_of_loop hl) (nest_of_loop hm) hmem hmem'
        (hsmall j m hm hmem')

/-! ### Well-formed drafts -/

namespace WellFormed

/-- There is nothing to refuse about a well-formed draft. -/
theorem not_blames (hw : d.WellFormed) {e : ProgramError} : ¬ d.Blames e := by
  intro h
  cases h with
  | empty hempty => exact hw.nonempty hempty
  | edge huv hb hle =>
    have hlt := hw.edge_lt huv
    omega
  | member hl hhas hle => exact absurd (hw.has_lt _ hl _ hhas) (Nat.not_lt.mpr hle)
  | unreachable hne hlt hnone =>
    obtain ⟨u, hu⟩ := hw.entered hne hlt
    exact hnone u hu
  | cycle _ hleast =>
    obtain ⟨c, hc, -⟩ := hleast.1
    exact hw.acyclic c hc
  | duplicateHeader hij hl hm heq => exact hij (hw.headers hl hm heq)
  | overlap hij hl hm hshared hin hout =>
    rcases hw.nested hl hm hij with hapart | hin' | hout'
    · exact hshared hapart
    · exact hin hin'
    · exact hout hout'
  | loopEntry hl hhas hne hu hout =>
    exact hout (hw.entered_at_header _ (List.mem_of_getElem? hl) _ hhas hne _ hu)
  | nestedSink hl hm hji hhas hin =>
    rcases hw.sink_innermost hl hm hhas with heq | hout
    · exact hji heq
    · exact hin.asymm hout

theorem exists_arranged (hw : d.WellFormed) : ∃ all, d.Arranged all := by
  cases htop : d.topological with
  | ok all => exact ⟨all, arranged_of_topological htop⟩
  | error e =>
    obtain ⟨b, -, ⟨c, hc, -⟩, -⟩ := topological_eq_error hw.edges_lt htop
    exact absurd hc (hw.acyclic c)

section Entry

variable (hw : d.WellFormed) (hzero : ∀ l ∈ d.loops, l.Has 0 → l.header = 0)

include hw hzero

/-- The header of a loop comes before all other blocks of the loop. -/
theorem idxOf_header_le (harranged : d.Arranged all) {l : LoopDraft} (hl : l ∈ d.loops) {b : Nat}
    (hb : b ∈ l.blocks) : all.idxOf l.header ≤ all.idxOf b := by
  obtain ⟨x, hx, hfirst⟩ := exists_first all hb
  have hhas := LoopDraft.mem_blocks_iff.mp hx
  suffices hheader : x = l.header by exact hheader ▸ hfirst b hb
  by_contra hne
  -- the predecessors of another first block would lie in the loop, so that it has none
  have hentry : x = 0 := by
    refine eq_zero_of_first harranged (fun b hpos hlt => ?_) (hw.has_lt l hl x hhas) hfirst ?_
    · obtain ⟨u, hu⟩ := hw.entered (Nat.ne_of_gt hpos) hlt
      exact List.ne_nil_of_mem (mem_preds.mpr hu)
    · intro u hu
      have hin := hw.entered_at_header l hl x hhas hne u (mem_preds.mp hu)
      exact LoopDraft.mem_blocks_iff.mpr hin
  exact hne (hentry.trans (hzero l hl (hentry ▸ hhas)).symm)

/-- No loop is entered at its side. -/
theorem not_sideEntered : ¬ d.SideEntered := by
  obtain ⟨all, harranged⟩ := hw.exists_arranged
  rintro ⟨i, l, hl, b, hb, hne, hentry⟩
  have hmem := List.mem_of_getElem? hl
  rcases hentry with rfl | ⟨k, -, m, hm, rfl, hsub⟩
  · exact hne (hzero l hmem (LoopDraft.mem_blocks_iff.mp hb)).symm
  · -- each of the two headers would come before the other
    have hle := hw.idxOf_header_le hzero harranged hmem hb
    have hge := hw.idxOf_header_le hzero harranged (List.mem_of_getElem? hm)
      (hsub (header_mem_blocks l))
    have hlt := hw.has_lt l hmem _ (LoopDraft.mem_blocks_iff.mp hb)
    exact hne ((List.idxOf_inj ((harranged.mem_iff _).mpr hlt)).mp (Nat.le_antisymm hge hle))

/-- Well-formed drafts are accepted. -/
theorem exists_build : ∃ p, d.build = .ok p := by
  have hstops := ensures_stops d
  cases hbuild : d.build with
  | ok p => exact ⟨p, rfl⟩
  | error cause =>
    rw [hbuild] at hstops
    rcases hstops with ⟨e, rfl⟩ | ⟨-, hside⟩
    · exact absurd (blames_of_build hbuild) hw.not_blames
    · exact absurd hside (hw.not_sideEntered hzero)

end Entry

end WellFormed

/-- If no loop has block 0 other than as its header, exactly the well-formed drafts are accepted. No
draft at all is refused because a loop lacks its header or its sink, or because it is never left. -/
theorem build_ok_iff (hzero : ∀ l ∈ d.loops, l.Has 0 → l.header = 0) :
    ((∃ p, d.build = .ok p) ↔ d.WellFormed) ∧
      ∀ q i, d.build ≠ .error (.error (.malformedLoop q i)) ∧
        d.build ≠ .error (.error (.noSink q)) := by
  refine ⟨⟨?_, fun hw => hw.exists_build hzero⟩, fun q i => ⟨fun h => ?_, fun h => ?_⟩⟩
  · rintro ⟨p, h⟩
    exact wellFormed_of_accepted h
  · cases blames_of_build h
  · cases blames_of_build h

def spun (sink : Nat) : Draft where
  id := 0
  name := "spun"
  blocks := [[], [], [], [], []]
  edges := [(0, 1), (1, 2), (2, 3), (3, 4)]
  loops := [⟨0, sink, [1, 2, 3], 2, true⟩, ⟨1, 2, [], 2, true⟩]

theorem build_spun :
    (∀ l ∈ (spun 3).loops, l.Has 0 → l.header = 0) ∧ (spun 3).WellFormed ∧
    (∀ l ∈ (spun 2).loops, l.Has 0 → l.header = 0) ∧
    (spun 2).build = .error (.error (.nestedSink 0 0)) ∧ ¬ (spun 2).WellFormed := by
  have hzero : ∀ l ∈ (spun 3).loops, l.Has 0 → l.header = 0 := by decide
  have hzero' : ∀ l ∈ (spun 2).loops, l.Has 0 → l.header = 0 := by decide
  have hrefused : (spun 2).build = .error (.error (.nestedSink 0 0)) := rfl
  refine ⟨hzero, (build_ok_iff hzero).1.mp ⟨_, rfl⟩, hzero', hrefused, fun hw => ?_⟩
  obtain ⟨p, hp⟩ := (build_ok_iff hzero').1.mpr hw
  cases hrefused.symm.trans hp

end CycleBounds.Code.Draft
