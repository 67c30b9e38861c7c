import CycleBounds.Proofs.Code.Cycles
import CycleBounds.Proofs.Code.Refusals
import CycleBounds.Proofs.Code.Shape
import Mathlib.Data.Finset.Max

/-!
# Why drafts are refused

A refusal names a cause and the place of it. `Draft.Blames` says what each cause stands for, in
terms of edges and of the blocks that loops have. Two causes stand for nothing: a loop always has
its header and its sink, and a draft that passes all other checks is always left somewhere.

* `Draft.Checked.exists_sink`: control leaves a checked draft through what comes last in its order.
* `Draft.ensures_blames`: every refusal is right about the draft.
* `Draft.build_eq_cycle_iff`: when a cycle is reported, and through which block. Where the block
  does not lie on a cycle itself, all blocks that do have larger numbers.
-/

namespace CycleBounds.Code

/-! ### Blocks of loops -/

namespace LoopDraft

def Has (l : LoopDraft) (b : Nat) : Prop :=
  b ∈ l.members ∨ b = l.header ∨ b = l.sink

instance (l : LoopDraft) (b : Nat) : Decidable (l.Has b) :=
  inferInstanceAs (Decidable (_ ∨ _))

def Apart (l m : LoopDraft) : Prop :=
  ∀ b, l.Has b → ¬ m.Has b

/-- A loop lies strictly in another, which has all its blocks and more. -/
def StrictlyIn (inner outer : LoopDraft) : Prop :=
  (∀ b, inner.Has b → outer.Has b) ∧ ∃ b, outer.Has b ∧ ¬ inner.Has b

variable {l m : LoopDraft} {b : Nat}

theorem mem_blocks_iff : b ∈ l.blocks ↔ l.Has b := Draft.mem_blocks

theorem apart_iff : l.Apart m ↔ ∀ b ∈ l.blocks, b ∉ m.blocks := by
  simp only [Apart, mem_blocks_iff]

theorem strictlyIn_iff : l.StrictlyIn m ↔ Nest.strictlyWithin l.blocks m.blocks = true := by
  rw [Nest.strictlyWithin_iff_subset l.nodup_blocks m.nodup_blocks]
  simp only [StrictlyIn, List.subset_def, mem_blocks_iff, not_forall, exists_prop]

theorem StrictlyIn.asymm (h : l.StrictlyIn m) : ¬ m.StrictlyIn l := by
  obtain ⟨b, hb, hnot⟩ := h.2
  exact fun hback => hnot (hback.1 b hb)

end LoopDraft

namespace Draft

variable {d : Draft} {all : List Nat} {e : ProgramError}

/-! ### What a refusal says -/

/-- There are blocks, edges lead between them, and to all but the first. -/
structure Connected (d : Draft) : Prop where
  nonempty : d.blocks ≠ []
  edge_lt : ∀ {u v}, d.Edge u v → u < d.blocks.length ∧ v < d.blocks.length
  entered : ∀ {b}, b ≠ 0 → b < d.blocks.length → ∃ u, d.Edge u b

/-- What a refusal says about a draft. -/
inductive Blames (d : Draft) : ProgramError → Prop
  | empty : d.blocks = [] → Blames d (.empty d.id)
  | edge {u v b : Nat} : d.Edge u v → b = u ∨ b = v → d.blocks.length ≤ b →
      Blames d (.unknownBlock d.id b)
  | member {l : LoopDraft} {b : Nat} : l ∈ d.loops → l.Has b → d.blocks.length ≤ b →
      Blames d (.unknownBlock d.id b)
  | unreachable {b : Nat} : b ≠ 0 → b < d.blocks.length → (∀ u, ¬ d.Edge u b) →
      Blames d (.unreachable d.id b)
  | cycle {b : Nat} : d.Connected → IsLeast {a | d.BehindCycle a} b → Blames d (.cycle d.id b)
  | duplicateHeader {i j : Nat} {l m : LoopDraft} : i ≠ j → d.loops[i]? = some l →
      d.loops[j]? = some m → l.header = m.header → Blames d (.duplicateHeader d.id l.header)
  | overlap {i j : Nat} {l m : LoopDraft} : i ≠ j → d.loops[i]? = some l → d.loops[j]? = some m →
      ¬ l.Apart m → ¬ l.StrictlyIn m → ¬ m.StrictlyIn l → Blames d (.overlap d.id i j)
  | loopEntry {i b u : Nat} {l : LoopDraft} : d.loops[i]? = some l → l.Has b → b ≠ l.header →
      d.Edge u b → ¬ l.Has u → Blames d (.loopEntry d.id i b)
  | nestedSink {i j : Nat} {l m : LoopDraft} : d.loops[i]? = some l → d.loops[j]? = some m →
      j ≠ i → m.Has l.sink → m.StrictlyIn l → Blames d (.nestedSink d.id i)

/-! ### The checks one by one -/

theorem checkBlock_eq_error {b : Nat} (h : d.checkBlock b = .error e) :
    e = .unknownBlock d.id b ∧ d.blocks.length ≤ b := by
  rw [checkBlock] at h
  split at h
  · cases h
  · exact ⟨(Except.error.inj h).symm, by omega⟩

/-- The check of the edges names a block of an edge that does not exist. -/
theorem checkEdges_blames (h : d.checkEdges = .error e) : d.Blames e := by
  obtain ⟨⟨u, v⟩, hedge, h⟩ := forM_eq_error h
  cases hu : d.checkBlock u with
  | error e' =>
    simp only [hu] at h
    obtain rfl : e' = e := Except.error.inj h
    obtain ⟨rfl, hle⟩ := checkBlock_eq_error hu
    exact .edge hedge (.inl rfl) hle
  | ok _ =>
    simp only [hu] at h
    obtain ⟨rfl, hle⟩ := checkBlock_eq_error h
    exact .edge hedge (.inr rfl) hle

/-- The check of the blocks names a block that no edge leads to. -/
theorem checkReachable_eq_error (h : d.checkReachable = .error e) :
    ∃ b, e = .unreachable d.id b ∧ b ≠ 0 ∧ b < d.blocks.length ∧ ∀ u, ¬ d.Edge u b := by
  rw [checkReachable] at h
  split at h
  · rename_i b hf
    obtain ⟨i, hi, hb⟩ := List.mem_drop_iff_getElem.mp (List.mem_of_find?_eq_some hf)
    rw [List.length_range] at hi
    rw [List.getElem_range] at hb
    have hnone : d.preds b = [] := by simpa using List.find?_some hf
    refine ⟨b, (Except.error.inj h).symm, by omega, by omega, fun u hedge => ?_⟩
    have hu := mem_preds.mpr hedge
    rw [hnone] at hu
    cases hu
  · cases h

theorem checkReachable_blames (h : d.checkReachable = .error e) : d.Blames e := by
  obtain ⟨b, rfl, hb, hlt, hnone⟩ := checkReachable_eq_error h
  exact .unreachable hb hlt hnone

/-- The check of the loops names a loop that breaks a rule. -/
theorem checkLoops_blames (h : d.checkLoops = .error e) : d.Blames e := by
  obtain ⟨⟨l, i⟩, hmem, h⟩ := forM_eq_error h
  have hl : d.loops[i]? = some l := List.mem_zipIdx_iff_getElem?.mp hmem
  have hc : l.blocks.contains l.header = true ∧ l.blocks.contains l.sink = true :=
    ⟨by simpa using header_mem_blocks l, by simpa using sink_mem_blocks l⟩
  -- the blocks of the loop are checked before its header is compared with those of earlier loops
  cases hblocks : l.blocks.forM d.checkBlock with
  | error e' =>
    simp only [hblocks] at h
    obtain rfl : e' = e := Except.error.inj h
    obtain ⟨b, hb, hfail⟩ := forM_eq_error hblocks
    obtain ⟨rfl, hle⟩ := checkBlock_eq_error hfail
    exact .member (List.mem_of_getElem? hl) (LoopDraft.mem_blocks_iff.mp hb) hle
  | ok _ =>
    simp only [hblocks, hc, and_self, not_true_eq_false, ↓reduceIte] at h
    by_cases hany : ((d.loops.take i).any fun k => decide (k.header = l.header)) = true
    · rw [if_pos hany] at h
      obtain rfl := Except.error.inj h
      obtain ⟨m, hm, heq⟩ := List.any_eq_true.mp hany
      obtain ⟨j, hj⟩ := List.getElem?_of_mem hm
      rw [List.getElem?_take] at hj
      split at hj
      · exact .duplicateHeader (by omega) hl hj (of_decide_eq_true heq).symm
      · cases hj
    · rw [if_neg hany] at h
      cases h

/-- The check of the nesting names two loops that overlap. -/
theorem checkNesting_blames (h : d.checkNesting d.nest = .error e) : d.Blames e := by
  rw [checkNesting] at h
  split at h
  · rename_i i j hf
    obtain rfl := Except.error.inj h
    obtain ⟨⟨xs, i'⟩, hi, hf⟩ := List.exists_of_findSome?_eq_some hf
    obtain ⟨⟨ys, j'⟩, hj, hf⟩ := List.exists_of_findSome?_eq_some hf
    simp only [Option.ite_none_right_eq_some, Option.some.injEq, Prod.mk.injEq] at hf
    obtain ⟨⟨hij, hoverlap⟩, rfl, rfl⟩ := hf
    rw [List.mem_zipIdx_iff_getElem?, nest_getElem?, Option.map_eq_some_iff] at hi hj
    obtain ⟨l, hl, rfl⟩ := hi
    obtain ⟨m, hm, rfl⟩ := hj
    simp only [Nest.overlap, Bool.not_eq_true', decide_eq_true_eq, ← Bool.not_eq_true,
      ← LoopDraft.strictlyIn_iff] at hoverlap
    obtain ⟨hshared, hout, hin⟩ := hoverlap
    refine .overlap hij hl hm (fun hapart => hshared ?_) hin hout
    rw [Nest.disjoint, List.all_eq_true]
    simpa using LoopDraft.apart_iff.mp hapart
  · cases h

/-- A loop that cannot be built breaks the rule that the error names. -/
theorem buildLoop_blames {i : Nat} {l : LoopDraft} (hproper : d.nest.Proper)
    (hl : d.loops[i]? = some l)
    (h : d.buildLoop d.nest d.nest.levels all l i = .error (.error e)) : d.Blames e := by
  rcases of_buildLoop_error hl h with ⟨b, hb, hcause, hne, u, hu, hout⟩ | ⟨hcause, hsink⟩ |
    ⟨hcause, -⟩
  · obtain rfl := Failure.error.inj hcause
    rw [LoopDraft.mem_blocks_iff] at hb hout
    exact .loopEntry hl hb hne (mem_preds.mp hu) hout
  · obtain rfl := Failure.error.inj hcause
    cases hinn : d.nest.innermost l.sink with
    | none => exact absurd hinn (innermost_ne_none hl (sink_mem_blocks l))
    | some j =>
      obtain ⟨m, hm, hmem, hsmall⟩ := Checked.innermost_spec hproper hinn
      have hji : j ≠ i := fun hji => hsink (hji ▸ hinn)
      refine .nestedSink hl hm hji (LoopDraft.mem_blocks_iff.mp hmem) ?_
      exact LoopDraft.strictlyIn_iff.mpr (hproper.strictlyWithin hji (nest_of_loop hm)
        (nest_of_loop hl) hmem (sink_mem_blocks l) (hsmall i l hl (sink_mem_blocks l)))
  · cases hcause

/-! ### Where control leaves -/

/-- What comes last in the order of the whole draft stands for everything that it leads to. -/
theorem Checked.standsFor_of_last (hc : d.Checked all) {r : Nat}
    (hr : r ∈ d.regionOrder all none)
    (hlast : ∀ s ∈ d.regionOrder all none, all.idxOf s ≤ all.idxOf r) {u v : Nat}
    (hu : d.StandsFor none r u) (huv : d.Edge u v) : d.StandsFor none r v := by
  have hpred : u ∈ d.preds v := mem_preds.mpr huv
  obtain ⟨hult, hvlt⟩ := hc.edges_lt _ huv
  have hin : d.Inside none u := hult
  have hin' : d.Inside none v := hvlt
  have hru : all.idxOf r ≤ all.idxOf u := by
    obtain ⟨r', hr', hstand, hle⟩ := hc.exists_standsFor hin
    rwa [hc.standsFor_unique hr hr' hu hstand]
  have hlater := hc.arranged.idxOf_lt u v ((hc.arranged.mem_iff v).mpr hvlt) hpred
  obtain ⟨s, hs, hstand, -⟩ := hc.exists_standsFor hin'
  have hsr := hlast s hs
  -- `v` itself comes too late to be in the order
  have hne : s ≠ v := by
    rintro rfl
    omega
  rcases hstand with ⟨rfl, -⟩ | ⟨k, m, hk, hnone, hm, hv⟩
  · exact absurd rfl hne
  · obtain ⟨m', hm', rfl⟩ := hc.headerOf_eq_some.mp hk
    obtain rfl := Option.some.inj (hm.symm.trans hm')
    -- so `v` lies within a loop, which is entered at the header only: `u` lies there as well
    have hum := hc.entered k m hm v hv (Ne.symm hne) u hpred
    have hsu : d.StandsFor none m.header u := .inr ⟨k, m, hk, hnone, hm, hum⟩
    rw [hc.standsFor_unique hr hs hu hsu]
    exact .inr ⟨k, m, hk, hnone, hm, hv⟩

/-- Control leaves a checked draft through what comes last in its order. -/
theorem Checked.exists_sink (hc : d.Checked all) :
    ∃ r ∈ d.regionOrder all none, d.isSink d.nest r = true := by
  have hzero : d.Inside none 0 := hc.nonempty
  obtain ⟨x, hx, -, -⟩ := hc.exists_standsFor hzero
  -- of all blocks in the order, the one that the arrangement lists last
  obtain ⟨r, hr, hlast⟩ := (d.regionOrder all none).toFinset.exists_max_image all.idxOf
    ⟨x, List.mem_toFinset.mpr hx⟩
  simp only [List.mem_toFinset] at hr hlast
  have hleads : ∀ {u v}, d.StandsFor none r u → d.Edge u v → d.StandsFor none r v :=
    hc.standsFor_of_last hr hlast
  refine ⟨r, hr, ?_⟩
  rw [isSink]
  cases hk : d.headerOf r with
  | none =>
    rw [Option.bind_none, List.isEmpty_iff, List.eq_nil_iff_forall_not_mem]
    intro v hv
    have hedge : d.Edge r v := mem_succs.mp hv
    rcases hleads (.inl ⟨rfl, .inl hk⟩) hedge with ⟨rfl, -⟩ | ⟨k, m, hk', -⟩
    · have hlt := hc.arranged.idxOf_lt r r (List.mem_filter.mp hr).1 (mem_preds.mpr hedge)
      omega
    · rw [hk] at hk'
      cases hk'
  | some k =>
    obtain ⟨m, hm, rfl⟩ := hc.headerOf_eq_some.mp hk
    rw [Option.bind_some, nest_getElem?, hm]
    simp only [Option.map_some, Nest.within, List.all_eq_true, List.contains_iff_mem]
    intro u hu v hv
    rcases hleads (.inr ⟨k, m, hk, Option.some_ne_none k, hm, hu⟩) (mem_succs.mp hv) with
      ⟨-, hself⟩ | ⟨k', m', hk', -, hm', hv'⟩
    · rw [hk] at hself
      simp at hself
    · obtain rfl := Option.some.inj (hk.symm.trans hk')
      obtain rfl := Option.some.inj (hm.symm.trans hm')
      exact hv'

/-! ### Building -/

/-- Drafts that pass the first checks have blocks that edges join. -/
theorem connected_of_checks (hne : ¬ d.blocks.isEmpty = true) (hedges : d.checkEdges = .ok ())
    (hreach : d.checkReachable = .ok ()) : d.Connected where
  nonempty := by simpa using hne
  edge_lt := fun huv => edges_lt_of_checkEdges hedges _ huv
  entered := by
    intro b hb hlt
    obtain ⟨u, hu⟩ := List.exists_mem_of_ne_nil _
      (preds_ne_nil_of_checkReachable hreach (Nat.pos_of_ne_zero hb) hlt)
    exact ⟨u, mem_preds.mp hu⟩

theorem Connected.edges_lt (h : d.Connected) :
    ∀ e ∈ d.edges, e.1 < d.blocks.length ∧ e.2 < d.blocks.length :=
  fun _ he => h.edge_lt he

theorem Connected.checkEdges (h : d.Connected) : d.checkEdges = .ok () := by
  refine forM_ok_of_forall fun e he => ?_
  obtain ⟨hu, hv⟩ := h.edges_lt e he
  simp only [checkBlock, if_pos hu, if_pos hv]
  rfl

theorem Connected.checkReachable (h : d.Connected) : d.checkReachable = .ok () := by
  cases hreach : d.checkReachable with
  | ok _ => rfl
  | error e =>
    obtain ⟨b, -, hb, hlt, hnone⟩ := checkReachable_eq_error hreach
    obtain ⟨u, hedge⟩ := h.entered hb hlt
    exact absurd hedge (hnone u)

/-- A check whose refusals are right. -/
theorem ensures_checked {α : Type} {x : Except ProgramError α}
    (h : ∀ {e}, x = .error e → d.Blames e) :
    Ensures (fun cause => ∀ e, cause = .error e → d.Blames e)
      (liftM x : Except (Failure ProgramError) α) fun a => x = .ok a := by
  cases x with
  | ok a => rfl
  | error e =>
    intro e' he
    obtain rfl := Failure.error.inj he
    exact h rfl

/-- Loops that cannot be built are blamed for a rule that they break. -/
theorem ensures_loops_blames (hproper : d.nest.Proper) :
    Ensures (fun cause => ∀ e, cause = .error e → d.Blames e)
      (d.loops.zipIdx.mapM fun (l, i) => d.buildLoop d.nest d.nest.levels all l i)
      fun _ => True := by
  cases hmap : d.loops.zipIdx.mapM fun (l, i) => d.buildLoop d.nest d.nest.levels all l i with
  | ok loops => trivial
  | error cause =>
    rintro e rfl
    obtain ⟨i, ⟨l, k⟩, hl, hfail, -⟩ := mapM_eq_error hmap
    have hl : d.loops[k]? = some l :=
      List.mem_zipIdx_iff_getElem?.mp (List.mem_of_getElem? hl)
    exact buildLoop_blames hproper hl hfail

/-- Every refusal is right about the draft. -/
theorem ensures_blames (d : Draft) :
    Ensures (fun cause => ∀ e, cause = .error e → d.Blames e) d.build fun _ => True := by
  simp only [build]
  split
  · rename_i hempty
    intro e he
    obtain rfl := Failure.error.inj he
    exact .empty (List.isEmpty_iff.mp hempty)
  rename_i hne
  refine (ensures_checked checkEdges_blames).bind fun _ _ hedges => ?_
  refine (ensures_checked checkReachable_blames).bind fun _ _ hreach => ?_
  have hcycle : ∀ {e}, d.topological = .error e → d.Blames e := by
    intro e he
    obtain ⟨b, rfl, hleast⟩ := topological_eq_error (edges_lt_of_checkEdges hedges) he
    exact .cycle (connected_of_checks hne hedges hreach) hleast
  refine (ensures_checked hcycle).bind fun all _ hall => ?_
  refine (ensures_checked checkLoops_blames).bind fun _ _ hloops => ?_
  refine (ensures_checked checkNesting_blames).bind fun _ _ hnest => ?_
  refine (ensures_loops_blames (proper_of_checkNesting hnest)).bind fun loops hmap _ => ?_
  -- the last refusal, of a body that control cannot leave, never happens
  obtain ⟨r, hr, hsink⟩ :=
    (checked_of_checks hne hedges hreach hall hloops hnest hmap).exists_sink
  have hleft : ¬ ((all.filter (d.ranksOutside d.nest d.nest.levels)).filter
      (d.isSink d.nest)).isEmpty = true := by
    rw [List.isEmpty_iff]
    exact List.ne_nil_of_mem (List.mem_filter.mpr ⟨hr, hsink⟩)
  rw [if_neg hleft]
  trivial

theorem blames_of_build (h : d.build = .error (.error e)) : d.Blames e := by
  have hblames := ensures_blames d
  rw [h] at hblames
  exact hblames e rfl

/-! ### Reported cycles -/

/-- A cycle is reported in connected drafts that have one, through the least block behind one. This
block lies on a cycle itself, unless it has a smaller number than all blocks that do. -/
theorem build_eq_cycle_iff {q b : Nat} : d.build = .error (.error (.cycle q b)) ↔
    q = d.id ∧ d.Connected ∧ IsLeast {a | d.BehindCycle a} b ∧
      (d.OnCycle b ∨ ∀ c, d.OnCycle c → b < c) := by
  constructor
  · intro h
    cases blames_of_build h with
    | cycle hconnected hleast =>
      refine ⟨rfl, hconnected, hleast, ?_⟩
      by_cases hon : d.OnCycle b
      · exact .inl hon
      · refine .inr fun c hc => Nat.lt_of_le_of_ne (hleast.2 hc.behindCycle) ?_
        rintro rfl
        exact hon hc
  · rintro ⟨rfl, hconnected, hleast, -⟩
    have hne : ¬ d.blocks.isEmpty = true := by simpa using hconnected.nonempty
    -- a connected draft passes the checks before the arrangement, which then fails
    simp only [build, hne, hconnected.checkEdges, hconnected.checkReachable]
    cases htop : d.topological with
    | ok all =>
      obtain ⟨c, hc, -⟩ := hleast.1
      exact absurd hc (not_onCycle_of_topological hconnected.edges_lt htop c)
    | error e =>
      obtain ⟨a, rfl, hleast'⟩ := topological_eq_error hconnected.edges_lt htop
      rw [hleast.unique hleast']
      rfl

/-- Four blocks, of which 2 and 3 form a cycle that leads to 1. -/
def trailing : Draft where
  id := 0
  name := "p"
  blocks := [[], [], [], []]
  edges := [(2, 3), (3, 2), (2, 1)]
  loops := []

/-- A cycle is reported through a block that nothing leads back to. -/
theorem build_trailing :
    trailing.build = .error (.error (.cycle 0 1)) ∧ ¬ trailing.OnCycle 1 := by
  refine ⟨rfl, fun hcycle => ?_⟩
  obtain ⟨v, hedge, -⟩ := Relation.TransGen.head'_iff.mp hcycle
  have hnone : ∀ e ∈ trailing.edges, e.1 ≠ 1 := by decide
  exact hnone _ hedge rfl

end Draft

end CycleBounds.Code
