import CycleBounds.Offset.Walk
import CycleBounds.Proofs.Offset.Graph

/-!
# Walks through offset graphs

A walk starts at the source, visits a number of nodes and ends at the sink. Its weight is that of
its edges and of the nodes that it visits. The search for the best walk keeps, for every node, a
weight that bounds all walks to it (`Layer.Bests`), and every entry of a layer leads back to an
entry of the layer before (`Layer.LeadsTo`), so that the best walk can be followed to its start.

* `bestWalk_spec`: the search has an answer that bounds all walks, unless it overflows.
-/

namespace CycleBounds.Offset

/-- A bound is on the safe side of a value: at most as large if the least value is sought, and at
least as large if the largest is. -/
def Objective.Bounds : Objective → (bound value : Nat) → Prop
  | .minimize, bound, value => bound ≤ value
  | .maximize, bound, value => value ≤ bound

namespace Objective.Bounds

variable {o : Objective} {a b c k : Nat}

@[simp] theorem refl (o : Objective) (a : Nat) : o.Bounds a a := by
  cases o
  · exact Nat.le_refl a
  · exact Nat.le_refl a

theorem trans (h : o.Bounds a b) (h' : o.Bounds b c) : o.Bounds a c := by
  cases o
  · exact Nat.le_trans h h'
  · exact Nat.le_trans h' h

theorem add_right (h : o.Bounds a b) : o.Bounds (a + k) (b + k) := by
  cases o
  · exact Nat.add_le_add_right h k
  · exact Nat.add_le_add_right h k

theorem of_improves (h : o.improves a (some b) = true) : o.Bounds a b := by
  cases o
  · exact Nat.le_of_lt (of_decide_eq_true h)
  · exact Nat.le_of_lt (of_decide_eq_true h)

theorem of_not_improves (h : ¬ o.improves a (some b) = true) : o.Bounds b a := by
  cases o <;> simpa [Objective.improves, Objective.Bounds] using h

end Objective.Bounds

variable {g : Graph} {o : Objective}

/-- A walk from the source has visited a number of nodes, the last of which is given, with a
weight. -/
inductive Reaches (g : Graph) (o : Objective) : (visits node weight : Nat) → Prop
  | first {i n : Nat} {e : Edge} {m : Node} : i ∈ g.sources → g.edges[i]? = some e →
      e.finish = .node n → g.nodes[n]? = some m → Reaches g o 1 n (e.weight o + m.weight o)
  | next {k l n w i : Nat} {e : Edge} {m : Node} : Reaches g o k l w → g.edges[i]? = some e →
      e.start = .node l → e.finish = .node n → g.nodes[n]? = some m →
      Reaches g o (k + 1) n (w + e.weight o + m.weight o)

/-- A walk that visits a number of nodes reaches the sink with a weight. -/
def Walks (g : Graph) (o : Objective) (visits weight : Nat) : Prop :=
  ∃ (n w i : Nat) (e : Edge), Reaches g o visits n w ∧ i ∈ g.sinks ∧ g.edges[i]? = some e ∧
    e.start = .node n ∧ weight = w + e.weight o

section Arcs

variable {k n m w : Nat} {node : Node}

/-! Edges of a proper graph cost nothing, so a walk weighs as much as its nodes. -/

theorem Reaches.of_arc (hg : g.Proper) (harc : g.Arc .source (.node n))
    (hnode : g.nodes[n]? = some node) : Reaches g o 1 n (node.weight o) := by
  obtain ⟨i, e, hi, hstart, hfinish⟩ := harc
  have h := Reaches.first (o := o) (hg.source hi hstart) hi hfinish hnode
  rwa [hg.weight_eq_zero hi, Nat.zero_add] at h

theorem Reaches.along (h : Reaches g o k m w) (hg : g.Proper) (harc : g.Arc (.node m) (.node n))
    (hnode : g.nodes[n]? = some node) : Reaches g o (k + 1) n (w + node.weight o) := by
  obtain ⟨i, e, hi, hstart, hfinish⟩ := harc
  have h' := h.next hi hstart hfinish hnode
  rwa [hg.weight_eq_zero hi] at h'

theorem Reaches.walks (h : Reaches g o k n w) (hg : g.Proper) (harc : g.Arc (.node n) .sink) :
    Walks g o k w := by
  obtain ⟨i, e, hi, hstart, hfinish⟩ := harc
  refine ⟨n, w, i, e, h, hg.sink hi hfinish, hi, hstart, ?_⟩
  rw [hg.weight_eq_zero hi, Nat.add_zero]

end Arcs

namespace Layer

variable {l l' prev : Layer} {n m w edge i b : Nat}

/-! ### Offers -/

theorem weight?_eq_some_iff : l.weight? n = some w ↔ ∃ i, l[n]? = some (some (w, i)) := by
  simp [weight?, Option.join_eq_some_iff]

theorem edge?_eq_some_iff : l.edge? n = some i ↔ ∃ w, l[n]? = some (some (w, i)) := by
  simp [edge?, Option.join_eq_some_iff]

theorem exists_edge? : (∃ i, l.edge? n = some i) ↔ ∃ w, l.weight? n = some w := by
  simp only [edge?_eq_some_iff, weight?_eq_some_iff]
  exact exists_comm

structure Improved (o : Objective) (l l' : Layer) : Prop where
  size : l'.size = l.size
  weight : ∀ {n w}, l.weight? n = some w → ∃ b, l'.weight? n = some b ∧ o.Bounds b w

theorem Improved.refl (l : Layer) : Improved o l l :=
  ⟨rfl, fun h => ⟨_, h, .refl o _⟩⟩

theorem Improved.trans {l'' : Layer} (h : Improved o l l') (h' : Improved o l' l'') :
    Improved o l l'' where
  size := h'.size.trans h.size
  weight hw := by
    obtain ⟨b, hb, hle⟩ := h.weight hw
    obtain ⟨b', hb', hle'⟩ := h'.weight hb
    exact ⟨b', hb', hle'.trans hle⟩

/-- A weight in a layer bounds a given weight. -/
def Bounds (o : Objective) (l : Layer) (n w : Nat) : Prop :=
  ∃ b, l.weight? n = some b ∧ o.Bounds b w

theorem Bounds.improved (h : Bounds o l n w) (himproved : Improved o l l') : Bounds o l' n w := by
  obtain ⟨b, hb, hle⟩ := h
  obtain ⟨b', hb', hle'⟩ := himproved.weight hb
  exact ⟨b', hb', hle'.trans hle⟩

/-- An offer improves a layer, bounds what is offered, and adds at most the offered edge. -/
theorem offer_spec (hn : n < l.size) :
    Improved o l (l.offer o n w edge) ∧ Bounds o (l.offer o n w edge) n w ∧
      ∀ m i, (l.offer o n w edge).edge? m = some i → l.edge? m = some i ∨ m = n ∧ i = edge := by
  unfold offer
  -- the offer replaces the entry of its node, or the entry is as good
  split
  · rename_i himproves
    have hself : (l.setIfInBounds n (some (w, edge)))[n]? = some (some (w, edge)) := by
      simp [hn]
    have hother : ∀ m ≠ n, (l.setIfInBounds n (some (w, edge)))[m]? = l[m]? :=
      fun m hm => Array.getElem?_setIfInBounds_ne hm.symm
    refine ⟨⟨Array.size_setIfInBounds, fun {m w'} hw' => ?_⟩,
      ⟨w, weight?_eq_some_iff.mpr ⟨edge, hself⟩, .refl o w⟩, fun m i hi => ?_⟩
    · by_cases hm : m = n
      · subst hm
        rw [hw'] at himproves
        exact ⟨w, weight?_eq_some_iff.mpr ⟨edge, hself⟩, .of_improves himproves⟩
      · refine ⟨w', ?_, .refl o w'⟩
        rw [weight?_eq_some_iff, hother m hm]
        exact weight?_eq_some_iff.mp hw'
    · by_cases hm : m = n
      · subst hm
        obtain ⟨w', hw'⟩ := edge?_eq_some_iff.mp hi
        rw [hself] at hw'
        cases hw'
        exact .inr ⟨rfl, rfl⟩
      · rw [edge?_eq_some_iff, hother m hm] at hi
        exact .inl (edge?_eq_some_iff.mpr hi)
  · rename_i himproves
    refine ⟨.refl l, ?_, fun m i hi => .inl hi⟩
    cases hw : l.weight? n with
    | none => simp [hw, Objective.improves] at himproves
    | some b =>
      rw [hw] at himproves
      exact ⟨b, hw, .of_not_improves himproves⟩

/-- Extending a walk offers the extended walk, unless its weight overflows. -/
theorem extend_spec {before : Nat} {e : Edge} {node : Node} (hsize : l.size = g.nodes.size)
    (hnode : g.nodes[n]? = some node) :
    Ensures (· = .overflow) (l.extend g o before edge e n) fun l' =>
      Improved o l l' ∧ Bounds o l' n (before + e.weight o + node.weight o) ∧
      ∀ m i, l'.edge? m = some i → l.edge? m = some i ∨ m = n ∧ i = edge := by
  have hn : n < l.size := hsize ▸ (Array.getElem?_eq_some_iff.mp hnode).1
  unfold extend
  refine (Word.ensures_add _ _).bind ?_
  rintro _ - rfl
  refine (Ensures.of_ok (Graph.node_eq_ok.mpr hnode) rfl).bind ?_
  rintro _ - rfl
  refine (Word.ensures_add _ _).bind ?_
  rintro _ - rfl
  exact offer_spec hn

/-! ### Layers -/

/-- The weights of a layer bound all walks with a number of visits. -/
structure Bests (g : Graph) (o : Objective) (visits : Nat) (l : Layer) : Prop where
  size : l.size = g.nodes.size
  bounds : ∀ {n w}, Reaches g o visits n w → Bounds o l n w

theorem size_blank (g : Graph) : (blank g).size = g.nodes.size :=
  Array.size_replicate

theorem edge?_blank : (blank g).edge? n ≠ some i := by
  intro h
  obtain ⟨w, hw⟩ := edge?_eq_some_iff.mp h
  simp [blank, Array.getElem?_replicate] at hw

/-- The first layer bounds all walks that visit one node. -/
theorem first_spec (hends : ∀ {i : Nat} {e : Edge}, g.edges[i]? = some e → g.Exists e.finish) :
    Ensures (· = .overflow) (first g o) (Bests g o 1) := by
  unfold first
  -- layers only improve while edges are gone through, so what one edge bounds stays bounded
  refine (Ensures.foldlM (I := fun l => l.size = g.nodes.size) (R := Improved o)
    (Q := fun i l => ∀ (e : Edge) n (m : Node), g.edges[i]? = some e → e.finish = .node n →
      g.nodes[n]? = some m → Bounds o l n (e.weight o + m.weight o))
    .refl .trans (fun hst hx e n m he hn hm => (hx e n m he hn hm).improved hst) ?_
    (size_blank g)).imp fun l _ ⟨hsize, _, hall⟩ => ⟨hsize, fun hreach => ?_⟩
  rotate_left
  · cases hreach with
    | first hi he hn hm => exact hall _ hi _ _ _ he hn hm
    | next hbefore => cases hbefore
  · intro i _ l hl
    split
    · rename_i e hi
      split
      · rename_i n hn
        have hnode := Array.getElem?_eq_getElem (hends hi n hn)
        refine (extend_spec hl hnode).imp ?_
        rintro l' - ⟨himproved, hbounds, -⟩
        refine ⟨himproved.size.trans hl, himproved, fun e' n' m' he' hn' hm' => ?_⟩
        obtain rfl := Option.some.inj (hi.symm.trans he')
        obtain rfl := Endpoint.node.inj (hn.symm.trans hn')
        obtain rfl := Option.some.inj (hnode.symm.trans hm')
        rwa [Nat.zero_add] at hbounds
      · rename_i hother
        refine ⟨hl, .refl l, fun e' n' m' he' hn' => ?_⟩
        obtain rfl := Option.some.inj (hi.symm.trans he')
        exact absurd hn' (hother n')
    · rename_i hi
      refine ⟨hl, .refl l, fun e' n' m' he' => ?_⟩
      rw [hi] at he'
      cases he'

/-- The entries of a layer lead back to entries of the layer before. -/
def LeadsTo (g : Graph) (l prev : Layer) : Prop :=
  ∀ n i, l.edge? n = some i → ∃ j, prev.edge? (Trail.startOf g i n) = some j

/-- Another layer bounds all walks that visit one more node. -/
theorem next_spec {visits : Nat} (hpos : 0 < visits)
    (hends : ∀ {i : Nat} {e : Edge}, g.edges[i]? = some e → g.Exists e.finish)
    (hprev : Bests g o visits prev) :
    Ensures (· = .overflow) (next g o prev) fun l =>
      Bests g o (visits + 1) l ∧ LeadsTo g l prev := by
  unfold next
  -- as for the first layer; besides, every entry leads back to a node that the layer before knows
  refine (Ensures.foldlM (I := fun l => l.size = g.nodes.size ∧ LeadsTo g l prev) (R := Improved o)
    (Q := fun (ei : Edge × Nat) l => ∀ k n w (m : Node), ei.1.start = .node k →
      ei.1.finish = .node n → prev.weight? k = some w → g.nodes[n]? = some m →
      Bounds o l n (w + ei.1.weight o + m.weight o))
    .refl .trans
    (fun hst hx k n w m hk hn hw hm => (hx k n w m hk hn hw hm).improved hst) ?_
    ⟨size_blank g, fun _ _ h => absurd h edge?_blank⟩).imp
    fun l _ ⟨⟨hsize, hleads⟩, _, hall⟩ => ⟨⟨hsize, fun {n w} hreach => ?_⟩, hleads⟩
  rotate_left
  · cases hreach with
    | first => exact absurd hpos (Nat.lt_irrefl 0)
    | next hbefore he hk hn hm =>
      obtain ⟨b, hb, hle⟩ := hprev.bounds hbefore
      rw [← Array.getElem?_toList] at he
      obtain ⟨b', hb', hle'⟩ :=
        hall (_, _) (List.mk_mem_zipIdx_iff_getElem?.mpr he) _ _ b _ hk hn hb hm
      exact ⟨b', hb', hle'.trans hle.add_right.add_right⟩
  · rintro ⟨e, i⟩ hmem l ⟨hl, hleads⟩
    have he : g.edges[i]? = some e := by
      rw [← Array.getElem?_toList]
      exact List.mk_mem_zipIdx_iff_getElem?.mp hmem
    dsimp only
    split
    · rename_i k n hk hn
      split
      · rename_i w hw
        have hnode := Array.getElem?_eq_getElem (hends he n hn)
        refine (extend_spec hl hnode).imp ?_
        rintro l' - ⟨himproved, hbounds, hedges⟩
        refine ⟨⟨himproved.size.trans hl, fun m j hj => ?_⟩, himproved,
          fun k' n' w' m' hk' hn' hw' hm' => ?_⟩
        · rcases hedges m j hj with hold | ⟨rfl, rfl⟩
          · exact hleads m j hold
          · rw [Trail.startOf, he, Option.map_some, hk]
            exact exists_edge?.mpr ⟨w, hw⟩
        · obtain rfl := Endpoint.node.inj (hk.symm.trans hk')
          obtain rfl := Endpoint.node.inj (hn.symm.trans hn')
          obtain rfl := Option.some.inj (hw.symm.trans hw')
          obtain rfl := Option.some.inj (hnode.symm.trans hm')
          exact hbounds
      · rename_i hw
        refine ⟨⟨hl, hleads⟩, .refl l, fun k' n' w' m' hk' _ hw' => ?_⟩
        obtain rfl := Endpoint.node.inj (hk.symm.trans hk')
        rw [hw] at hw'
        cases hw'
    · rename_i hother
      exact ⟨⟨hl, hleads⟩, .refl l, fun k' n' w' m' hk' hn' => absurd hn' (hother k' n' hk')⟩

/-- A stack of layers bounds all walks with as many visits, and leads back layer by layer. -/
theorem stack_spec {visits : Nat} {before : List Layer} (hpos : 0 < visits)
    (hends : ∀ {i : Nat} {e : Edge}, g.edges[i]? = some e → g.Exists e.finish)
    (hl : Bests g o visits l) (hchain : (l :: before).IsChain (LeadsTo g)) (n : Nat) :
    Ensures (· = .overflow) (stack g o n l before) fun layers =>
      ∃ l' rest, layers = l' :: rest ∧ Bests g o (visits + n) l' ∧
        layers.IsChain (LeadsTo g) := by
  induction n generalizing visits l before with
  | zero => exact ⟨l, before, rfl, hl, hchain⟩
  | succ n ih =>
    refine (next_spec hpos hends hl).bind ?_
    rintro l' - ⟨hl', hleads⟩
    rw [show visits + (n + 1) = visits + 1 + n by omega]
    exact ih (Nat.succ_pos visits) hl' (List.isChain_cons_cons.mpr ⟨hleads, hchain⟩)

/-! ### The way to the sink -/

/-- The weight of a way to the sink bounds a given weight. -/
def ExitBounds (o : Objective) (best : Option (Nat × Nat)) (weight : Nat) : Prop :=
  ∃ v i, best = some (v, i) ∧ o.Bounds v weight

/-- The better one of two ways. -/
theorem exit_offer (best : Option (Nat × Nat)) :
    let new := if o.improves w (best.map (·.1)) then some (w, i) else best
    ExitBounds o new w ∧ (∀ weight, ExitBounds o best weight → ExitBounds o new weight) ∧
      ∀ v j, new = some (v, j) → best = some (v, j) ∨ j = i := by
  dsimp only
  split
  · rename_i himproves
    refine ⟨⟨w, i, rfl, .refl o w⟩, ?_, fun v j h => .inr ?_⟩
    · rintro weight ⟨v, j, rfl, hle⟩
      exact ⟨w, i, rfl, (Objective.Bounds.of_improves himproves).trans hle⟩
    · cases h
      rfl
  · rename_i himproves
    refine ⟨?_, fun _ h => h, fun v j h => .inl h⟩
    cases best with
    | none => exact absurd rfl himproves
    | some b => exact ⟨b.1, b.2, rfl, .of_not_improves himproves⟩

/-- The way to the sink is found if there is one, and its weight bounds all ways. -/
theorem exit_spec {visits : Nat} (hl : Bests g o visits l) :
    Ensures (· = .overflow) (exit g o l) fun best =>
      (∀ weight, Walks g o visits weight → ExitBounds o best weight) ∧
      ∀ v i, best = some (v, i) → ∃ j, l.edge? (Trail.startOf g i 0) = some j := by
  unfold exit
  -- a better way bounds all that the former one did
  refine (Ensures.foldlM
    (I := fun best => ∀ v i, best = some (v, i) → ∃ j, l.edge? (Trail.startOf g i 0) = some j)
    (R := fun best best' => ∀ weight, ExitBounds o best weight → ExitBounds o best' weight)
    (Q := fun i best => ∀ (e : Edge) n w, g.edges[i]? = some e → e.start = .node n →
      l.weight? n = some w → ExitBounds o best (w + e.weight o))
    (fun _ _ h => h) (fun hst htu weight h => htu weight (hst weight h))
    (fun hst hs e n w he hn hw => hst _ (hs e n w he hn hw)) ?_ ?_).imp ?_
  rotate_left
  · nofun
  · rintro best - ⟨hentry, -, hall⟩
    refine ⟨?_, hentry⟩
    rintro weight ⟨n, w, i, e, hreach, hi, he, hn, rfl⟩
    obtain ⟨b, hb, hle⟩ := hl.bounds hreach
    obtain ⟨v, j, hv, hle'⟩ := hall i hi e n b he hn hb
    exact ⟨v, j, hv, hle'.trans hle.add_right⟩
  · intro i _ best hbest
    split
    · rename_i e he
      split
      · rename_i n hn
        split
        · rename_i w hw
          refine (Word.ensures_add _ _).bind ?_
          rintro _ - rfl
          obtain ⟨hself, hkept, hcases⟩ := exit_offer best (o := o) (w := w + e.weight o)
            (i := i)
          refine ⟨fun v j hj => ?_, hkept, fun e' n' w' he' hn' hw' => ?_⟩
          · rcases hcases v j hj with hold | rfl
            · exact hbest v j hold
            · rw [Trail.startOf, he, Option.map_some, hn]
              exact exists_edge?.mpr ⟨w, hw⟩
          · obtain rfl := Option.some.inj (he.symm.trans he')
            obtain rfl := Endpoint.node.inj (hn.symm.trans hn')
            obtain rfl := Option.some.inj (hw.symm.trans hw')
            exact hself
        · rename_i hw
          refine ⟨hbest, fun _ h => h, fun e' n' w' he' hn' hw' => ?_⟩
          obtain rfl := Option.some.inj (he.symm.trans he')
          obtain rfl := Endpoint.node.inj (hn.symm.trans hn')
          rw [hw] at hw'
          cases hw'
      · rename_i hother
        refine ⟨hbest, fun _ h => h, fun e' n' w' he' hn' => ?_⟩
        obtain rfl := Option.some.inj (he.symm.trans he')
        exact absurd hn' (hother n')
    · rename_i he
      refine ⟨hbest, fun _ h => h, fun e' n' w' he' => ?_⟩
      rw [he] at he'
      cases he'

end Layer

/-- A walk can be followed back through layers that lead back. -/
theorem Trail.exists_follow {layers : List Layer} (hchain : layers.IsChain (Layer.LeadsTo g))
    {t : Trail} (hhead : ∀ l ∈ layers.head?, ∃ i, l.edge? t.position = some i) :
    ∃ t', Trail.follow g layers t = .ok t' := by
  induction layers generalizing t with
  | nil => exact ⟨t, rfl⟩
  | cons l rest ih =>
    obtain ⟨i, hi⟩ := hhead l rfl
    have hstep : Trail.step g t l =
        .ok ({ t with nodes := t.nodes.modify t.position (· + 1) }.back g i) := by
      rw [Trail.step, hi]
    -- the edge of an entry starts at a node that the next layer knows
    have hnext : ∀ prev ∈ rest.head?, ∃ j, prev.edge? (Trail.startOf g i t.position) = some j := by
      intro prev hprev
      cases rest with
      | nil => cases hprev
      | cons l' rest =>
        obtain rfl := Option.some.inj hprev
        exact (List.isChain_cons_cons.mp hchain).1 t.position i hi
    obtain ⟨t', ht'⟩ := ih hchain.of_cons
      (t := { t with nodes := t.nodes.modify t.position (· + 1) }.back g i) hnext
    exact ⟨t', foldlM_cons_eq_ok.mpr ⟨_, hstep, ht'⟩⟩

/-- The search for the best walk has an answer that bounds all walks, unless it overflows. -/
theorem bestWalk_spec {units : Nat} (hpos : 0 < units)
    (hends : ∀ {i : Nat} {e : Edge}, g.edges[i]? = some e → g.Exists e.finish)
    (hwalk : ∃ weight, Walks g o units weight) :
    Ensures (· = .fault .overflow) (bestWalk g o units).result fun solution =>
      ∀ weight, Walks g o units weight → o.Bounds solution.value weight := by
  have hfault : ∀ c : Fault, c = .overflow → (Failure.fault c : Failure SolverError) =
      .fault .overflow := fun _ => congrArg Failure.fault
  rw [bestWalk, if_neg (Nat.ne_of_gt hpos)]
  simp only [Traced.result_bind, Traced.result_liftM_except]
  refine ((Layer.first_spec hends).mapError hfault).bind ?_
  intro first _ hfirst
  refine ((Layer.stack_spec Nat.one_pos hends hfirst (.singleton first)
    (units - 1)).mapError hfault).bind ?_
  rintro _ - ⟨l, rest, rfl, hbests, hchain⟩
  rw [Nat.add_sub_cancel' hpos] at hbests
  refine ((Layer.exit_spec hbests).mapError hfault).bind ?_
  rintro best - ⟨hbounds, hentry⟩
  -- there is a walk, so a way to the sink is found, and it can be followed back
  obtain ⟨weight, hweight⟩ := hwalk
  obtain ⟨v, i, rfl, -⟩ := hbounds weight hweight
  obtain ⟨trail, htrail⟩ := Trail.exists_follow hchain (t := (Trail.start g).back g i) (by
    rintro _ ⟨⟩
    exact hentry v i rfl)
  refine Ensures.of_ok (a := { value := v, flow := some trail.flow }) ?_ fun weight hweight => ?_
  · simp only [Traced.result_bind, htrail]
    rfl
  · obtain ⟨v', i', heq, hle⟩ := hbounds weight hweight
    cases heq
    exact hle

end CycleBounds.Offset
