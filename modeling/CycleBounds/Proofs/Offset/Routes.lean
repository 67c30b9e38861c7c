import CycleBounds.Proofs.Offset.Built
import CycleBounds.Proofs.Offset.Walk
import Mathlib.Algebra.Order.BigOperators.Group.List
import Mathlib.Algebra.Order.Ring.Nat

/-!
# Routes and the layers behind them

A route lists the edges and the nodes of a walk from an end to the sink, and its weight adds up all
of them with multiplicity. Every entry of a layer is backed by an entry of the layer before or, in
the first layer, by the source (`Layer.Backed`). So following the layers back from the sink prepends
one edge and one node at a time to a route, which at the end starts at the source, and the counts on
the way are those of the route.

* `Route.walks`: a route from the source is a walk of its weight.
* `Layer.stack_backed`, `Layer.exit_backed`: the layers of a search and its way to the sink.
* `Trail.follow_spec`: the layers lead back along a route.
* `bestWalk_attained`: the answer of a search is the weight of a route, with its counts.
-/

namespace CycleBounds.Offset

/-! ### Routes -/

namespace Graph

variable {g : Graph} {o : Objective} {i n : Nat}

def edgeWeight (g : Graph) (o : Objective) (i : Nat) : Nat :=
  (g.edges[i]?.map (·.weight o)).getD 0

def nodeWeight (g : Graph) (o : Objective) (n : Nat) : Nat :=
  (g.nodes[n]?.map (·.weight o)).getD 0

theorem edgeWeight_eq {e : Edge} (h : g.edges[i]? = some e) : g.edgeWeight o i = e.weight o := by
  rw [edgeWeight, h]
  rfl

theorem nodeWeight_eq {m : Node} (h : g.nodes[n]? = some m) : g.nodeWeight o n = m.weight o := by
  rw [nodeWeight, h]
  rfl

def weightOf (g : Graph) (o : Objective) (is ns : List Nat) : Nat :=
  (is.map (g.edgeWeight o)).sum + (ns.map (g.nodeWeight o)).sum

theorem weightOf_cons (is ns : List Nat) : g.weightOf o (i :: is) (n :: ns) =
    g.edgeWeight o i + g.nodeWeight o n + g.weightOf o is ns := by
  simp only [weightOf, List.map_cons, List.sum_cons]
  omega

/-- How often edges and nodes occur in two lists. -/
def flowOf (g : Graph) (is ns : List Nat) : Flow where
  edges := (List.range g.edges.size).map fun i => is.count i
  nodes := (List.range g.nodes.size).map fun n => ns.count n

end Graph

/-- A way from an end to the sink: the edges that it takes and the nodes that it visits. -/
inductive Route (g : Graph) : Endpoint → (edges nodes : List Nat) → Prop
  | exit {u : Endpoint} {i : Nat} : g.start? i = some u → g.finish? i = some .sink →
      Route g u [i] []
  | visit {u : Endpoint} {i n : Nat} {is ns : List Nat} : g.start? i = some u →
      g.finish? i = some (.node n) → Route g (.node n) is ns → Route g u (i :: is) (n :: ns)

variable {g : Graph} {o : Objective} {is ns : List Nat} {u : Endpoint}

theorem Graph.start?_eq_some {i : Nat} : g.start? i = some u ↔
    ∃ e, g.edges[i]? = some e ∧ e.start = u :=
  Option.map_eq_some_iff

theorem Graph.finish?_eq_some {i : Nat} : g.finish? i = some u ↔
    ∃ e, g.edges[i]? = some e ∧ e.finish = u :=
  Option.map_eq_some_iff

/-- An edge with both its ends. -/
theorem Graph.exists_edge {v : Endpoint} {i : Nat} (hstart : g.start? i = some u)
    (hfinish : g.finish? i = some v) :
    ∃ e, g.edges[i]? = some e ∧ e.start = u ∧ e.finish = v := by
  obtain ⟨e, he, hu⟩ := start?_eq_some.mp hstart
  obtain ⟨e', he', hv⟩ := finish?_eq_some.mp hfinish
  obtain rfl := Option.some.inj (he.symm.trans he')
  exact ⟨e, he, hu, hv⟩

namespace Route

/-- A route after a walk to the node at which it starts. -/
theorem extends_walk (hg : g.Registered) (h : Route g u is ns) {n k w : Nat} (hn : u = .node n)
    (hreach : Reaches g o k n w) : Walks g o (k + ns.length) (w + g.weightOf o is ns) := by
  induction h generalizing n k w with
  | @exit u i hstart hfinish =>
    subst hn
    obtain ⟨e, he, hu, -⟩ := g.exists_edge hstart hfinish
    have hsink : i ∈ g.sinks := hg.mem_arriving.mpr hfinish
    refine ⟨n, w, i, e, hreach, hsink, he, hu, ?_⟩
    simp [Graph.weightOf, Graph.edgeWeight_eq he]
  | @visit u i m is ns hstart hfinish _ ih =>
    subst hn
    obtain ⟨e, he, hu, hm⟩ := g.exists_edge hstart hfinish
    have hnode := Array.getElem?_eq_getElem (hg.exists_finish he m hm)
    have hnext := ih rfl (hreach.next he hu hm hnode)
    rw [Graph.weightOf_cons, Graph.edgeWeight_eq he, Graph.nodeWeight_eq hnode, List.length_cons]
    rwa [Nat.add_assoc k, Nat.add_comm 1, Nat.add_assoc w, Nat.add_assoc w] at hnext

/-- A route from the source that visits nodes is a walk of its weight. -/
theorem walks (hg : g.Registered) (h : Route g .source is ns) (hpos : 0 < ns.length) :
    Walks g o ns.length (g.weightOf o is ns) := by
  cases h with
  | exit => cases hpos
  | @visit _ i n is ns hstart hfinish hrest =>
    obtain ⟨e, he, hu, hn⟩ := g.exists_edge hstart hfinish
    have hnode := Array.getElem?_eq_getElem (hg.exists_finish he n hn)
    have hsource : i ∈ g.sources := hg.mem_leaving.mpr hstart
    have hwalk := hrest.extends_walk hg rfl (Reaches.first (o := o) hsource he hn hnode)
    rw [Graph.weightOf_cons, Graph.edgeWeight_eq he, Graph.nodeWeight_eq hnode, List.length_cons,
      Nat.add_comm ns.length]
    exact hwalk

end Route

/-! ### Overflows -/

/-- Some walk from the source with at most a number of visits, to a node or to the sink, is too
heavy to be weighed. -/
def Graph.Overweight (g : Graph) (o : Objective) (units : Nat) : Prop :=
  ∃ visits ≤ units, ∃ weight, Word.limit ≤ weight ∧
    ((∃ n, Reaches g o visits n weight) ∨ Walks g o visits weight)

/-- A search overflows only if some walk is too heavy. -/
def TooHeavy (g : Graph) (o : Objective) (units : Nat) (cause : Fault) : Prop :=
  cause = .overflow ∧ g.Overweight o units

namespace Layer

variable {l prev : Layer} {layers : List Layer} {n w i b units : Nat} {e : Edge} {m : Node}

/-! ### Entries -/

/-- The best weight at an end, by the latest layer: nothing at the source if there is no layer. -/
def weightAt (latest : Option Layer) : Endpoint → Option Nat
  | .source => if latest.isNone then some 0 else none
  | .node n => latest.bind (·.weight? n)
  | .sink => none

/-- A walk that is known by the latest layer, extended by an edge, enters a node with a weight. -/
def Enters (g : Graph) (o : Objective) (latest : Option Layer) (n w i : Nat) : Prop :=
  ∃ u b, g.start? i = some u ∧ g.finish? i = some (.node n) ∧ weightAt latest u = some b ∧
    w = b + g.edgeWeight o i + g.nodeWeight o n

/-- All entries of a layer extend walks that are known by another layer. -/
def Extends (g : Graph) (o : Objective) (l : Layer) (latest : Option Layer) : Prop :=
  ∀ n w i, l[n]? = some (some (w, i)) → Enters g o latest n w i

/-- Every layer extends the one before, and the first one what is known at the source. -/
def Backed (g : Graph) (o : Objective) : List Layer → Prop
  | [] => True
  | l :: before => Extends g o l before.head? ∧ Backed g o before

theorem extends_blank (latest : Option Layer) : Extends g o (blank g) latest := by
  intro n w i h
  simp [blank, Array.getElem?_replicate] at h

/-- An entry gives the edge and the node that it adds to a walk. -/
theorem Enters.exists_edge (hg : g.Registered) {latest : Option Layer}
    (h : Enters g o latest n w i) : ∃ e m b, g.edges[i]? = some e ∧ e.finish = .node n ∧
      g.nodes[n]? = some m ∧ weightAt latest e.start = some b ∧
      w = b + e.weight o + m.weight o := by
  obtain ⟨u, b, hu, hn, hb, rfl⟩ := h
  obtain ⟨e, he, rfl, hfinish⟩ := g.exists_edge hu hn
  have hnode := Array.getElem?_eq_getElem (hg.exists_finish he n hfinish)
  refine ⟨e, _, b, he, hfinish, hnode, hb, ?_⟩
  rw [Graph.edgeWeight_eq he, Graph.nodeWeight_eq hnode]

/-- A walk that backed layers know, extended by an edge, reaches the node where the edge ends. -/
theorem Backed.reaches (hg : g.Registered) (h : Backed g o layers)
    (hb : weightAt layers.head? e.start = some b) (hi : g.edges[i]? = some e)
    (hn : e.finish = .node n) (hm : g.nodes[n]? = some m) :
    Reaches g o (layers.length + 1) n (b + e.weight o + m.weight o) := by
  -- each layer backs its entries by edges from the layer before, the last one by edges of the
  -- source
  induction layers generalizing b i n e m with
  | nil =>
    cases hstart : e.start with
    | source =>
      rw [hstart] at hb
      obtain rfl := Option.some.inj hb
      rw [Nat.zero_add]
      exact .first (hg.mem_leaving.mpr (Graph.start?_eq_some.mpr ⟨e, hi, hstart⟩)) hi hn hm
    | node k | sink =>
      rw [hstart] at hb
      cases hb
  | cons l before ih =>
    obtain ⟨hl, hbefore⟩ := h
    cases hstart : e.start with
    | source | sink =>
      rw [hstart] at hb
      cases hb
    | node k =>
      rw [hstart] at hb
      obtain ⟨j, hj⟩ := weight?_eq_some_iff.mp hb
      obtain ⟨e', m', b', he', hk, hm', hb', rfl⟩ := (hl k b j hj).exists_edge hg
      exact (ih hbefore hb' he' hk hm').next hi hstart hn hm

/-- An extension offers one entry and overflows only by its weight. -/
theorem extend_entries (hm : g.nodes[n]? = some m) :
    Ensures (fun c => c = .overflow ∧ Word.limit ≤ b + e.weight o + m.weight o)
      (l.extend g o b i e n) fun l' => ∀ k x, l'[k]? = some (some x) →
        l[k]? = some (some x) ∨ k = n ∧ x = (b + e.weight o + m.weight o, i) := by
  unfold extend
  refine ((Word.ensures_add_limit _ _).allow ?_).bind ?_
  · rintro c ⟨rfl, hge⟩
    exact ⟨rfl, Nat.le_add_right_of_le hge⟩
  rintro _ - rfl
  refine (Ensures.of_ok (Graph.node_eq_ok.mpr hm) rfl).bind ?_
  rintro _ - rfl
  refine (Word.ensures_add_limit _ _).bind ?_
  rintro _ - rfl
  show ∀ k x, (l.offer o n (b + e.weight o + m.weight o) i)[k]? = _ → _
  intro k x hx
  unfold offer at hx
  split at hx
  · rw [Array.getElem?_setIfInBounds] at hx
    split at hx
    · split at hx
      · rename_i hk _
        exact .inr ⟨hk.symm, (Option.some.inj (Option.some.inj hx)).symm⟩
      · cases hx
    · exact .inl hx
  · exact .inl hx

/-- One more extension of what backed layers know. -/
theorem extend_extends (hg : g.Registered) (h : Backed g o layers)
    (hunits : layers.length + 1 ≤ units) (hl : Extends g o l layers.head?)
    (hb : weightAt layers.head? e.start = some b) (hi : g.edges[i]? = some e)
    (hn : e.finish = .node n) :
    Ensures (TooHeavy g o units) (l.extend g o b i e n) (Extends g o · layers.head?) := by
  have hnode := Array.getElem?_eq_getElem (hg.exists_finish hi n hn)
  refine ((extend_entries hnode).allow ?_).imp ?_
  · rintro c ⟨rfl, hge⟩
    exact ⟨rfl, _, hunits, _, hge, .inl ⟨n, h.reaches hg hb hi hn hnode⟩⟩
  · intro l' _ hentries k w j hj
    rcases hentries k (w, j) hj with hold | ⟨rfl, hnew⟩
    · exact hl k w j hold
    · obtain ⟨rfl, rfl⟩ := Prod.mk.inj hnew
      refine ⟨e.start, b, Graph.start?_eq_some.mpr ⟨e, hi, rfl⟩,
        Graph.finish?_eq_some.mpr ⟨e, hi, hn⟩, hb, ?_⟩
      rw [Graph.edgeWeight_eq hi, Graph.nodeWeight_eq hnode]

/-! ### Layers -/

/-- The first layer is backed by routes of one edge. -/
theorem first_backed (hg : g.Registered) (hunits : 1 ≤ units) :
    Ensures (TooHeavy g o units) (first g o) fun l => Backed g o [l] := by
  unfold first
  refine (Ensures.foldlM_keep (I := (Extends g o · none)) ?_ (extends_blank none)).imp
    fun l _ hl => ⟨hl, trivial⟩
  intro i hi l hl
  split
  · rename_i e he
    have hstart : e.start = .source := by
      obtain ⟨e', he', h⟩ := Graph.start?_eq_some.mp ((hg.mem_leaving (u := .source)).mp hi)
      exact Option.some.inj (he.symm.trans he') ▸ h
    split
    · rename_i n hn
      have hnone : Backed g o [] := trivial
      refine extend_extends hg hnone hunits hl ?_ he hn
      rw [hstart]
      rfl
    · exact hl
  · exact hl

/-- A layer is backed by routes that are one edge longer than those of the layer before. -/
theorem next_backed (hg : g.Registered) {before : List Layer} (h : Backed g o (prev :: before))
    (hunits : before.length + 2 ≤ units) :
    Ensures (TooHeavy g o units) (next g o prev) fun l => Backed g o (l :: prev :: before) := by
  unfold next
  refine (Ensures.foldlM_keep (I := (Extends g o · (some prev))) ?_
    (extends_blank (some prev))).imp fun l _ hl => ⟨hl, h⟩
  rintro ⟨e, i⟩ hmem l hl
  have he : g.edges[i]? = some e := by
    rw [← Array.getElem?_toList]
    exact List.mk_mem_zipIdx_iff_getElem?.mp hmem
  dsimp only
  split
  · rename_i k n hk hn
    split
    · rename_i w hw
      refine extend_extends hg h hunits hl ?_ he hn
      rw [hk]
      exact hw
    · exact hl
  · exact hl

/-- A stack of layers is backed from the first layer on. -/
theorem stack_backed (hg : g.Registered) {before : List Layer} (h : Backed g o (l :: before))
    (k : Nat) (hunits : before.length + 1 + k ≤ units) :
    Ensures (TooHeavy g o units) (stack g o k l before) fun layers =>
      Backed g o layers ∧ layers.length = before.length + 1 + k := by
  induction k generalizing l before with
  | zero => exact ⟨h, rfl⟩
  | succ k ih =>
    refine (next_backed hg h (by omega)).bind fun l' _ hl' => ?_
    refine (ih hl' (by simp only [List.length_cons]; omega)).imp ?_
    rintro layers - ⟨hbacked, hlength⟩
    refine ⟨hbacked, hlength.trans ?_⟩
    simp only [List.length_cons]
    omega

/-- The way to the sink extends a walk that the latest layer knows. -/
theorem exit_backed (hg : g.Registered) (h : Backed g o (l :: layers))
    (hunits : layers.length + 1 = units) :
    Ensures (TooHeavy g o units) (exit g o l) fun best => ∀ v i, best = some (v, i) →
      ∃ n w, g.start? i = some (.node n) ∧ g.finish? i = some .sink ∧ l.weight? n = some w ∧
        v = w + g.edgeWeight o i := by
  unfold exit
  refine Ensures.foldlM_keep ?_ (by rintro v i ⟨⟩)
  intro i hi best hbest
  split
  · rename_i e he
    split
    · rename_i n hn
      split
      · rename_i w hw
        refine ((Word.ensures_add_limit _ _).allow ?_).bind ?_
        · rintro c ⟨rfl, hge⟩
          -- the walk to the node is one that the layers back
          obtain ⟨j, hj⟩ := weight?_eq_some_iff.mp hw
          obtain ⟨e', m, b, he', hfinish, hm, hb, rfl⟩ := (h.1 n w j hj).exists_edge hg
          have hreach := h.2.reaches hg hb he' hfinish hm
          exact ⟨rfl, _, Nat.le_of_eq hunits, _, hge, .inr ⟨n, _, i, e, hreach, hi, he, hn, rfl⟩⟩
        · rintro _ - rfl
          intro v j hj
          split at hj
          · obtain ⟨rfl, rfl⟩ := Prod.mk.inj (Option.some.inj hj)
            refine ⟨n, w, Graph.start?_eq_some.mpr ⟨e, he, hn⟩,
              (hg.mem_arriving (u := .sink)).mp hi, hw, ?_⟩
            rw [Graph.edgeWeight_eq he]
          · exact hbest v j hj
      · exact hbest
    · exact hbest
  · exact hbest

end Layer

/-! ### The way back -/

namespace Trail

variable {t : Trail} {layers : List Layer}

/-- Counting one more use. -/
theorem counts_modify {counts : Array Nat} {used : List Nat} {size : Nat}
    (h : counts.toList = (List.range size).map fun j => used.count j) (i : Nat) :
    (counts.modify i (· + 1)).toList = (List.range size).map fun j => (i :: used).count j := by
  apply List.ext_getElem?
  intro j
  rw [Array.toList_modify, List.getElem?_modify, h, List.getElem?_map, List.getElem?_map]
  by_cases hj : j < size
  · rw [List.getElem?_range hj]
    by_cases hij : i = j
    · simp [hij]
    · simp [hij, List.count_cons_of_ne hij]
  · rw [List.getElem?_eq_none (by simpa using hj)]
    rfl

theorem flow_start : (start g).flow = g.flowOf [] [] := by
  simp [flow, start, Graph.flowOf]

theorem flow_back (h : t.flow = g.flowOf is ns) (i : Nat) :
    (t.back g i).flow = g.flowOf (i :: is) ns := by
  obtain ⟨hedges, hnodes⟩ := Flow.mk.inj h
  exact congrArg₂ Flow.mk (counts_modify hedges i) hnodes

theorem flow_visit (h : t.flow = g.flowOf is ns) (n : Nat) :
    ({ t with nodes := t.nodes.modify n (· + 1) } : Trail).flow = g.flowOf is (n :: ns) := by
  obtain ⟨hedges, hnodes⟩ := Flow.mk.inj h
  exact congrArg₂ Flow.mk hedges (counts_modify hnodes n)

theorem startOf_eq {i n : Nat} (h : g.start? i = some (.node n)) (position : Nat) :
    startOf g i position = n := by
  rw [Graph.start?] at h
  rw [startOf, h]

/-- Backed layers lead from a known end of a route back to the source: each layer prepends the edge
and the node of its entry. -/
theorem follow_spec (hbacked : Layer.Backed g o layers) {w : Nat}
    (hw : Layer.weightAt layers.head? u = some w) (hroute : Route g u is ns)
    (hposition : ∀ n, u = .node n → t.position = n) (hflow : t.flow = g.flowOf is ns) :
    ∃ t' is' ns', follow g layers t = .ok t' ∧ Route g .source is' ns' ∧
      ns'.length = layers.length + ns.length ∧
      g.weightOf o is' ns' = w + g.weightOf o is ns ∧ t'.flow = g.flowOf is' ns' := by
  -- the route is put together from its end, one layer after the other
  induction layers generalizing t u w is ns with
  | nil =>
    cases u with
    | node n | sink => cases hw
    | source =>
      obtain rfl := Option.some.inj hw
      refine ⟨t, is, ns, rfl, hroute, ?_, ?_, hflow⟩
      · rw [List.length_nil, Nat.zero_add]
      · rw [Nat.zero_add]
  | cons l before ih =>
    obtain ⟨hl, hbefore⟩ := hbacked
    cases u with
    | source | sink => cases hw
    | node n =>
      obtain ⟨i, hi⟩ := Layer.weight?_eq_some_iff.mp hw
      obtain ⟨v, b, hstart, hfinish, hb, rfl⟩ := hl n w i hi
      obtain rfl : t.position = n := hposition n rfl
      have hstep : step g t l =
          .ok ({ t with nodes := t.nodes.modify t.position (· + 1) }.back g i) := by
        rw [step, Layer.edge?_eq_some_iff.mpr ⟨_, hi⟩]
      obtain ⟨t', is', ns', ht', hroute', hlength, hweight, hflow'⟩ := ih hbefore hb
        (.visit hstart hfinish hroute) (t := { t with
          nodes := t.nodes.modify t.position (· + 1) }.back g i)
        (by
          rintro k rfl
          exact startOf_eq hstart _)
        (flow_back (flow_visit hflow t.position) i)
      refine ⟨t', is', ns', foldlM_cons_eq_ok.mpr ⟨_, hstep, ht'⟩, hroute', ?_, ?_, hflow'⟩
      · rw [hlength, List.length_cons, List.length_cons]
        omega
      · rw [hweight, Graph.weightOf_cons]
        omega

end Trail

/-- Why a search has no answer: some walk is too heavy, or no way to the sink is found. -/
def GivesUp (g : Graph) (o : Objective) (units : Nat) (cause : Failure SolverError) : Prop :=
  cause = .fault .overflow ∧ g.Overweight o units ∨ cause = .error .infeasible

/-- The answer of a search is the weight of a route from the source, with its counts. -/
theorem bestWalk_attained (hg : g.Registered) {units : Nat} (hpos : 0 < units) :
    Ensures (GivesUp g o units) (bestWalk g o units).result fun solution =>
      ∃ is ns, Route g .source is ns ∧ ns.length = units ∧
        solution.value = g.weightOf o is ns ∧ solution.flow = some (g.flowOf is ns) := by
  have hfault : ∀ c, TooHeavy g o units c → GivesUp g o units (.fault c) := by
    rintro c ⟨rfl, hheavy⟩
    exact .inl ⟨rfl, hheavy⟩
  rw [bestWalk, if_neg (Nat.ne_of_gt hpos)]
  simp only [Traced.result_bind, Traced.result_liftM_except]
  refine ((Layer.first_backed hg hpos).mapError hfault).bind fun first _ hfirst => ?_
  refine ((Layer.stack_backed hg hfirst (units - 1)
    (by simp only [List.length_nil]; omega)).mapError hfault).bind ?_
  rintro layers - ⟨hbacked, hlength⟩
  rw [List.length_nil, Nat.zero_add, Nat.add_sub_cancel' hpos] at hlength
  cases layers with
  | nil => exact absurd hlength (Nat.ne_of_lt hpos)
  | cons l before =>
    refine ((Layer.exit_backed hg hbacked hlength).mapError hfault).bind fun best _ hbest => ?_
    cases best with
    | none => exact .inr rfl
    | some way =>
      obtain ⟨v, i⟩ := way
      obtain ⟨n, w, hstart, hfinish, hw, rfl⟩ := hbest v i rfl
      -- the way out is a route from its node to the sink, which the layers extend back to the
      -- source
      obtain ⟨t, is, ns, ht, hroute, hvisits, hweight, hflow⟩ := Trail.follow_spec (u := .node n)
        hbacked hw (.exit hstart hfinish) (t := (Trail.start g).back g i)
        (by
          rintro k ⟨⟩
          exact Trail.startOf_eq hstart _)
        (Trail.flow_back Trail.flow_start i)
      refine Ensures.of_ok (a := { value := w + g.edgeWeight o i, flow := some t.flow }) ?_
        ⟨is, ns, hroute, hvisits.trans hlength, ?_, congrArg some hflow⟩
      · simp only [Traced.result_bind, ht]
        rfl
      · rw [hweight]
        simp [Graph.weightOf]

end CycleBounds.Offset
