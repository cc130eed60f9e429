import Mathlib
import Transducer.Proofs.Path.Distance

/-!
# The course of a search

A search for best paths, without its heap and its numbers. The nodes that it deals with are the beginnings
of paths, to be extended, and the paths that end. A node waits until no other one promises more; then a
path that ends is found, and a beginning is extended, or capped if as many beginnings with the same last
state have been extended as there are paths to find.

`Trace.Coherent` is what holds whatever the distances are: no node comes twice, and the nodes that a beginning
leads to are there once it is extended. `Trace.Sound` is the invariant for distances that are exact: what has
left the queue does not promise less than what waits. The steps keep both of them (`Trace.Coherent.step`,
`Trace.Sound.step`).
-/

namespace Transducer.Automaton

open ExactCost Relaxation

/-! ### Beginnings of paths -/

/-- The beginning of a path: a way from the start. -/
structure Beginning {W : Type} (a : Automaton W) (start : Nat) where
  /-- The positions at which the states are left. -/
  places : List Nat
  /-- The arcs at these positions. -/
  arcs : List (Arc W)
  /-- The state reached. -/
  last : Nat
  way : a.Way start places arcs last

namespace Beginning

variable {W : Type} {a : Automaton W} {start : Nat}

theorem ext_places {p q : a.Beginning start} (h : p.places = q.places) : p = q := by
  obtain ⟨places, arcs, t, hw⟩ := p
  obtain ⟨places', arcs', t', hw'⟩ := q
  obtain rfl : places = places' := h
  obtain ⟨rfl, rfl⟩ := hw.unique hw'
  rfl

/-- Nothing yet. -/
def root (a : Automaton W) (start : Nat) : a.Beginning start := ⟨[], [], start, .nil start⟩

/-- One arc more. -/
def extend (p : a.Beginning start) {i : Nat} {arc : Arc W} (h : (a.arcsAt p.last)[i]? = some arc) :
    a.Beginning start :=
  ⟨p.places ++ [i], p.arcs ++ [arc], arc.target, p.way.append (.single h)⟩

theorem eq_of_extend_eq {p q : a.Beginning start} {i j : Nat} {arc arc' : Arc W}
    {h : (a.arcsAt p.last)[i]? = some arc} {h' : (a.arcsAt q.last)[j]? = some arc'}
    (heq : p.extend h = q.extend h') : p = q ∧ i = j := by
  obtain ⟨hplaces, hlast⟩ := List.append_inj' (congrArg places heq) rfl
  exact ⟨ext_places hplaces, (List.cons.inj hlast).1⟩

end Beginning

/-- A node of a search. -/
inductive Node {W : Type} (a : Automaton W) (start : Nat) where
  /-- The beginning of a path, which goes on. -/
  | onward (p : a.Beginning start)
  /-- A path that ends. -/
  | ended (p : a.Beginning start)

/-- The nodes that a beginning leads to: the path that ends there, and the beginnings with one arc more. -/
inductive Child {W : Type} {a : Automaton W} {start : Nat} : a.Beginning start → a.Node start → Prop where
  /-- Ending. -/
  | ended (p : a.Beginning start) : Child p (.ended p)
  /-- Going on. -/
  | onward (p : a.Beginning start) {i : Nat} {arc : Arc W} (h : (a.arcsAt p.last)[i]? = some arc) :
      Child p (.onward (p.extend h))

namespace Child

variable {W : Type} {a : Automaton W} {start : Nat} {p q : a.Beginning start} {x : a.Node start}

/-- A node comes from one beginning only. -/
theorem unique (h : Child p x) (h' : Child q x) : p = q := by
  cases h with
  | ended => cases h'; rfl
  | onward hi =>
    generalize hx : Node.onward (p.extend hi) = y at h'
    cases h' with
    | ended => cases hx
    | onward hj => exact (Beginning.eq_of_extend_eq (Node.onward.inj hx)).1

theorem not_root (p : a.Beginning start) : ¬Child p (.onward (.root a start)) := by
  intro h
  generalize hx : Node.onward (Beginning.root a start) = x at h
  cases h with
  | ended => cases hx
  | onward hi =>
    have hplaces : [] = p.places ++ [_] := congrArg Beginning.places (Node.onward.inj hx)
    simp at hplaces

end Child

/-! ### Traces -/

/-- Where a search stands. -/
structure Trace {W : Type} (a : Automaton W) (start : Nat) where
  /-- The nodes in the queue. -/
  waiting : Multiset (a.Node start)
  /-- The beginnings that have been extended. -/
  expanded : Multiset (a.Beginning start)
  /-- The beginnings that were not extended. -/
  capped : Multiset (a.Beginning start)
  /-- The paths found, the last one first. -/
  finished : List (a.Beginning start)

namespace Trace

variable {W : Type} {a : Automaton W} {start : Nat}

/-- The nodes that have left the queue. -/
def closed (T : a.Trace start) : Multiset (a.Node start) :=
  T.expanded.map .onward + T.capped.map .onward + (T.finished : Multiset (a.Beginning start)).map .ended

/-- All nodes that there have been. -/
def nodes (T : a.Trace start) : Multiset (a.Node start) :=
  T.waiting + T.closed

/-- Before the first step. -/
def init (a : Automaton W) (start : Nat) : a.Trace start :=
  ⟨{.onward (.root a start)}, 0, 0, []⟩

variable {T : a.Trace start} {p : a.Beginning start} {x : a.Node start} {waiting : Multiset (a.Node start)}

theorem nodes_eq_of_waiting (hw : T.waiting = x ::ₘ waiting) : T.nodes = x ::ₘ (waiting + T.closed) := by
  rw [nodes, hw, Multiset.cons_add]

theorem mem_nodes_of_waiting (hw : T.waiting = x ::ₘ waiting) : x ∈ T.nodes := by
  rw [nodes_eq_of_waiting hw]
  exact Multiset.mem_cons_self _ _

theorem closed_finish :
    ({ T with waiting, finished := p :: T.finished } : a.Trace start).closed = .ended p ::ₘ T.closed := by
  rw [closed, closed, ← Multiset.cons_coe, Multiset.map_cons, Multiset.add_cons]

theorem closed_cap :
    ({ T with waiting, capped := p ::ₘ T.capped } : a.Trace start).closed = .onward p ::ₘ T.closed := by
  rw [closed, closed, Multiset.map_cons, Multiset.add_cons, Multiset.cons_add]

theorem closed_expand :
    ({ T with waiting, expanded := p ::ₘ T.expanded } : a.Trace start).closed = .onward p ::ₘ T.closed := by
  rw [closed, closed, Multiset.map_cons, Multiset.cons_add, Multiset.cons_add]

theorem mem_closed_of_expanded (hp : p ∈ T.expanded) : .onward p ∈ T.closed := by
  simp [closed, hp]

end Trace

/-! ### What a node promises -/

variable {K : Type} [AddCommGroup K] [LinearOrder K] {a : Automaton (ExactCost K)} {start : Nat}
  {d : Array (ExactCost K)}

/-- What the best path through a node costs, by the given distances. -/
def promise (d : Array (ExactCost K)) : a.Node start → WithTop K
  | .onward p => total p.arcs + costAt d p.last
  | .ended p => total p.arcs + orTop (a.final? p.last)

/-- Whether a path through a node can be accepted, by the given distances. -/
def Viable (d : Array (ExactCost K)) : a.Node start → Prop
  | .onward p => costAt d p.last ≠ ⊤
  | .ended p => ∃ final, a.final? p.last = some final

/-- The viable nodes that a beginning leads to. -/
def children (d : Array (ExactCost K)) (p : a.Beginning start) : List (a.Node start) :=
  ((a.final? p.last).toList.map fun _ => .ended p) ++
    (List.finRange (a.arcsAt p.last).size).filterMap fun i =>
      if isZero (d.getD (a.arcsAt p.last)[i].target 0) then none
      else some (.onward (p.extend (Array.getElem?_eq_getElem i.isLt)))

theorem mem_children {p : a.Beginning start} {x : a.Node start} :
    x ∈ children d p ↔ Child p x ∧ Viable d x := by
  simp only [children, List.mem_append, List.mem_map, List.mem_filterMap, List.mem_finRange, true_and,
    Option.mem_toList]
  constructor
  · rintro (⟨final, hf, rfl⟩ | ⟨i, hi⟩)
    · exact ⟨.ended p, final, hf⟩
    · split at hi
      · cases hi
      · next hzero =>
        obtain rfl := Option.some.inj hi
        exact ⟨.onward p _, fun htop => hzero ((isZero_iff _).2 htop)⟩
  · rintro ⟨h, hviable⟩
    cases h with
    | ended =>
      obtain ⟨final, hf⟩ := hviable
      exact .inl ⟨final, hf, rfl⟩
    | @onward i arc h =>
      obtain ⟨hlt, rfl⟩ := Array.getElem?_eq_some_iff.1 h
      refine .inr ⟨⟨i, hlt⟩, if_neg fun hzero => hviable ((isZero_iff _).1 hzero)⟩

theorem nodup_children (d : Array (ExactCost K)) (p : a.Beginning start) : (children d p).Nodup := by
  refine List.nodup_append.2 ⟨?_, ?_, ?_⟩
  · cases a.final? p.last with
    | none => exact List.nodup_nil
    | some final => exact List.nodup_singleton _
  · refine (List.nodup_finRange _).filterMap ?_
    intro i j x hi hj
    split at hi
    · cases hi
    · split at hj
      · cases hj
      · have heq := (Option.some.inj hi).trans (Option.some.inj hj).symm
        exact Fin.ext (Beginning.eq_of_extend_eq (Node.onward.inj heq)).2
  · intro x hx y hy hxy
    obtain ⟨_, -, rfl⟩ := List.mem_map.1 hx
    obtain ⟨i, -, hi⟩ := List.mem_filterMap.1 hy
    split at hi
    · cases hi
    · rw [← hxy] at hi
      cases hi

theorem length_children_le (d : Array (ExactCost K)) (p : a.Beginning start) :
    (children d p).length ≤ 1 + (a.arcsAt p.last).size := by
  rw [children, List.length_append, List.length_map]
  refine Nat.add_le_add ?_ ?_
  · cases a.final? p.last with
    | none => exact Nat.zero_le 1
    | some final => exact le_rfl
  · exact (List.length_filterMap_le _ _).trans_eq (List.length_finRange)

/-- No node promises more than the beginning that it comes from. -/
theorem promise_le_of_child [IsOrderedAddMonoid K] (hd : a.Backward 0 d) {p : a.Beginning start} {x : a.Node start}
    (h : Child p x) : promise d (.onward p) ≤ promise d x := by
  cases h with
  | ended =>
    show total p.arcs + costAt d p.last ≤ total p.arcs + orTop (a.final? p.last)
    refine add_le_add_right ?_ _
    cases hf : a.final? p.last with
    | none => exact le_top
    | some final => exact hd.le_final hf
  | @onward i arc h =>
    show total p.arcs + costAt d p.last ≤ total (p.arcs ++ [arc]) + costAt d arc.target
    rw [total_append, total_cons, total_nil, add_zero, add_assoc]
    refine add_le_add_right ?_ _
    have hle := hd.le_arc arc (Array.mem_of_getElem? h)
    rwa [WithTop.coe_zero, add_zero] at hle

/-! ### Steps -/

namespace Trace

/-- One step of a search for `n` paths, with a node that promises no less than the others that wait. -/
inductive Step (d : Array (ExactCost K)) (n : Nat) (T : a.Trace start) : a.Trace start → Prop where
  /-- A path is found. -/
  | finish {p : a.Beginning start} {waiting : Multiset (a.Node start)} :
      T.waiting = .ended p ::ₘ waiting → (∀ y ∈ waiting, promise d (.ended p) ≤ promise d y) →
        Step d n T { T with waiting, finished := p :: T.finished }
  /-- A beginning is not extended, as its last state has been extended often enough. -/
  | cap {p : a.Beginning start} {waiting : Multiset (a.Node start)} :
      T.waiting = .onward p ::ₘ waiting → (∀ y ∈ waiting, promise d (.onward p) ≤ promise d y) →
        n ≤ T.expanded.countP (·.last = p.last) →
        Step d n T { T with waiting, capped := p ::ₘ T.capped }
  /-- A beginning is extended. -/
  | expand {p : a.Beginning start} {waiting : Multiset (a.Node start)} :
      T.waiting = .onward p ::ₘ waiting → (∀ y ∈ waiting, promise d (.onward p) ≤ promise d y) →
        T.expanded.countP (·.last = p.last) < n →
        Step d n T
          { T with waiting := (children d p : Multiset (a.Node start)) + waiting,
                   expanded := p ::ₘ T.expanded }

/-- There are `n` extended beginnings with the given last state that cost no more than `x`. -/
def Rich (n : Nat) (T : a.Trace start) (v : Nat) (x : WithTop K) : Prop :=
  ∃ ps : Multiset (a.Beginning start), ps.Nodup ∧ n ≤ ps.card ∧
    ∀ p ∈ ps, p ∈ T.expanded ∧ p.last = v ∧ total p.arcs ≤ x

/-- What a search for `n` paths keeps whatever the distances are. -/
structure Coherent (d : Array (ExactCost K)) (n : Nat) (T : a.Trace start) : Prop where
  nodup : T.nodes.Nodup
  viable : ∀ x ∈ T.nodes, Viable d x
  root_mem : .onward (.root a start) ∈ T.nodes
  child_mem : ∀ p ∈ T.expanded, ∀ x, Child p x → Viable d x → x ∈ T.nodes
  parent_mem : ∀ x ∈ T.nodes, ∀ p, Child p x → p ∈ T.expanded
  le_countP : ∀ p ∈ T.capped, n ≤ T.expanded.countP (·.last = p.last)
  countP_le : ∀ v, T.expanded.countP (·.last = v) ≤ n
  card_le : T.nodes.card ≤ 1 + (T.expanded.map fun p => 1 + (a.arcsAt p.last).size).sum

/-- The invariant of a search for `n` paths, if no arc leads to a node that promises less. -/
structure Sound (d : Array (ExactCost K)) (n : Nat) (T : a.Trace start) : Prop extends Coherent d n T where
  rich_of_capped : ∀ p ∈ T.capped, T.Rich n p.last (total p.arcs)
  closed_le : ∀ x ∈ T.closed, ∀ y ∈ T.waiting, promise d x ≤ promise d y
  sorted : T.finished.Pairwise fun p q => promise d (.ended q) ≤ promise d (.ended p)

/-! ### The steps keep the invariant -/

section

variable {T T' : a.Trace start} {n : Nat} {p : a.Beginning start} {x : a.Node start}
  {waiting : Multiset (a.Node start)}

theorem Rich.mono {v : Nat} {y y' : WithTop K} (h : T.Rich n v y) (he : T.expanded ⊆ T'.expanded)
    (hle : y ≤ y') : T'.Rich n v y' := by
  obtain ⟨ps, hnodup, hcard, hps⟩ := h
  refine ⟨ps, hnodup, hcard, fun q hq => ?_⟩
  obtain ⟨hmem, hlast, hcost⟩ := hps q hq
  exact ⟨he hmem, hlast, hcost.trans hle⟩

theorem Coherent.nodup_expanded (h : Coherent d n T) : T.expanded.Nodup := by
  have hle : T.expanded.map Node.onward ≤ T.nodes :=
    ((Multiset.le_add_right _ _).trans (Multiset.le_add_right _ _)).trans (Multiset.le_add_left _ _)
  exact (Multiset.nodup_of_le hle h.nodup).of_map _

/-- The last state of a beginning that was not extended has been extended. -/
theorem Coherent.exists_expanded (h : Coherent d n T) (hn : 0 < n) (hp : p ∈ T.capped) :
    ∃ q ∈ T.expanded, q.last = p.last :=
  Multiset.countP_pos.1 (hn.trans_le (h.le_countP p hp))

theorem coherent_init (hroot : costAt d start ≠ ⊤) : Coherent d n (Trace.init a start) := by
  have hnodes : (Trace.init a start).nodes = {.onward (.root a start)} := rfl
  refine
    { nodup := hnodes ▸ Multiset.nodup_singleton _
      viable := fun x hx => ?_
      root_mem := Multiset.mem_singleton_self _
      child_mem := fun p hp => absurd hp (Multiset.notMem_zero p)
      parent_mem := fun x hx p hp => ?_
      le_countP := fun p hp => absurd hp (Multiset.notMem_zero p)
      countP_le := fun _ => Nat.zero_le n
      card_le := le_rfl }
  · obtain rfl := Multiset.mem_singleton.1 hx
    exact hroot
  · obtain rfl := Multiset.mem_singleton.1 hx
    exact absurd hp (Child.not_root p)

theorem Coherent.finish (h : Coherent d n T) (hw : T.waiting = .ended p ::ₘ waiting) :
    Coherent d n { T with waiting, finished := p :: T.finished } := by
  have hnodes : ({ T with waiting, finished := p :: T.finished } : a.Trace start).nodes = T.nodes := by
    rw [nodes, closed_finish, nodes_eq_of_waiting hw, Multiset.add_cons]
  exact
    { nodup := hnodes ▸ h.nodup
      viable := hnodes ▸ h.viable
      root_mem := hnodes ▸ h.root_mem
      child_mem := hnodes ▸ h.child_mem
      parent_mem := hnodes ▸ h.parent_mem
      le_countP := h.le_countP
      countP_le := h.countP_le
      card_le := hnodes ▸ h.card_le }

theorem Coherent.cap (h : Coherent d n T) (hw : T.waiting = .onward p ::ₘ waiting)
    (hcount : n ≤ T.expanded.countP (·.last = p.last)) :
    Coherent d n { T with waiting, capped := p ::ₘ T.capped } := by
  have hnodes : ({ T with waiting, capped := p ::ₘ T.capped } : a.Trace start).nodes = T.nodes := by
    rw [nodes, closed_cap, nodes_eq_of_waiting hw, Multiset.add_cons]
  exact
    { nodup := hnodes ▸ h.nodup
      viable := hnodes ▸ h.viable
      root_mem := hnodes ▸ h.root_mem
      child_mem := hnodes ▸ h.child_mem
      parent_mem := hnodes ▸ h.parent_mem
      le_countP := by
        intro q hq
        rcases Multiset.mem_cons.1 hq with rfl | hq
        · exact hcount
        · exact h.le_countP q hq
      countP_le := h.countP_le
      card_le := hnodes ▸ h.card_le }

theorem Coherent.expand (h : Coherent d n T) (hw : T.waiting = .onward p ::ₘ waiting)
    (hcount : T.expanded.countP (·.last = p.last) < n) :
    Coherent d n
      { T with waiting := (children d p : Multiset (a.Node start)) + waiting,
               expanded := p ::ₘ T.expanded } := by
  have hnodes : ({ T with
      waiting := (children d p : Multiset (a.Node start)) + waiting,
      expanded := p ::ₘ T.expanded } : a.Trace start).nodes = children d p + T.nodes := by
    rw [nodes, closed_expand, nodes_eq_of_waiting hw, Multiset.add_cons, Multiset.add_cons, add_assoc]
  have hnew : p ∉ T.expanded := by
    intro hp
    have hnodup := nodes_eq_of_waiting hw ▸ h.nodup
    exact (Multiset.nodup_cons.1 hnodup).1 (Multiset.mem_add.2 (.inr (mem_closed_of_expanded hp)))
  refine
    { nodup := ?_
      viable := fun x hx => ?_
      root_mem := hnodes ▸ Multiset.mem_add.2 (.inr h.root_mem)
      child_mem := fun q hq x hx hviable => ?_
      parent_mem := fun x hx q hq => ?_
      le_countP := fun q hq =>
        (h.le_countP q hq).trans (Multiset.countP_le_of_le _ (Multiset.le_cons_self T.expanded p))
      countP_le := fun v => ?_
      card_le := ?_ }
  · rw [hnodes, Multiset.nodup_add]
    refine ⟨Multiset.coe_nodup.2 (nodup_children d p), h.nodup, Multiset.disjoint_left.2 fun {x} hx hold => ?_⟩
    exact hnew (h.parent_mem x hold p (mem_children.1 (Multiset.mem_coe.1 hx)).1)
  · rcases Multiset.mem_add.1 (hnodes ▸ hx) with hx | hx
    · exact (mem_children.1 (Multiset.mem_coe.1 hx)).2
    · exact h.viable x hx
  · rw [hnodes, Multiset.mem_add]
    rcases Multiset.mem_cons.1 hq with rfl | hq
    · exact .inl (Multiset.mem_coe.2 (mem_children.2 ⟨hx, hviable⟩))
    · exact .inr (h.child_mem q hq x hx hviable)
  · rcases Multiset.mem_add.1 (hnodes ▸ hx) with hx | hx
    · obtain rfl := (mem_children.1 (Multiset.mem_coe.1 hx)).1.unique hq
      exact Multiset.mem_cons_self _ _
    · exact Multiset.mem_cons_of_mem (h.parent_mem x hx q hq)
  · show (p ::ₘ T.expanded).countP (·.last = v) ≤ n
    by_cases hv : p.last = v
    · rw [Multiset.countP_cons_of_pos T.expanded hv, ← hv]
      exact hcount
    · rw [Multiset.countP_cons_of_neg T.expanded hv]
      exact h.countP_le v
  · rw [hnodes, Multiset.card_add, Multiset.map_cons, Multiset.sum_cons, Multiset.coe_card]
    have hlen := length_children_le d p
    have hcard := h.card_le
    omega

/-- A step keeps the search coherent. -/
theorem Coherent.step (h : Coherent d n T) (hs : Step d n T T') : Coherent d n T' := by
  cases hs with
  | finish hw _ => exact h.finish hw
  | cap hw _ hcount => exact h.cap hw hcount
  | expand hw _ hcount => exact h.expand hw hcount

theorem Coherent.steps (h : Coherent d n T) (hs : Relation.ReflTransGen (Step d n) T T') : Coherent d n T' := by
  induction hs with
  | refl => exact h
  | tail _ hstep ih => exact ih.step hstep

/-- The node that leaves the queue comes after those that have left it and before those that wait. -/
theorem Sound.cons_closed_le (h : Sound d n T) (hw : T.waiting = x ::ₘ waiting)
    {others : Multiset (a.Node start)} (hmin : ∀ y ∈ others, promise d x ≤ promise d y) :
    ∀ z ∈ x ::ₘ T.closed, ∀ y ∈ others, promise d z ≤ promise d y := by
  intro z hz y hy
  rcases Multiset.mem_cons.1 hz with rfl | hz
  · exact hmin y hy
  · exact (h.closed_le z hz x (hw ▸ Multiset.mem_cons_self x waiting)).trans (hmin y hy)

theorem Sound.finish (h : Sound d n T) (hw : T.waiting = .ended p ::ₘ waiting)
    (hmin : ∀ y ∈ waiting, promise d (.ended p) ≤ promise d y) :
    Sound d n { T with waiting, finished := p :: T.finished } where
  toCoherent := h.toCoherent.finish hw
  rich_of_capped := h.rich_of_capped
  closed_le := by
    rw [closed_finish]
    exact h.cons_closed_le hw hmin
  sorted := by
    refine List.pairwise_cons.2 ⟨fun q hq => ?_, h.sorted⟩
    refine h.closed_le _ ?_ _ (hw ▸ Multiset.mem_cons_self _ _)
    simp [closed, hq]

/-- The invariant holds before the first step. -/
theorem sound_init (hroot : costAt d start ≠ ⊤) : Sound d n (Trace.init a start) where
  toCoherent := coherent_init hroot
  rich_of_capped p hp := absurd hp (Multiset.notMem_zero p)
  closed_le x hx := absurd hx (Multiset.notMem_zero x)
  sorted := List.Pairwise.nil

variable [IsOrderedAddMonoid K]

/-- The extended beginnings with the last state of one that waits do not cost more. -/
theorem Sound.rich_of_countP (h : Sound d n T) (hw : T.waiting = .onward p ::ₘ waiting)
    (hcount : n ≤ T.expanded.countP (·.last = p.last)) : T.Rich n p.last (total p.arcs) := by
  refine ⟨T.expanded.filter (·.last = p.last), h.nodup_expanded.filter _, ?_, fun q hq => ?_⟩
  · rwa [← Multiset.countP_eq_card_filter]
  · obtain ⟨hmem, hlast⟩ := Multiset.mem_filter.1 hq
    refine ⟨hmem, hlast, ?_⟩
    have hle : total q.arcs + costAt d q.last ≤ total p.arcs + costAt d p.last :=
      h.closed_le (.onward q) (mem_closed_of_expanded hmem) (.onward p)
        (hw ▸ Multiset.mem_cons_self _ _)
    rw [hlast] at hle
    exact (WithTop.add_le_add_iff_right (h.viable _ (mem_nodes_of_waiting hw))).1 hle

theorem Sound.cap (h : Sound d n T) (hw : T.waiting = .onward p ::ₘ waiting)
    (hmin : ∀ y ∈ waiting, promise d (.onward p) ≤ promise d y)
    (hcount : n ≤ T.expanded.countP (·.last = p.last)) :
    Sound d n { T with waiting, capped := p ::ₘ T.capped } where
  toCoherent := h.toCoherent.cap hw hcount
  rich_of_capped := by
    intro q hq
    rcases Multiset.mem_cons.1 hq with rfl | hq
    · exact h.rich_of_countP hw hcount
    · exact h.rich_of_capped q hq
  closed_le := by
    rw [closed_cap]
    exact h.cons_closed_le hw hmin
  sorted := h.sorted

theorem Sound.expand (hd : a.Backward 0 d) (h : Sound d n T) (hw : T.waiting = .onward p ::ₘ waiting)
    (hmin : ∀ y ∈ waiting, promise d (.onward p) ≤ promise d y)
    (hcount : T.expanded.countP (·.last = p.last) < n) :
    Sound d n
      { T with waiting := (children d p : Multiset (a.Node start)) + waiting,
               expanded := p ::ₘ T.expanded } where
  toCoherent := h.toCoherent.expand hw hcount
  rich_of_capped q hq := (h.rich_of_capped q hq).mono (Multiset.subset_cons _ _) le_rfl
  closed_le := by
    rw [closed_expand]
    refine h.cons_closed_le hw fun y hy => ?_
    rcases Multiset.mem_add.1 hy with hy | hy
    · exact promise_le_of_child hd (mem_children.1 (Multiset.mem_coe.1 hy)).1
    · exact hmin y hy
  sorted := h.sorted

/-- A step keeps the invariant. -/
theorem Sound.step (hd : a.Backward 0 d) (h : Sound d n T) (hs : Step d n T T') : Sound d n T' := by
  cases hs with
  | finish hw hmin => exact h.finish hw hmin
  | cap hw hmin hcount => exact h.cap hw hmin hcount
  | expand hw hmin hcount => exact h.expand hd hw hmin hcount

theorem Sound.steps (hd : a.Backward 0 d) (h : Sound d n T) (hs : Relation.ReflTransGen (Step d n) T T') :
    Sound d n T' := by
  induction hs with
  | refl => exact h
  | tail _ hstep ih => exact ih.step hd hstep

end

/-! ### How many nodes there are -/

section

/-- Counting beginnings by their last states. -/
theorem sum_map_last {W : Type} {a : Automaton W} (ps : Multiset (a.Beginning start)) (f : Nat → Nat)
    {m : Nat} (hlt : ∀ p ∈ ps, p.last < m) :
    (ps.map fun p => f p.last).sum = ∑ v ∈ Finset.range m, ps.countP (·.last = v) * f v := by
  induction ps using Multiset.induction with
  | empty => simp
  | cons p ps ih =>
    have hp := hlt p (Multiset.mem_cons_self p ps)
    have ih := ih fun q hq => hlt q (Multiset.mem_cons_of_mem hq)
    simp only [Multiset.map_cons, Multiset.sum_cons, ih, Multiset.countP_cons, add_mul, ite_mul, one_mul,
      zero_mul, Finset.sum_add_distrib, Finset.sum_ite_eq, Finset.mem_range, hp, if_true]
    exact add_comm _ _

theorem arcCount_eq {W : Type} (a : Automaton W) :
    a.arcCount = ∑ v ∈ Finset.range a.size, (a.arcsAt v).size := by
  have hsum : a.arcCount = (a.states.toList.map fun state => state.arcs.size).sum := by
    rw [arcCount, ← Array.foldl_toList, List.sum_eq_foldl, List.foldl_map]
  rw [hsum, ← Fin.sum_univ_fun_getElem, ← Fin.sum_univ_eq_sum_range]
  refine Finset.sum_congr rfl fun i _ => ?_
  have hi : a.states[(i : Nat)]? = some a.states.toList[(i : Nat)] := Array.getElem?_eq_getElem i.isLt
  rw [arcsAt, hi]

/-- No state is extended more than `n` times, so there are not many nodes. -/
theorem Coherent.card_nodes_le {T : a.Trace start} {n : Nat} {bound : K} (hd : a.Backward bound d)
    (h : Coherent d n T) : T.nodes.card ≤ 1 + n * (a.size + a.arcCount) := by
  have hlt : ∀ p ∈ T.expanded, p.last < a.size := fun p hp =>
    hd.lt_size (h.viable _ (Multiset.mem_add.2 (.inr (mem_closed_of_expanded hp))))
  refine h.card_le.trans (Nat.add_le_add_left ?_ 1)
  rw [sum_map_last T.expanded (fun v => 1 + (a.arcsAt v).size) hlt]
  calc ∑ v ∈ Finset.range a.size, T.expanded.countP (·.last = v) * (1 + (a.arcsAt v).size)
      ≤ ∑ v ∈ Finset.range a.size, n * (1 + (a.arcsAt v).size) :=
        Finset.sum_le_sum fun v _ => Nat.mul_le_mul_right _ (h.countP_le v)
    _ = n * (a.size + a.arcCount) := by
        rw [← Finset.mul_sum, Finset.sum_add_distrib, arcCount_eq, Finset.sum_const, Finset.card_range,
          smul_eq_mul, mul_one]

end

end Trace

end Transducer.Automaton
