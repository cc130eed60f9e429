import Mathlib
import Transducer.Proofs.Path.Route
import Transducer.Proofs.Path.Shortcut

/-!
# Distances are close

If arcs cost nothing negative, then the distances are found in finitely many steps in either direction, up to any
bound. A distance is infinite only if all routes of the state cost that much. Otherwise it is not below the least cost
of a route, and not above it by more than the bound for each state but one: `exists_distances_close`.

Backward this is known from the distances to the final states. Forward the computation passes distances on along the
arcs as they are; those that lead nowhere make no difference (`run_inside`).
-/

namespace Transducer

open ExactCost Relaxation

/-! ### Edges that lead nowhere -/

namespace Relaxation

variable {W D : Type} [Weight W] [Tolerance W D] {edges : Array (List (Nat × W))} {bound : D} {r : Relaxation W}
  {n s : Nat} {weight : W}

/-- The edges that lead to states that exist. -/
def inside (edges : Array (List (Nat × W))) : Array (List (Nat × W)) :=
  edges.map (·.filter (·.1 < edges.size))

omit [Weight W] in
theorem size_inside (edges : Array (List (Nat × W))) : (inside edges).size = edges.size := Array.size_map

omit [Weight W] in
theorem getD_inside (edges : Array (List (Nat × W))) (s : Nat) :
    (inside edges).getD s [] = (edges.getD s []).filter (·.1 < edges.size) := by
  rw [inside, Array.getD_eq_getD_getElem?, Array.getD_eq_getD_getElem?, Array.getElem?_map]
  cases edges[s]? <;> rfl

theorem Tidy.foldl_filter (h : Tidy n r) (bound : D) (weight : W) (es : List (Nat × W)) :
    (es.filter (·.1 < n)).foldl (fun r e => r.add bound e.1 (weight * e.2)) r =
      es.foldl (fun r e => r.add bound e.1 (weight * e.2)) r := by
  induction es generalizing r with
  | nil => rfl
  | cons e es ih =>
    rw [List.foldl_cons]
    by_cases he : e.1 < n
    · rw [List.filter_cons_of_pos (by simpa using he), List.foldl_cons]
      exact ih (h.add bound e.1 _)
    · rw [List.filter_cons_of_neg (by simpa using he), h.add_of_le (not_lt.1 he)]
      exact ih h

/-- Edges that lead to states that do not exist can be left out. -/
theorem run_inside (h : Tidy edges.size r) (limit : Nat) :
    run (inside edges) bound limit r = run edges bound limit r := by
  induction limit generalizing r with
  | zero =>
    cases hq : r.queue with
    | nil => rw [run_of_nil hq, run_of_nil hq]
    | cons s queue => rw [run_zero_of_cons hq, run_zero_of_cons hq]
  | succ limit ih =>
    cases hq : r.queue with
    | nil => rw [run_of_nil hq, run_of_nil hq]
    | cons s queue =>
      have hs : s < edges.size := h.queue_lt s (hq ▸ List.mem_cons_self)
      have hqueue : queue = r.queue.erase s := by rw [hq, List.erase_cons_head]
      rw [run_of_cons hq, run_of_cons hq, hqueue, pass_eq, pass_eq, getD_inside, (h.leave hs).foldl_filter]
      exact ih ((h.leave hs).foldl_add bound _ _)

end Relaxation

namespace Automaton

variable {K : Type} [AddCommGroup K] [LinearOrder K] {a : Automaton (ExactCost K)} {bound : K}
  {d : Array (ExactCost K)} {direction : Direction} {s t : Nat}

/-! ### Distances and routes -/

/-- A route can be made to have fewer arcs than there are states, and to cost no more. -/
theorem Route.exists_short [IsOrderedAddMonoid K] (hcost : ∀ {s}, ∀ arc ∈ a.arcsAt s, 0 ≤ arc.weight.cost)
    (hs : s < a.size) (p : a.Route direction s) :
    ∃ q : a.Route direction s, q.weight.cost ≤ p.weight.cost ∧ q.arcs.length ≤ a.size - 1 := by
  have hway : ∀ {s t places arcs}, a.Way s places arcs t → t < a.size →
      ∃ others arcs', a.Way s others arcs' t ∧ total arcs' ≤ total arcs ∧ arcs'.length ≤ a.size - 1 := by
    intro s t places arcs hway ht
    obtain ⟨others, arcs', hshort, hsub, hlen⟩ := hway.exists_short ht
    refine ⟨others, arcs', hshort, total_le_of_sublist hsub fun arc harc => ?_, hlen⟩
    obtain ⟨u, hu⟩ := hway.exists_mem_arcsAt harc
    exact hcost arc hu
  cases p with
  | fromStart start places arcs hstart hp =>
    obtain ⟨others, arcs', hshort, hle, hlen⟩ := hway hp hs
    refine ⟨.fromStart start others arcs' hstart hshort, ?_, hlen⟩
    show (weigh arcs' 1).cost ≤ (weigh arcs 1).cost
    rw [cost_weigh, cost_weigh]
    exact add_le_add_left hle _
  | toFinal places arcs last final hp hfinal =>
    obtain ⟨others, arcs', hshort, hle, hlen⟩ := hway hp (lt_size_of_final? hfinal)
    refine ⟨.toFinal others arcs' last final hshort hfinal, ?_, hlen⟩
    show (weigh arcs' final).cost ≤ (weigh arcs final).cost
    rw [cost_weigh, cost_weigh]
    exact add_le_add_left hle _

/-- Distances that routes have, and that are above the cost of no route by more than the bound for each of its arcs. -/
structure Close (a : Automaton (ExactCost K)) (direction : Direction) (bound : K) (d : Array (ExactCost K)) : Prop where
  attained : ∀ s, costAt d s = ⊤ ∨ ∃ p : a.Route direction s, p.weight.cost = costAt d s
  le_route : ∀ s < a.size, ∀ p : a.Route direction s,
    costAt d s ≤ p.weight.cost + ((p.arcs.length • bound : K) : WithTop K)

variable [IsOrderedAddMonoid K]

/-- Close distances are above the cost of no route by more than the bound for each state but one. -/
theorem Close.le_add_slack (h : a.Close direction bound d) (hcost : ∀ {s}, ∀ arc ∈ a.arcsAt s, 0 ≤ arc.weight.cost)
    (hb : 0 ≤ bound) (hs : s < a.size) (p : a.Route direction s) : costAt d s ≤ p.weight.cost + a.slack bound := by
  obtain ⟨q, hle, hlen⟩ := p.exists_short hcost hs
  calc
    costAt d s ≤ q.weight.cost + ((q.arcs.length • bound : K) : WithTop K) := h.le_route s hs q
    _ ≤ p.weight.cost + a.slack bound :=
      add_le_add hle (WithTop.coe_le_coe.2 (nsmul_le_nsmul_left hb hlen))

omit [IsOrderedAddMonoid K] in
/-- Distances without a bound are not above the costs of the routes. -/
theorem Close.le_of_exact (h : a.Close direction 0 d) (hs : s < a.size) (p : a.Route direction s) :
    costAt d s ≤ p.weight.cost := by
  have hle := h.le_route s hs p
  rwa [smul_zero, WithTop.coe_zero, add_zero] at hle

/-- Close distances are infinite where all routes cost that much. -/
theorem Close.eq_top_iff (h : a.Close direction bound d) (hcost : ∀ {s}, ∀ arc ∈ a.arcsAt s, 0 ≤ arc.weight.cost)
    (hb : 0 ≤ bound) (hs : s < a.size) : costAt d s = ⊤ ↔ ∀ p : a.Route direction s, p.weight.cost = ⊤ := by
  constructor
  · intro htop p
    have hle := h.le_add_slack hcost hb hs p
    rw [htop, top_le_iff] at hle
    exact (WithTop.add_eq_top.1 hle).resolve_right WithTop.coe_ne_top
  · intro hall
    rcases h.attained s with htop | ⟨p, hp⟩
    · exact htop
    · exact hp.symm.trans (hall p)

/-! ### The computation in either direction -/

theorem Backward.close (hd : a.Backward bound d) : a.Close .backward bound d where
  attained s := by
    refine (hd.attained s).imp_right ?_
    rintro ⟨places, arcs, t, final, hway, hf, heq⟩
    exact ⟨.toFinal places arcs t final hway hf, (cost_weigh arcs final).trans heq.symm⟩
  le_route s _ p := by
    cases p with
    | toFinal places arcs last final hway hf =>
      show costAt d s ≤ (weigh arcs final).cost + ((arcs.length • bound : K) : WithTop K)
      calc
        costAt d s ≤ padded bound arcs + final.cost := (hd.le_padded hway).trans (add_le_add_right (hd.le_final hf) _)
        _ = (weigh arcs final).cost + ((arcs.length • bound : K) : WithTop K) := by
          rw [padded_eq, cost_weigh]
          abel

omit [AddCommGroup K] [LinearOrder K] [IsOrderedAddMonoid K] in
theorem mem_inside_outgoing {e : Nat × ExactCost K} :
    e ∈ (inside a.outgoing).getD s [] ↔ e.1 < a.size ∧ ∃ arc ∈ a.arcsAt s, (arc.target, arc.weight) = e := by
  rw [getD_inside, List.mem_filter, size_outgoing, getD_outgoing, List.mem_map, and_comm]
  simp

omit [IsOrderedAddMonoid K] in
/-- The cost of a way from a source is that of a route. -/
theorem exists_route_of_attained {x : WithTop K}
    (h : Attained (inside a.outgoing) (fun s => (a.sources .forward s).cost) s x) :
    x = ⊤ ∨ ∃ p : a.Route .forward s, p.weight.cost = x := by
  induction h with
  | source s =>
    by_cases hs : a.start = some s
    · exact .inr ⟨.fromStart s [] [] hs (.nil s), by simp [sources, hs, Route.weight]⟩
    · exact .inl (by simp [sources, hs])
  | @step s x e _ he ih =>
    obtain ⟨-, arc, harc, rfl⟩ := mem_inside_outgoing.1 he
    obtain ⟨i, hi⟩ := Array.getElem?_of_mem harc
    rcases ih with rfl | ⟨p, rfl⟩
    · exact .inl (WithTop.top_add _)
    · cases p with
      | fromStart start places arcs hstart hway =>
        refine .inr ⟨.fromStart start (places ++ [i]) (arcs ++ [arc]) hstart (hway.append (.single hi)), ?_⟩
        show (weigh (arcs ++ [arc]) 1).cost = (weigh arcs 1).cost + arc.weight.cost
        simp [cost_weigh]

/-- Distances from the start along a way are not above each other, but for the surcharge. -/
theorem le_padded_of_solved {sources : Nat → WithTop K} (h : Solved (inside a.outgoing) sources bound d)
    {places : List Nat} {arcs : List (Arc (ExactCost K))} (hway : a.Way s places arcs t) (ht : t < a.size) :
    costAt d t ≤ costAt d s + padded bound arcs := by
  induction hway with
  | nil s => rw [padded_nil, add_zero]
  | @cons s i t arc places arcs hi hway ih =>
    have hmem : (arc.target, arc.weight) ∈ (inside a.outgoing).getD s [] :=
      mem_inside_outgoing.2 ⟨hway.lt_size_of_last ht, arc, Array.mem_of_getElem? hi, rfl⟩
    calc
      costAt d t ≤ costAt d arc.target + padded bound arcs := ih ht
      _ ≤ costAt d s + arc.weight.cost + bound + padded bound arcs := add_le_add_left (h.le_edge s _ hmem) _
      _ = costAt d s + padded bound (arc :: arcs) := by
        rw [padded_cons]
        abel

/-- Forward distances are found in finitely many steps. -/
theorem exists_close_forward (hcost : ∀ {s}, ∀ arc ∈ a.arcsAt s, 0 ≤ arc.weight.cost) (hb : 0 ≤ bound)
    (hunspent : Unspent a.size (a.sources .forward) (a.outset .forward)) :
    ∃ d, a.Close .forward bound d ∧ ∃ N, ∀ limit ≥ N, a.distances .forward bound limit = some d := by
  have hlt : ∀ s, ∀ e ∈ (inside a.outgoing).getD s [], e.1 < (inside a.outgoing).size := by
    intro s e he
    rw [size_inside, size_outgoing]
    exact (mem_inside_outgoing.1 he).1
  have hedge : ∀ s, ∀ e ∈ (inside a.outgoing).getD s [], 0 ≤ e.2.cost := by
    intro s e he
    obtain ⟨-, arc, harc, rfl⟩ := mem_inside_outgoing.1 he
    exact hcost arc harc
  have hsources : (Set.range fun s => (a.sources .forward s).cost).Finite := by
    refine (Set.toFinite {(0 : WithTop K), ⊤}).subset ?_
    rintro x ⟨s, rfl⟩
    by_cases hs : a.start = some s <;> simp [sources, hs]
  have hfresh := hunspent.fresh
  rw [← size_outgoing, ← size_inside] at hfresh
  obtain ⟨d, hd, N, hN⟩ := (hfresh.invariant (s := 0) bound).exists_run hb hsources hlt hedge
  refine ⟨d, ⟨fun s => exists_route_of_attained (hd.attained s), fun s hs p => ?_⟩, N, fun limit hlimit => ?_⟩
  · cases p with
    | fromStart start places arcs hfirst hway =>
      have hsource : costAt d start ≤ 0 := by simpa [sources, hfirst] using hd.le_source start
      calc
        costAt d s ≤ costAt d start + padded bound arcs := le_padded_of_solved hd hway hs
        _ ≤ 0 + padded bound arcs := add_le_add_left hsource _
        _ = (weigh arcs 1).cost + ((arcs.length • bound : K) : WithTop K) := by
          rw [zero_add, padded_eq, cost_weigh, cost_one, add_zero]
  · have htidy := hunspent.toTidy
    rw [← size_outgoing] at htidy
    rw [distances_eq, ← hN limit hlimit]
    exact (run_inside htidy limit).symm

omit [IsOrderedAddMonoid K] in
/-- If the start does not exist, then distances that are all infinite are close. -/
theorem close_of_size_le {start : Nat} (hstart : a.start = some start) (hle : a.size ≤ start) :
    a.Close .forward bound (Array.replicate a.size 0) where
  attained s := .inl (congrFun (costAt_replicate a.size) s)
  le_route _ hs p := (Route.isEmpty_forward hstart hle hs).elim p

/-- Close distances are found in finitely many steps. -/
theorem exists_close (hcost : ∀ {s}, ∀ arc ∈ a.arcsAt s, 0 ≤ arc.weight.cost) (hb : 0 ≤ bound) (direction : Direction) :
    ∃ d, a.Close direction bound d ∧ ∃ N, ∀ limit ≥ N, a.distances direction bound limit = some d := by
  cases direction with
  | backward =>
    obtain ⟨d, hd, N, hN⟩ := exists_distances_backward hcost hb
    exact ⟨d, hd.close, N, hN⟩
  | forward =>
    rcases a.unspent_outset .forward with hunspent | ⟨-, start, hfirst, hle⟩
    · exact exists_close_forward hcost hb hunspent
    · refine ⟨_, close_of_size_le hfirst hle, 1, fun limit hlimit => ?_⟩
      have hone : ∀ k r, Passes (a.edges .forward) bound (a.outset .forward) k r → k ≤ 1 :=
        fun k r h => (passes_of_size_le hfirst hle h).1
      obtain ⟨d, hd⟩ := exists_run_of_passes hone .none (by omega : 1 ≤ 0 + limit)
      obtain ⟨k, r, hr, -, rfl⟩ := exists_passes_of_run hd .none
      rw [distances_eq, hd, (passes_of_size_le hfirst hle hr).2]

/-- Distances are found in finitely many steps, in either direction and up to any bound. The distance of a state is
infinite exactly if all its routes cost that much. Otherwise it is not below the least cost of a route, nor above it by
more than the bound for each state but one; without a bound it is that cost. -/
theorem exists_distances_close (hcost : ∀ {s}, ∀ arc ∈ a.arcsAt s, 0 ≤ arc.weight.cost) (hb : 0 ≤ bound)
    (direction : Direction) :
    ∃ d, d.size = a.size ∧ (∃ N, ∀ limit ≥ N, a.distances direction bound limit = some d) ∧ ∀ s < a.size,
      (isZero (d.getD s 0) = true ↔ ∀ p : a.Route direction s, isZero p.weight = true) ∧
      (isZero (d.getD s 0) = false → ∃ p : a.Route direction s, (∀ q : a.Route direction s, p.weight.cost ≤ q.weight.cost) ∧
        p.weight.cost ≤ (d.getD s 0).cost ∧ (d.getD s 0).cost ≤ p.weight.cost + (((a.size - 1) • bound : K) : WithTop K) ∧
        (bound = 0 → d.getD s 0 = p.weight)) := by
  obtain ⟨d, hd, N, hN⟩ := exists_close (a := a) hcost hb direction
  obtain ⟨exact, hexact, -⟩ := exists_close (a := a) hcost (le_refl (0 : K)) direction
  refine ⟨d, size_of_distances (hN N le_rfl), ⟨N, hN⟩, fun s hs => ⟨?_, fun hzero => ?_⟩⟩
  · simp only [isZero_iff]
    exact hd.eq_top_iff hcost hb hs
  · rw [isZero_eq_false_iff] at hzero
    have hfinite : costAt exact s ≠ ⊤ := by
      rwa [Ne, hexact.eq_top_iff hcost le_rfl hs, ← hd.eq_top_iff hcost hb hs]
    obtain ⟨p, hp⟩ := (hexact.attained s).resolve_left hfinite
    obtain ⟨q, hq⟩ := (hd.attained s).resolve_left hzero
    have hleast : ∀ q : a.Route direction s, p.weight.cost ≤ q.weight.cost := fun q => hp ▸ hexact.le_of_exact hs q
    refine ⟨p, hleast, (hleast q).trans hq.le, hd.le_add_slack hcost hb hs p, ?_⟩
    rintro rfl
    exact ext_cost (le_antisymm (hd.le_of_exact hs p) ((hleast q).trans hq.le))

/-- A cycle, an arc of infinite cost, a state that is not reached, and a detour that costs less than the way itself. -/
def bypassRoad : Automaton (ExactCost ℤ) where
  states := #[{ arcs := #[⟨1, 1, ⟨((5 : ℤ) : WithTop ℤ)⟩, 2⟩, ⟨2, 2, 1, 1⟩] },
    { arcs := #[⟨3, 3, ⟨((4 : ℤ) : WithTop ℤ)⟩, 2⟩, ⟨4, 4, ⟨⊤⟩, 3⟩] },
    { arcs := #[⟨5, 5, 1, 0⟩], final := some ⟨((-2 : ℤ) : WithTop ℤ)⟩ }, {}]
  start := some 0

theorem exists_distances_close_bypassRoad :
    ∃ d, d.size = bypassRoad.size ∧ (∃ N, ∀ limit ≥ N, bypassRoad.distances .forward (2 : ℤ) limit = some d) ∧
      ∀ s < bypassRoad.size, (isZero (d.getD s 0) = true ↔ ∀ p : bypassRoad.Route .forward s, isZero p.weight = true) ∧
        (isZero (d.getD s 0) = false → ∃ p : bypassRoad.Route .forward s,
          (∀ q : bypassRoad.Route .forward s, p.weight.cost ≤ q.weight.cost) ∧ p.weight.cost ≤ (d.getD s 0).cost ∧
          (d.getD s 0).cost ≤ p.weight.cost + (((bypassRoad.size - 1) • (2 : ℤ) : ℤ) : WithTop ℤ) ∧
          ((2 : ℤ) = 0 → d.getD s 0 = p.weight)) :=
  exists_distances_close (forall_mem_arcsAt_iff.2 (by decide)) (by decide) .forward

-- the detour does not save more than the bound
example : bypassRoad.distances .forward (2 : ℤ) 3 = some #[1, 1, ⟨((5 : ℤ) : WithTop ℤ)⟩, 0] := by decide +kernel

end Automaton

end Transducer
