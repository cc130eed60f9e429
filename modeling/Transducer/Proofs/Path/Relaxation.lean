import Mathlib
import Transducer.Proofs.Path.Queue
import Transducer.Proofs.Weight.Exact

/-!
# Relaxation

What the computation of distances ends with when costs are exact and edges cost nothing negative. Each
distance is then the cost of some way from a source (`Attained`), and no edge would lower a distance by
more than the bound.

While the queue is worked off, a state that does not wait has passed on all that its distance is; only the
edges of the state that has just left the queue may still be pending. The computation ends because each
pass shortens the queue or lowers a distance, and the costs of ways that use finitely many edges are well
ordered.
-/

namespace Transducer.Relaxation

open ExactCost

/-! ### Costs of ways -/

section

variable {K : Type} {edges : Array (List (Nat × ExactCost K))} {sources : Nat → WithTop K}

/-- The finite costs of the edges. -/
def steps (edges : Array (List (Nat × ExactCost K))) : Set K :=
  {k | ∃ s, ∃ e ∈ edges.getD s [], e.2.cost = k}

theorem finite_steps (edges : Array (List (Nat × ExactCost K))) : (steps edges).Finite := by
  have hfin := (edges.toList.flatten.map fun e => e.2.cost).finite_toSet
  refine (hfin.preimage (f := fun k : K => (k : WithTop K)) WithTop.coe_injective.injOn).subset ?_
  rintro k ⟨s, e, he, hk⟩
  refine List.mem_map.2 ⟨e, List.mem_flatten.2 ⟨edges.getD s [], ?_, he⟩, hk⟩
  rw [Array.getD_eq_getD_getElem?] at he ⊢
  cases hs : edges[s]? with
  | none => simp [hs] at he
  | some es => exact Array.mem_def.1 (Array.mem_of_getElem? hs)

variable [AddCommGroup K]

/-- A cost of a way from a source: that of the source itself, or that of a way with one edge more. -/
inductive Attained (edges : Array (List (Nat × ExactCost K))) (sources : Nat → WithTop K) :
    Nat → WithTop K → Prop where
  /-- No edge. -/
  | source (s : Nat) : Attained edges sources s (sources s)
  /-- One more edge. -/
  | step {s : Nat} {x : WithTop K} {e : Nat × ExactCost K} :
      Attained edges sources s x → e ∈ edges.getD s [] → Attained edges sources e.1 (x + e.2.cost)

/-- The cost of a way is that of its source and those of its edges. -/
theorem Attained.mem_add_closure {s : Nat} {x : WithTop K} (h : Attained edges sources s x) :
    x = ⊤ ∨ ∃ k ∈ {k : K | ∃ s, sources s = k}, ∃ l ∈ AddSubmonoid.closure (steps edges),
      x = ((k + l : K) : WithTop K) := by
  induction h with
  | source s =>
    cases hs : sources s with
    | top => exact .inl rfl
    | coe k => exact .inr ⟨k, ⟨s, hs⟩, 0, zero_mem _, by rw [add_zero]⟩
  | @step s x e _ he ih =>
    rcases ih with rfl | ⟨k, hk, l, hl, rfl⟩
    · exact .inl (WithTop.top_add _)
    · cases hc : e.2.cost with
      | top => exact .inl (WithTop.add_top _)
      | coe c =>
        have hmem : c ∈ steps edges := ⟨s, e, he, hc⟩
        exact .inr ⟨k, hk, l + c, add_mem hl (AddSubmonoid.subset_closure hmem), by
          rw [← add_assoc]; exact (WithTop.coe_add _ _).symm⟩

variable [LinearOrder K] [IsOrderedAddMonoid K]

/-- There is no endless descent through the costs of ways, if no edge costs anything negative. -/
theorem isWF_attained (hsources : (Set.range sources).Finite)
    (hcost : ∀ s, ∀ e ∈ edges.getD s [], 0 ≤ e.2.cost) :
    {x | ∃ s, Attained edges sources s x}.IsWF := by
  have hpos : ∀ k ∈ steps edges, 0 ≤ k := by
    rintro k ⟨s, e, he, hk⟩
    exact WithTop.coe_nonneg.1 (hk ▸ hcost s e he)
  have hfrom : {k : K | ∃ s, sources s = k}.Finite :=
    hsources.preimage (f := fun k : K => (k : WithTop K)) WithTop.coe_injective.injOn
  have hsum := hfrom.isPWO.add ((finite_steps edges).isPWO.addSubmonoid_closure hpos)
  have hpwo := (hsum.image_of_monotone WithTop.coe_mono).insert ⊤
  refine (hpwo.mono ?_).isWF
  rintro x ⟨s, h⟩
  rcases h.mem_add_closure with rfl | ⟨k, hk, l, hl, rfl⟩
  · exact Set.mem_insert _ _
  · exact Set.mem_insert_of_mem _ ⟨k + l, Set.add_mem_add hk hl, rfl⟩

end

variable {K : Type} [AddCommGroup K] [LinearOrder K]

/-! ### Costs in arrays -/

/-- The cost at a place of an array; beyond the end it is infinite. -/
def costAt (d : Array (ExactCost K)) (s : Nat) : WithTop K := (d.getD s 0).cost

theorem costAt_of_le {d : Array (ExactCost K)} {s : Nat} (h : d.size ≤ s) : costAt d s = ⊤ := by
  simp [costAt, Array.getD_eq_getD_getElem?, Array.getElem?_eq_none h]

theorem costAt_setIfInBounds {d : Array (ExactCost K)} {s : Nat} (h : s < d.size) (w : ExactCost K) :
    costAt (d.setIfInBounds s w) = Function.update (costAt d) s w.cost := by
  funext t
  simp only [costAt, Array.getD_eq_getD_getElem?, Array.getElem?_setIfInBounds, Function.update_apply]
  by_cases ht : s = t
  · subst ht
    simp [h]
  · simp [ht, Ne.symm ht]

theorem costAt_replicate (n : Nat) : costAt (Array.replicate n (0 : ExactCost K)) = fun _ => ⊤ := by
  funext s
  simp only [costAt, Array.getD_eq_getD_getElem?, Array.getElem?_replicate]
  split <;> rfl

/-! ### What is computed -/

/-- Distances that are costs of ways and that neither a source nor an edge lowers by more than the
bound. -/
structure Solved (edges : Array (List (Nat × ExactCost K))) (sources : Nat → WithTop K) (bound : K)
    (d : Array (ExactCost K)) : Prop where
  attained : ∀ s, Attained edges sources s (costAt d s)
  le_source : ∀ s, costAt d s ≤ sources s
  le_edge : ∀ s, ∀ e ∈ edges.getD s [], costAt d e.1 ≤ costAt d s + e.2.cost + bound

/-- The invariant of the computation. The pending edges are those that the current state, which has left
the queue, has not passed its distance on along. -/
structure Invariant (edges : Array (List (Nat × ExactCost K))) (sources : Nat → WithTop K) (bound : K)
    (current : Nat) (pending : List (Nat × ExactCost K)) (r : Relaxation (ExactCost K)) : Prop where
  size_distance : r.distance.size = edges.size
  size_residue : r.residue.size = edges.size
  size_waiting : r.waiting.size = edges.size
  nodup : r.queue.Nodup
  queue_lt : ∀ s ∈ r.queue, s < edges.size
  waiting_iff : ∀ s < edges.size, r.waiting.getD s true = true ↔ s ∈ r.queue
  residue_of_mem : ∀ s ∈ r.queue, costAt r.residue s = costAt r.distance s
  residue_of_notMem : ∀ s ∉ r.queue, costAt r.residue s = ⊤
  attained : ∀ s, Attained edges sources s (costAt r.distance s)
  le_source : ∀ s, costAt r.distance s ≤ sources s
  le_edge : ∀ s ∉ r.queue, ∀ e ∈ edges.getD s [], s = current ∧ e ∈ pending ∨
    costAt r.distance e.1 ≤ costAt r.distance s + e.2.cost + bound

/-- The second state of the computation is further on: a distance is lower, or nothing is new. -/
def Advanced (r r' : Relaxation (ExactCost K)) : Prop :=
  costAt r'.distance < costAt r.distance ∨ r'.distance = r.distance ∧ r'.queue = r.queue

theorem Advanced.refl (r : Relaxation (ExactCost K)) : Advanced r r := .inr ⟨rfl, rfl⟩

theorem Advanced.trans {r r' r'' : Relaxation (ExactCost K)} (h : Advanced r r') (h' : Advanced r' r'') :
    Advanced r r'' := by
  rcases h with h | ⟨hd, hq⟩
  · rcases h' with h' | ⟨hd', -⟩
    · exact .inl (h'.trans h)
    · exact .inl (hd' ▸ h)
  · rcases h' with h' | ⟨hd', hq'⟩
    · exact .inl (hd ▸ h')
    · exact .inr ⟨hd'.trans hd, hq'.trans hq⟩

/-! ### One edge -/

section

variable {edges : Array (List (Nat × ExactCost K))} {sources : Nat → WithTop K} {bound : K} {s : Nat}
  {e : Nat × ExactCost K} {pending : List (Nat × ExactCost K)} {r : Relaxation (ExactCost K)}

/-- An edge that has been tried is no longer pending. -/
theorem Invariant.tried (h : Invariant edges sources bound s (e :: pending) r)
    (he : costAt r.distance e.1 ≤ costAt r.distance s + e.2.cost + bound) :
    Invariant edges sources bound s pending r := by
  refine { h with le_edge := fun u hu f hf => ?_ }
  rcases h.le_edge u hu f hf with ⟨rfl, hmem⟩ | hle
  · rcases List.mem_cons.1 hmem with rfl | hmem
    · exact .inr he
    · exact .inl ⟨rfl, hmem⟩
  · exact .inr hle

variable {t : Nat} {weight : ExactCost K}

/-- Which state has last left the queue does not matter where no edges are pending. -/
theorem Invariant.current (h : Invariant edges sources bound s [] r) (t : Nat) :
    Invariant edges sources bound t [] r :=
  { h with
    le_edge := fun u hu f hf => .inr ((h.le_edge u hu f hf).resolve_left fun hf => by cases hf.2) }

/-- When nobody waits, the distances are solved. -/
theorem Invariant.solved (h : Invariant edges sources bound s [] r) (hq : r.queue = []) :
    Solved edges sources bound r.distance where
  attained := h.attained
  le_source := h.le_source
  le_edge u e he := by
    have hu : u ∉ r.queue := by simp [hq]
    exact (h.le_edge u hu e he).resolve_left fun hmem => by cases hmem.2

theorem Invariant.tidy (h : Invariant edges sources bound s pending r) : Tidy edges.size r :=
  ⟨h.size_distance, h.size_residue, h.size_waiting, h.nodup, h.queue_lt, h.waiting_iff⟩

/-- When a state leaves the queue, all its edges are pending. -/
theorem Invariant.leave (h : Invariant edges sources bound s [] r) (ht : t ∈ r.queue) :
    Invariant edges sources bound t (edges.getD t []) (r.leave t) := by
  have hlt : t < edges.size := h.queue_lt t ht
  have htidy := h.tidy.leave hlt
  have hres : costAt (r.residue.setIfInBounds t 0) = Function.update (costAt r.residue) t ⊤ :=
    costAt_setIfInBounds (h.size_residue ▸ hlt) 0
  have hout : ∀ u ∉ (r.leave t).queue, u ≠ t → u ∉ r.queue := fun u hu hut hmem =>
    hu (h.tidy.mem_queue_leave.2 ⟨hut, hmem⟩)
  refine
    { size_distance := htidy.size_distance
      size_residue := htidy.size_residue
      size_waiting := htidy.size_waiting
      nodup := htidy.nodup
      queue_lt := htidy.queue_lt
      waiting_iff := htidy.waiting_iff
      residue_of_mem := fun u hu => ?_
      residue_of_notMem := fun u hu => ?_
      attained := h.attained
      le_source := h.le_source
      le_edge := fun u hu f hf => ?_ }
  · show costAt (r.residue.setIfInBounds t 0) u = _
    obtain ⟨hut, hmem⟩ := h.tidy.mem_queue_leave.1 hu
    rw [hres, Function.update_of_ne hut]
    exact h.residue_of_mem u hmem
  · show costAt (r.residue.setIfInBounds t 0) u = ⊤
    rw [hres]
    by_cases hut : u = t
    · rw [hut, Function.update_self]
    · rw [Function.update_of_ne hut]
      exact h.residue_of_notMem u (hout u hu hut)
  · by_cases hut : u = t
    · exact .inl ⟨hut, hut ▸ hf⟩
    · refine .inr ((h.le_edge u (hout u hu hut) f hf).resolve_left ?_)
      exact fun hf => by cases hf.2

theorem Invariant.distance_lowered (h : Invariant edges sources bound s pending r) (ht : t < edges.size)
    (hlow : weight.cost < costAt r.distance t) :
    costAt (r.grown t weight).distance = Function.update (costAt r.distance) t weight.cost := by
  show costAt (r.distance.setIfInBounds t (r.distance.getD t 0 + weight)) = _
  rw [costAt_setIfInBounds (h.size_distance ▸ ht), cost_add]
  exact congrArg _ (min_eq_right hlow.le)

/-- What a state that is lowered has to pass on is its new distance. -/
theorem Invariant.residue_lowered (h : Invariant edges sources bound s pending r) (ht : t < edges.size)
    (hlow : weight.cost < costAt r.distance t) :
    costAt (r.grown t weight).residue = Function.update (costAt r.residue) t weight.cost := by
  show costAt (r.residue.setIfInBounds t (r.residue.getD t 0 + weight)) = _
  rw [costAt_setIfInBounds (h.size_residue ▸ ht), cost_add]
  refine congrArg _ (min_eq_right ?_)
  by_cases hmem : t ∈ r.queue
  · exact hlow.le.trans (h.residue_of_mem t hmem).ge
  · exact le_top.trans (h.residue_of_notMem t hmem).ge

variable [IsOrderedAddMonoid K]

/-- A distance that is lowered along the first pending edge keeps the invariant. -/
theorem Invariant.lowered (hb : 0 ≤ bound)
    (h : Invariant edges sources bound s (e :: pending) r) (he : e ∈ edges.getD s [])
    (hlt : e.1 < edges.size) (hne : e.1 ≠ s) (hw : weight.cost = costAt r.distance s + e.2.cost)
    (hlow : weight.cost < costAt r.distance e.1) :
    Invariant edges sources bound s pending (r.grown e.1 weight) := by
  have hdist := h.distance_lowered hlt hlow
  have hres := h.residue_lowered hlt hlow
  have hle : costAt (r.grown e.1 weight).distance ≤ costAt r.distance := by
    rw [hdist]
    exact update_le_self_iff.2 hlow.le
  have hother : ∀ u, u ≠ e.1 → costAt (r.grown e.1 weight).distance u = costAt r.distance u := by
    intro u hu
    rw [hdist, Function.update_of_ne hu]
  have hhere : costAt (r.grown e.1 weight).distance e.1 = weight.cost := by
    rw [hdist, Function.update_self]
  have hmem : ∀ {u}, u ∈ (r.grown e.1 weight).queue ↔ u = e.1 ∨ u ∈ r.queue := h.tidy.mem_queue_grown hlt
  have htidy := h.tidy.grown hlt weight
  refine
    { size_distance := htidy.size_distance
      size_residue := htidy.size_residue
      size_waiting := htidy.size_waiting
      nodup := htidy.nodup
      queue_lt := htidy.queue_lt
      waiting_iff := htidy.waiting_iff
      residue_of_mem := fun u hu => ?_
      residue_of_notMem := fun u hu => ?_
      attained := fun u => ?_
      le_source := fun u => (hle u).trans (h.le_source u)
      le_edge := fun u hu f hf => ?_ }
  · by_cases hue : u = e.1
    · rw [hue, hhere, hres, Function.update_self]
    · rw [hother u hue, hres, Function.update_of_ne hue]
      exact h.residue_of_mem u ((hmem.1 hu).resolve_left hue)
  · rw [hmem, not_or] at hu
    rw [hres, Function.update_of_ne hu.1]
    exact h.residue_of_notMem u hu.2
  · by_cases hue : u = e.1
    · rw [hue, hhere, hw]
      exact .step (h.attained s) he
    · rw [hother u hue]
      exact h.attained u
  · rw [hmem, not_or] at hu
    rw [hother u hu.1]
    rcases h.le_edge u hu.2 f hf with ⟨rfl, hf⟩ | hlast
    · rcases List.mem_cons.1 hf with rfl | hf
      · refine .inr ?_
        rw [hhere, hw]
        exact le_add_of_nonneg_right (WithTop.coe_nonneg.2 hb)
      · exact .inl ⟨rfl, hf⟩
    · exact .inr ((hle f.1).trans hlast)

/-- A sum that is not worth a change has a first summand that is not above the second one by more than
the bound. -/
theorem le_of_approxEq (hb : 0 ≤ bound) {v w : ExactCost K} (h : approxEq v (v + w) bound = true) :
    v.cost ≤ w.cost + bound := by
  rw [approxEq_iff, cost_add] at h
  split at h
  · exact (min_eq_left_iff.1 h.symm).trans (le_add_of_nonneg_right (WithTop.coe_nonneg.2 hb))
  · exact h.1.trans (add_le_add_left (min_le_right _ _) _)

/-- A sum that is worth a change is its second summand. -/
theorem lt_of_approxEq (hb : 0 ≤ bound) {v w : ExactCost K} (h : approxEq v (v + w) bound = false) :
    w.cost < v.cost := by
  by_contra hle
  have hself : v.cost ≤ v.cost + bound := le_add_of_nonneg_right (WithTop.coe_nonneg.2 hb)
  have heq : (v + w).cost = v.cost := by rw [cost_add, min_eq_left (not_lt.1 hle)]
  have happrox : approxEq v (v + w) bound = true := by
    rw [approxEq_iff, heq]
    split
    · rfl
    · exact ⟨hself, hself⟩
  simp [h] at happrox

/-- Passing a distance on along an edge keeps the invariant, and settles the edge. -/
theorem Invariant.add (hb : 0 ≤ bound) (h : Invariant edges sources bound s (e :: pending) r)
    (hs : s ∉ r.queue) (he : e ∈ edges.getD s []) (hlt : e.1 < edges.size) (hcost : 0 ≤ e.2.cost)
    (hw : weight.cost = costAt r.distance s) :
    Invariant edges sources bound s pending (r.add bound e.1 (weight * e.2)) ∧
      s ∉ (r.add bound e.1 (weight * e.2)).queue ∧
      costAt (r.add bound e.1 (weight * e.2)).distance s = costAt r.distance s ∧
      Advanced r (r.add bound e.1 (weight * e.2)) := by
  have hprod : (weight * e.2).cost = costAt r.distance s + e.2.cost := by rw [cost_mul, hw]
  rw [add_eq]
  split
  · next happrox =>
    refine ⟨h.tried ?_, hs, rfl, .refl r⟩
    rw [← hprod]
    exact le_of_approxEq hb happrox
  · next happrox =>
    have hlow : (weight * e.2).cost < costAt r.distance e.1 :=
      lt_of_approxEq hb (Bool.eq_false_of_not_eq_true happrox)
    -- an edge from a state to itself lowers nothing
    have hne : e.1 ≠ s := by
      intro heq
      rw [hprod, heq] at hlow
      exact absurd hlow (not_lt.2 (le_add_of_nonneg_right hcost))
    have hdist := h.distance_lowered hlt hlow
    refine ⟨h.lowered hb he hlt hne hprod hlow, ?_, ?_, .inl ?_⟩
    · rw [h.tidy.mem_queue_grown hlt, not_or]
      exact ⟨Ne.symm hne, hs⟩
    · rw [hdist, Function.update_of_ne (Ne.symm hne)]
    · rw [hdist]
      exact update_lt_self_iff.2 hlow

/-! ### One pass -/

/-- Passing a distance on along all pending edges keeps the invariant, and settles them. -/
theorem Invariant.foldl_add (hb : 0 ≤ bound) (h : Invariant edges sources bound s pending r)
    (hs : s ∉ r.queue) (hmem : ∀ e ∈ pending, e ∈ edges.getD s [])
    (hlt : ∀ e ∈ pending, e.1 < edges.size) (hcost : ∀ e ∈ pending, 0 ≤ e.2.cost)
    (hw : weight.cost = costAt r.distance s) :
    Invariant edges sources bound s [] (pending.foldl (fun r e => r.add bound e.1 (weight * e.2)) r) ∧
      Advanced r (pending.foldl (fun r e => r.add bound e.1 (weight * e.2)) r) := by
  induction pending generalizing r with
  | nil => exact ⟨h, .refl r⟩
  | cons e pending ih =>
    rw [List.forall_mem_cons] at hmem hlt hcost
    obtain ⟨hi, hs', hd, hadv⟩ := h.add hb hs hmem.1 hlt.1 hcost.1 hw
    obtain ⟨hi', hadv'⟩ := ih hi hs' hmem.2 hlt.2 hcost.2 (hw.trans hd.symm)
    exact ⟨hi', hadv.trans hadv'⟩

/-- A pass keeps the invariant. It lowers a distance, or the queue is shorter than before. -/
theorem Invariant.pass (hb : 0 ≤ bound) (hlt : ∀ s, ∀ e ∈ edges.getD s [], e.1 < edges.size)
    (hcost : ∀ s, ∀ e ∈ edges.getD s [], 0 ≤ e.2.cost) {queue : List Nat}
    (h : Invariant edges sources bound s [] r) (hq : r.queue = t :: queue) :
    Invariant edges sources bound t [] (Relaxation.pass edges bound { r with queue } t) ∧
      Advanced { r with queue } (Relaxation.pass edges bound { r with queue } t) := by
  have hmem : t ∈ r.queue := hq ▸ List.mem_cons_self
  have hnot : t ∉ (r.leave t).queue := fun ht => (h.tidy.mem_queue_leave.1 ht).1 rfl
  have hw : (r.residue.getD t 0).cost = costAt r.distance t := h.residue_of_mem t hmem
  have hqueue : queue = r.queue.erase t := by rw [hq, List.erase_cons_head]
  obtain ⟨hi, hadv⟩ := (h.leave hmem).foldl_add hb hnot (fun _ he => he) (hlt t) (hcost t) hw
  rw [hqueue, pass_eq]
  exact ⟨hi, hadv⟩

/-! ### The whole run -/

/-- The computation comes to an end from all states with the same distances and the same queue, if it
does so from all states with lower distances. -/
theorem Invariant.exists_run_of_lt (hb : 0 ≤ bound)
    (hlt : ∀ s, ∀ e ∈ edges.getD s [], e.1 < edges.size)
    (hcost : ∀ s, ∀ e ∈ edges.getD s [], 0 ≤ e.2.cost) {x : Nat → WithTop K}
    (hlower : ∀ {t r}, Invariant edges sources bound t [] r → costAt r.distance < x →
      ∃ d, Solved edges sources bound d ∧ ∃ N, ∀ limit ≥ N, run edges bound limit r = some d)
    (h : Invariant edges sources bound s [] r) (hx : costAt r.distance = x) :
    ∃ d, Solved edges sources bound d ∧ ∃ N, ∀ limit ≥ N, run edges bound limit r = some d := by
  generalize hq : r.queue = queue
  induction queue generalizing s r with
  | nil => exact ⟨r.distance, h.solved hq, 0, fun limit _ => run_of_nil hq limit⟩
  | cons t queue ih =>
    obtain ⟨hi, hadv⟩ := h.pass hb hlt hcost hq
    have key : ∃ d, Solved edges sources bound d ∧
        ∃ N, ∀ limit ≥ N, run edges bound limit (Relaxation.pass edges bound { r with queue } t) =
          some d := by
      rcases hadv with hless | ⟨hd, hqueue⟩
      · exact hlower hi (hx ▸ hless)
      · exact ih hi (by rw [hd]; exact hx) hqueue
    obtain ⟨d, hd, N, hN⟩ := key
    refine ⟨d, hd, N + 1, fun limit hlimit => ?_⟩
    obtain ⟨limit, rfl⟩ := Nat.exists_eq_add_of_le' (Nat.le_of_add_left_le hlimit)
    rw [run_of_cons hq]
    exact hN limit (by omega)

/-- The computation comes to an end, with distances that no edge lowers any more. -/
theorem Invariant.exists_run (hb : 0 ≤ bound) (hsources : (Set.range sources).Finite)
    (hlt : ∀ s, ∀ e ∈ edges.getD s [], e.1 < edges.size)
    (hcost : ∀ s, ∀ e ∈ edges.getD s [], 0 ≤ e.2.cost) (h : Invariant edges sources bound s [] r) :
    ∃ d, Solved edges sources bound d ∧ ∃ N, ∀ limit ≥ N, run edges bound limit r = some d := by
  have hwf : WellFoundedLT {x | ∃ s, Attained edges sources s x} := ⟨isWF_attained hsources hcost⟩
  -- the distances of the states that there are, in a well ordered set
  obtain ⟨x, hx⟩ : ∃ x : Fin edges.size → {x | ∃ s, Attained edges sources s x},
      ∀ i, (x i : WithTop K) = costAt r.distance i :=
    ⟨fun i => ⟨_, i, h.attained i⟩, fun _ => rfl⟩
  induction x using WellFoundedLT.induction generalizing s r with
  | ind x ih =>
    refine h.exists_run_of_lt hb hlt hcost (fun {t r'} h' hless => ?_) rfl
    refine ih (fun i => ⟨_, i, h'.attained i⟩) (Pi.lt_def.2 ⟨fun i => ?_, ?_⟩) h' fun _ => rfl
    · show costAt r'.distance i ≤ x i
      rw [hx]
      exact hless.le i
    · obtain ⟨i, hi⟩ := (Pi.lt_def.1 hless).2
      have hsize : i < edges.size := by
        by_contra hge
        rw [costAt_of_le (h'.size_distance.trans_le (not_lt.1 hge)),
          costAt_of_le (h.size_distance.trans_le (not_lt.1 hge))] at hi
        exact absurd hi (lt_irrefl _)
      refine ⟨⟨i, hsize⟩, ?_⟩
      show costAt r'.distance i < x ⟨i, hsize⟩
      rw [hx]
      exact hi

end

end Transducer.Relaxation
