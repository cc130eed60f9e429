import Mathlib
import Transducer.Proofs.Automaton.Bypass
import Transducer.Proofs.Automaton.EpsilonCost
import Transducer.Proofs.Automaton.EpsilonSweep
import Transducer.Proofs.Automaton.Trim
import Transducer.Proofs.Automaton.WeightedCycle

/-!
# Epsilon removal keeps the least cost of every label sequence

For exact costs the accepting
paths that carry some label pairs have a least cost, infinite if there is none, and epsilon removal does
not change it: `exists_least_cost_removeEpsilons`.

A path of the automaton is followed by a path of the one after removal that carries the same and costs no
more (`exists_bypass_way`): the epsilon arcs before each other arc are in the closure of the state where
they begin. Conversely every path after removal comes from one before it with the same cost
(`exists_way_of_bypass`). After removal only finitely many paths carry the same, so that there is a least
cost among them.
-/

namespace Transducer

open Automaton EpsilonGraph ExactCost

variable {W : Type}

/-! ### Finitely many paths -/

namespace Automaton

variable {a : Automaton W} {s : Nat}

theorem finite_places (a : Automaton W) (length s : Nat) :
    {places | places.length = length ∧ ∃ arcs t, a.Way s places arcs t}.Finite := by
  induction length generalizing s with
  | zero =>
    refine (Set.finite_singleton []).subset ?_
    rintro places ⟨hlen, -⟩
    exact List.length_eq_zero_iff.1 hlen
  | succ length ih =>
    -- the first position is one of finitely many, and so is the target
    refine (Set.Finite.biUnion (Set.finite_lt_nat (a.arcsAt s).size) (t := fun i =>
      (i :: ·) '' {places | places.length = length ∧
        ∃ arcs t, a.Way (((a.arcsAt s)[i]?.map (·.target)).getD 0) places arcs t})
      fun i _ => (ih _).image _).subset ?_
    rintro places ⟨hlen, arcs, t, hway⟩
    cases hway with
    | nil => cases hlen
    | @cons _ i _ arc places arcs hi hway =>
      have hlt : i < (a.arcsAt s).size := (Array.getElem?_eq_some_iff.1 hi).1
      refine Set.mem_biUnion hlt ⟨places, ⟨Nat.succ.inj hlen, arcs, t, ?_⟩, rfl⟩
      rw [hi]
      exact hway

/-- Only finitely many accepting paths have a given length. -/
theorem finite_paths (a : Automaton W) (length : Nat) :
    {p : AcceptingPath a | p.arcs.length = length}.Finite := by
  cases hstart : a.start with
  | none =>
    refine Set.finite_empty.subset ?_
    intro p _
    rw [p.start_eq] at hstart
    cases hstart
  | some s =>
    refine Set.Finite.of_finite_image ((finite_places a length s).subset ?_)
      (f := AcceptingPath.places) fun p _ q _ h => AcceptingPath.ext_places h
    rintro places ⟨p, hp, rfl⟩
    have hfirst := p.first_eq hstart
    exact ⟨p.way.length_eq.trans hp, p.arcs, p.last, hfirst ▸ p.way⟩

variable {K : Type} [LinearOrder K] [AddCommGroup K]

/-- The costs of the accepting paths that carry some label pairs. -/
def costs (a : Automaton (ExactCost K)) (labels : List (Label × Label)) : Set (WithTop K) :=
  {x | ∃ p : AcceptingPath a, carried p.arcs = labels ∧ p.weight.cost = x}

/-- Without epsilon arcs there is a least cost. -/
theorem exists_least_cost {a : Automaton (ExactCost K)}
    (h : ∀ {s : Nat}, ∀ arc ∈ a.arcsAt s, arc.isEpsilon = false) (labels : List (Label × Label)) :
    ∃ m, IsLeast (insert ⊤ (a.costs labels)) m := by
  have hfin : (a.costs labels).Finite := by
    refine ((finite_paths a labels.length).image fun p => p.weight.cost).subset ?_
    rintro x ⟨p, rfl, rfl⟩
    refine ⟨p, (length_carried ?_).symm, rfl⟩
    intro arc harc
    obtain ⟨u, hu⟩ := p.way.exists_mem_arcsAt harc
    exact h arc hu
  obtain ⟨m, hm, hle⟩ := Set.exists_min_image _ id (hfin.insert ⊤) ⟨⊤, Set.mem_insert _ _⟩
  exact ⟨m, hm, hle⟩

/-- Trimming keeps the costs. -/
theorem costs_trim {a : Automaton (ExactCost K)} (wf : a.WellFormed) (labels : List (Label × Label)) :
    a.trim.costs labels = a.costs labels := by
  obtain ⟨e, he⟩ := exists_equiv_trim wf.start_lt
  ext x
  constructor
  · rintro ⟨p, hp, rfl⟩
    have hcontent := he (e.symm p)
    rw [Equiv.apply_symm_apply] at hcontent
    exact ⟨e.symm p, by rw [← hp, carried_congr (Prod.mk.inj hcontent).1],
      by rw [AcceptingPath.weight_congr hcontent]⟩
  · rintro ⟨p, hp, rfl⟩
    exact ⟨e p, by rw [← hp, carried_congr (Prod.mk.inj (he p)).1], by rw [AcceptingPath.weight_congr (he p)]⟩

/-! ### Paths before and after -/

variable {a : Automaton (ExactCost K)} {s t : Nat}

theorem cost_ne_top_of_bypass (hs : s < a.size) {final : ExactCost K} (h : a.bypass.final? s = some final) :
    final.cost ≠ ⊤ := by
  obtain ⟨hz, -⟩ := (final?_bypass hs).1 h
  exact (isZero_eq_false_iff final).1 hz

/-- The final weight after removal is the least of those in the closure. -/
theorem final?_bypass_eq_some (hs : s < a.size) {final : ExactCost K}
    (h : a.bypass.final? s = some final) : final.cost =
      orTop ((EpsilonGraph.of a).replacement ((EpsilonGraph.of a).component s)).final := by
  obtain ⟨hz, rfl⟩ := (final?_bypass hs).1 h
  cases ((EpsilonGraph.of a).replacement ((EpsilonGraph.of a).component s)).final with
  | none => rfl
  | some v => rfl

theorem mem_finals {g : EpsilonGraph (ExactCost K)} {root : Nat} {v : ExactCost K} :
    v ∈ g.finals root ↔ ∃ t d final, (t, d) ∈ g.closure root ∧ g.automaton.final? t = some final ∧
      v = d * final := by
  simp only [finals, List.mem_filterMap, Option.map_eq_some_iff, Prod.exists]
  refine exists_congr fun t => exists_congr fun d => ?_
  constructor
  · rintro ⟨h, final, hf, rfl⟩
    exact ⟨final, h, hf, rfl⟩
  · rintro ⟨final, h, hf, rfl⟩
    exact ⟨h, final, hf, rfl⟩

/-- A final state of the closure makes a state final, at no higher cost. -/
theorem exists_final?_bypass (hs : s < a.size) {d final : ExactCost K}
    (h : (t, d) ∈ (EpsilonGraph.of a).closure ((EpsilonGraph.of a).component s))
    (hf : a.final? t = some final) (hfin : d.cost + final.cost ≠ ⊤) :
    ∃ final', a.bypass.final? s = some final' ∧ final'.cost ≤ d.cost + final.cost := by
  have hle : orTop ((EpsilonGraph.of a).replacement ((EpsilonGraph.of a).component s)).final ≤
      d.cost + final.cost := by
    rw [final_replacement]
    exact (le_orTop_foldl.1 le_rfl).2 _ (mem_finals.2 ⟨t, d, final, h, hf, rfl⟩)
  cases hr : ((EpsilonGraph.of a).replacement ((EpsilonGraph.of a).component s)).final with
  | none =>
    rw [hr, orTop_none, top_le_iff] at hle
    exact absurd hle hfin
  | some v =>
    rw [hr, orTop_some] at hle
    refine ⟨v, (final?_bypass hs).2 ⟨?_, by rw [hr]; rfl⟩, hle⟩
    rw [isZero_eq_false_iff]
    rintro htop
    rw [htop, top_le_iff] at hle
    exact hfin hle

/-- A way to a final state after removal comes from one before it. -/
theorem exists_way_of_bypass (wf : a.WellFormed) (free : a.FreeCycles) (hs : s < a.size)
    {places : List Nat} {arcs : List (Arc (ExactCost K))} (hway : a.bypass.Way s places arcs t)
    {final : ExactCost K} (hf : a.bypass.final? t = some final) :
    ∃ places' arcs' t' final', a.Way s places' arcs' t' ∧ a.final? t' = some final' ∧
      carried arcs' = carried arcs ∧ total arcs' + final'.cost = total arcs + final.cost := by
  induction hway with
  | nil s =>
    have htop := cost_ne_top_of_bypass hs hf
    have hcost := final?_bypass_eq_some hs hf
    rw [final_replacement] at hcost
    rcases orTop_foldl_mem none ((EpsilonGraph.of a).finals ((EpsilonGraph.of a).component s)) with
      hmin | ⟨v, hv, hmin⟩
    · exact absurd (hcost.trans hmin) htop
    · obtain ⟨t', d, final', hd, hf', rfl⟩ := mem_finals.1 hv
      rw [hmin, cost_mul] at hcost
      rw [hcost] at htop
      obtain ⟨places, arcs, hway, htotal⟩ :=
        exists_way_of_mem_closure wf free hs hd (WithTop.add_ne_top.1 htop).1
      refine ⟨places, arcs, t', final', hway.1, hf', carried_eq_nil hway.2, ?_⟩
      rw [htotal, hcost, total_nil, zero_add]
  | @cons s i t arc places arcs hi _ ih =>
    have hmem := Array.mem_of_getElem? hi
    rw [arcsAt_bypass hs] at hmem
    obtain ⟨u, d, hd, old, hold, he, hz, rfl⟩ := mem_arcs_replacement.1 hmem
    rw [isZero_eq_false_iff, cost_mul] at hz
    obtain ⟨ps, es, hbefore, htotal⟩ :=
      exists_way_of_mem_closure wf free hs hd (WithTop.add_ne_top.1 hz).1
    obtain ⟨places', arcs', t', final', hway', hf', hcarried, hcost⟩ :=
      ih (wf.target_lt hold : old.target < a.size) hf
    obtain ⟨k, hk⟩ := Array.getElem?_of_mem hold
    refine ⟨ps ++ k :: places', es ++ old :: arcs', t', final', hbefore.1.append (.cons hk hway'), hf', ?_, ?_⟩
    · rw [carried_append, carried_eq_nil hbefore.2, List.nil_append, carried_cons_of_not_epsilon he, hcarried]
      exact (carried_cons_of_not_epsilon
        (show ({ old with weight := d * old.weight } : Arc _).isEpsilon = false from he) arcs).symm
    · rw [total_append, total_cons, total_cons, cost_mul, add_assoc, add_assoc, hcost, htotal, add_assoc,
        add_assoc]

variable [IsOrderedAddMonoid K]

/-- An arc after epsilon arcs is put where these begin, at no higher cost. -/
theorem exists_mem_arcsAt_bypass (wf : a.WellFormed) (free : a.FreeCycles) (hs : s < a.size) {u : Nat}
    {ps : List Nat} {es : List (Arc (ExactCost K))} (hbefore : a.EpsilonWay s ps es u) (hes : total es ≠ ⊤)
    {arc : Arc (ExactCost K)} (hmem : arc ∈ a.arcsAt u) (he : arc.isEpsilon = false)
    (harc : arc.weight.cost ≠ ⊤) :
    ∃ weight, { arc with weight } ∈ a.bypass.arcsAt s ∧ weight.cost ≤ total es + arc.weight.cost := by
  obtain ⟨d, hd, hle⟩ := exists_mem_closure_of_way wf free hs hbefore hes
  have hsum : (d * arc.weight).cost ≤ total es + arc.weight.cost := by
    rw [cost_mul]
    gcongr
  have hz : isZero (d * arc.weight) = false := by
    rw [isZero_eq_false_iff]
    exact ne_top_of_le_ne_top (WithTop.add_ne_top.2 ⟨hes, harc⟩) hsum
  refine ⟨d * arc.weight, ?_, hsum⟩
  rw [arcsAt_bypass hs]
  exact mem_arcs_replacement.2 ⟨u, d, hd, arc, hmem, he, hz, rfl⟩

/-- A way to a final state is followed after removal, with the epsilon arcs before it taken into account:
what is carried stays, and the cost does not rise. -/
theorem exists_bypass_way (wf : a.WellFormed) (free : a.FreeCycles) (hs : s < a.size) {u : Nat}
    {ps qs : List Nat} {es rest : List (Arc (ExactCost K))} (hbefore : a.EpsilonWay s ps es u)
    (hway : a.Way u qs rest t) {final : ExactCost K} (hf : a.final? t = some final)
    (hfin : total es + (total rest + final.cost) ≠ ⊤) :
    ∃ places arcs t' final', a.bypass.Way s places arcs t' ∧ a.bypass.final? t' = some final' ∧
      carried arcs = carried rest ∧
      total arcs + final'.cost ≤ total es + (total rest + final.cost) := by
  induction hway generalizing s ps es with
  | nil u =>
    rw [total_nil, zero_add] at hfin
    obtain ⟨d, hd, hle⟩ := exists_mem_closure_of_way wf free hs hbefore (WithTop.add_ne_top.1 hfin).1
    have hle' : d.cost + final.cost ≤ total es + final.cost := by gcongr
    have hfin' := ne_top_of_le_ne_top hfin hle'
    obtain ⟨final', hf', hle''⟩ := exists_final?_bypass hs hd hf hfin'
    refine ⟨[], [], s, final', .nil s, hf', rfl, ?_⟩
    rw [total_nil, zero_add, zero_add]
    exact hle''.trans hle'
  | @cons u i t arc qs rest hi _ ih =>
    rw [total_cons, add_assoc] at hfin
    by_cases he : arc.isEpsilon = true
    · -- one more arc before what comes next
      obtain ⟨places, arcs, t', final', hway', hf', hcarried, hle⟩ :=
        ih hs (hbefore.append (.single hi he)) hf (by simpa [add_assoc] using hfin)
      refine ⟨places, arcs, t', final', hway', hf', ?_, ?_⟩
      · rw [hcarried, carried_cons_of_epsilon he]
      · simpa [add_assoc] using hle
    · have he : arc.isEpsilon = false := by simpa using he
      obtain ⟨hes, hrest⟩ := WithTop.add_ne_top.1 hfin
      obtain ⟨harc, hrest⟩ := WithTop.add_ne_top.1 hrest
      have hmem := Array.mem_of_getElem? hi
      obtain ⟨weight, hnew, hle⟩ := exists_mem_arcsAt_bypass wf free hs hbefore hes hmem he harc
      obtain ⟨k, hk⟩ := Array.getElem?_of_mem hnew
      obtain ⟨places, arcs, t', final', hway', hf', hcarried, hle'⟩ :=
        ih (wf.target_lt hmem) (.nil _) hf (by simpa using hrest)
      refine ⟨k :: places, _ :: arcs, t', final', .cons hk hway', hf', ?_, ?_⟩
      · rw [carried_cons_of_not_epsilon he]
        refine (carried_cons_of_not_epsilon
          (show ({ arc with weight } : Arc _).isEpsilon = false from he) arcs).trans ?_
        rw [hcarried]
      · rw [total_nil, zero_add] at hle'
        calc
          total ({ arc with weight } :: arcs) + final'.cost
            = weight.cost + (total arcs + final'.cost) := by rw [total_cons, add_assoc]
          _ ≤ total es + arc.weight.cost + (total rest + final.cost) := by gcongr
          _ = total es + (total (arc :: rest) + final.cost) := by
            rw [total_cons, add_assoc, add_assoc]

/-- The least costs before and after removal are the same. -/
theorem exists_least_cost_bypass (wf : a.WellFormed) (free : a.FreeCycles) (labels : List (Label × Label)) :
    ∃ m, IsLeast (insert ⊤ (a.costs labels)) m ∧ IsLeast (insert ⊤ (a.bypass.costs labels)) m := by
  have hcost : ∀ {b : Automaton (ExactCost K)} (p : AcceptingPath b),
      p.weight.cost = total p.arcs + p.final.cost := fun p => cost_weigh p.arcs p.final
  obtain ⟨m, hm, hle⟩ := exists_least_cost (a := a.bypass) (fun {s} arc harc => by
    have hs := lt_size_of_mem harc
    rw [size_bypass] at hs
    rw [arcsAt_bypass hs] at harc
    obtain ⟨-, -, -, old, -, he, -, rfl⟩ := mem_arcs_replacement.1 harc
    exact he) labels
  refine ⟨m, ⟨?_, ?_⟩, hm, hle⟩
  · rcases hm with rfl | ⟨p, hp, rfl⟩
    · exact Set.mem_insert _ _
    · have hs := wf.start_lt p.start_eq
      obtain ⟨places, arcs, t, final, hway, hf, hcarried, heq⟩ :=
        exists_way_of_bypass wf free hs p.way p.final_eq
      refine Set.mem_insert_of_mem _ ⟨⟨p.first, places, arcs, t, final, p.start_eq, hway, hf⟩, ?_, ?_⟩
      · rw [← hp, ← hcarried]
      · rw [hcost, hcost]
        exact heq
  · rintro x (rfl | ⟨p, hp, rfl⟩)
    · exact le_top
    · by_cases htop : p.weight.cost = ⊤
      · rw [htop]
        exact le_top
      · rw [hcost] at htop
        obtain ⟨places, arcs, t, final, hway, hf, hcarried, hle'⟩ :=
          exists_bypass_way wf free (wf.start_lt p.start_eq) (.nil p.first) p.way p.final_eq
            (by simpa using htop)
        refine (hle (Set.mem_insert_of_mem _
          ⟨⟨p.first, places, arcs, t, final, p.start_eq, hway, hf⟩, ?_, rfl⟩)).trans ?_
        · rw [← hp, ← hcarried]
        · rw [hcost, hcost]
          simpa using hle'

/-- If the epsilon arcs on cycles are free, then none of them has a weight that counts. -/
theorem weightedCycle?_eq_none (wf : a.WellFormed) (free : a.FreeCycles) {bound : K} (hbound : 0 ≤ bound) :
    (EpsilonGraph.of a).weightedCycle? bound = none := by
  refine (weightedCycle?_eq_none_iff wf.target_lt).2 ?_
  rintro s ⟨arc, hmem, he, hweight, hback⟩
  have happrox : approxEq (1 : ExactCost K) 1 bound = true := by
    rw [approxEq_iff, cost_one, if_neg (by simp)]
    have hle : (0 : WithTop K) ≤ 0 + (bound : WithTop K) := by
      rw [zero_add]
      exact_mod_cast hbound
    exact ⟨hle, hle⟩
  rw [free hmem he hback, happrox] at hweight
  cases hweight

/-- Epsilon removal keeps, for all label pairs, the least cost of the accepting paths that carry them, if
the epsilon arcs on cycles are free; it does not fail then, and arrays that are shared by all components serve it. -/
theorem exists_least_cost_removeEpsilons (wf : a.WellFormed) (free : a.FreeCycles)
    (config : EpsilonRemoval K) (hbound : 0 ≤ config.bound) :
    ∃ b, Edit.removeEpsilons config a = .ok () b ∧ Edit.sweepEpsilons config a = .ok () b ∧
      ∀ labels : List (Label × Label), ∃ m,
        IsLeast (insert ⊤ (a.costs labels)) m ∧ IsLeast (insert ⊤ (b.costs labels)) m := by
  rw [Edit.sweepEpsilons_eq wf]
  by_cases heps : a.anyArc (·.isEpsilon) = true
  · have hremove := Edit.removeEpsilons_eq wf.target_lt heps (weightedCycle?_eq_none wf free hbound)
    refine ⟨_, hremove, hremove, ?_⟩
    intro labels
    cases config.trim with
    | false => exact exists_least_cost_bypass wf free labels
    | true =>
      rw [if_pos rfl, costs_trim (wellFormed_bypass wf)]
      exact exists_least_cost_bypass wf free labels
  · have heps : a.anyArc (·.isEpsilon) = false := by simpa using heps
    have hnone : ∀ {s : Nat}, ∀ arc ∈ a.arcsAt s, arc.isEpsilon = false := by
      refine forall_mem_arcsAt_iff.2 ?_
      intro state hstate arc harc
      rw [anyArc, Array.any_eq_false'] at heps
      have harcs := heps state hstate
      rw [Bool.not_eq_true, Array.any_eq_false'] at harcs
      simpa using harcs arc harc
    have hkeep := Edit.removeEpsilons_of_no_epsilon heps config
    refine ⟨a, hkeep, hkeep, ?_⟩
    intro labels
    obtain ⟨m, hm⟩ := exists_least_cost hnone labels
    exact ⟨m, hm, hm⟩

/-- An automaton with a free cycle of epsilon arcs and an epsilon arc of negative cost that leaves it. -/
def descent : Automaton (ExactCost ℤ) where
  states := #[{ arcs := #[⟨epsilon, epsilon, 1, 1⟩] },
    { arcs := #[⟨epsilon, epsilon, 1, 0⟩, ⟨epsilon, epsilon, ⟨((-3 : ℤ) : WithTop ℤ)⟩, 2⟩] },
    { final := some 1, arcs := #[⟨1, 2, ⟨((5 : ℤ) : WithTop ℤ)⟩, 0⟩] }]
  start := some 0

theorem exists_least_cost_removeEpsilons_descent : ∃ b,
    Edit.removeEpsilons ⟨true, (0 : ℤ)⟩ descent = .ok () b ∧ Edit.sweepEpsilons ⟨true, (0 : ℤ)⟩ descent = .ok () b ∧
    ∀ labels : List (Label × Label), ∃ m,
      IsLeast (insert ⊤ (descent.costs labels)) m ∧ IsLeast (insert ⊤ (b.costs labels)) m :=
  exists_least_cost_removeEpsilons (by decide) ((freeCycles_iff (by decide)).2 (by decide +kernel)) ⟨true, 0⟩ le_rfl

end Automaton

end Transducer
