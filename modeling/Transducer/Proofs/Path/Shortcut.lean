import Mathlib
import Transducer.Proofs.Path.Exchange

/-!
# Ways without detours, and distances up to a bound

Distances that are computed up to a bound are too high by no more than the bound for each arc of a way
(`Backward.le_padded`). How many arcs that are does not matter much: a way that comes through a state twice can leave
out what lies between, and a way that comes through no state twice has fewer arcs than there are states
(`Way.exists_short`). So the distances are above the exact ones by no more than the bound for each state but one
(`Backward.le_add_slack`).
-/

namespace Transducer

open ExactCost Relaxation

/-! ### Ways without detours -/

namespace Automaton.Way

variable {W : Type} {a : Automaton W} {s t u : Nat} {places : List Nat} {arcs : List (Arc W)}

/-- From a state that a way comes through, the rest of the way leads to its end. -/
theorem exists_rest (h : a.Way s places arcs t) (hu : u ∈ s :: arcs.map (·.target)) :
    ∃ others arcs', a.Way u others arcs' t ∧ arcs'.Sublist arcs ∧
      (u :: arcs'.map (·.target)).Sublist (s :: arcs.map (·.target)) := by
  induction h with
  | nil s =>
    obtain rfl := List.mem_singleton.1 hu
    exact ⟨[], [], .nil u, .slnil, .refl _⟩
  | @cons s i t arc places arcs hi hway ih =>
    rcases List.mem_cons.1 hu with rfl | hu
    · exact ⟨i :: places, arc :: arcs, .cons hi hway, .refl _, .refl _⟩
    · obtain ⟨others, arcs', hrest, hsub, hstates⟩ := ih hu
      exact ⟨others, arcs', hrest, hsub.cons arc, hstates.cons s⟩

/-- A way can be made to come through no state twice, by leaving out some of its arcs. -/
theorem exists_simple (h : a.Way s places arcs t) :
    ∃ others arcs', a.Way s others arcs' t ∧ arcs'.Sublist arcs ∧ (s :: arcs'.map (·.target)).Nodup := by
  induction h with
  | nil s => exact ⟨[], [], .nil s, .slnil, List.nodup_singleton s⟩
  | @cons s i t arc places arcs hi _ ih =>
    obtain ⟨others, arcs', hway, hsub, hnodup⟩ := ih
    by_cases hs : s ∈ arc.target :: arcs'.map (·.target)
    · -- the way comes back to its first state
      obtain ⟨others', rest, hrest, hsub', hstates⟩ := hway.exists_rest hs
      exact ⟨others', rest, hrest, (hsub'.trans hsub).cons arc, hstates.nodup hnodup⟩
    · exact ⟨i :: others, arc :: arcs', .cons hi hway, hsub.cons_cons arc, List.nodup_cons.2 ⟨hs, hnodup⟩⟩

/-- All states that a way to a state that exists comes through exist. -/
theorem lt_size_of_mem (h : a.Way s places arcs t) (ht : t < a.size) :
    ∀ u ∈ s :: arcs.map (·.target), u < a.size := by
  induction h with
  | nil s =>
    intro u hu
    rwa [List.mem_singleton.1 hu]
  | cons hi hway ih =>
    intro u hu
    rcases List.mem_cons.1 hu with rfl | hu
    · exact (Way.cons hi hway).lt_size_of_last ht
    · exact ih ht u hu

/-- A way can be made to have fewer arcs than there are states. -/
theorem exists_short (h : a.Way s places arcs t) (ht : t < a.size) :
    ∃ others arcs', a.Way s others arcs' t ∧ arcs'.Sublist arcs ∧ arcs'.length ≤ a.size - 1 := by
  obtain ⟨others, arcs', hway, hsub, hnodup⟩ := h.exists_simple
  refine ⟨others, arcs', hway, hsub, ?_⟩
  have hlen := length_le_size hnodup (hway.lt_size_of_mem ht)
  rw [List.length_cons, List.length_map] at hlen
  omega

end Automaton.Way

/-! ### Surcharges -/

namespace ExactCost

variable {K : Type} [AddCommGroup K]

/-- What a sequence of arcs costs if there is a surcharge on each. -/
def padded (bound : K) (arcs : List (Arc (ExactCost K))) : WithTop K :=
  (arcs.map fun arc => arc.weight.cost + (bound : WithTop K)).sum

@[simp] theorem padded_nil (bound : K) : padded bound [] = 0 := rfl

@[simp] theorem padded_cons (bound : K) (arc : Arc (ExactCost K)) (arcs : List (Arc (ExactCost K))) :
    padded bound (arc :: arcs) = arc.weight.cost + bound + padded bound arcs := List.sum_cons

@[simp] theorem padded_append (bound : K) (arcs others : List (Arc (ExactCost K))) :
    padded bound (arcs ++ others) = padded bound arcs + padded bound others := by
  simp [padded]

theorem padded_eq (bound : K) (arcs : List (Arc (ExactCost K))) :
    padded bound arcs = total arcs + ((arcs.length • bound : K) : WithTop K) := by
  induction arcs with
  | nil => simp
  | cons arc arcs ih =>
    rw [padded_cons, ih, total_cons, List.length_cons, succ_nsmul, WithTop.coe_add]
    abel

theorem padded_ne_top {bound : K} {arcs : List (Arc (ExactCost K))} (h : total arcs ≠ ⊤) : padded bound arcs ≠ ⊤ := by
  rw [padded_eq]
  exact WithTop.add_ne_top.2 ⟨h, WithTop.coe_ne_top⟩

variable [LinearOrder K] [IsOrderedAddMonoid K]

theorem total_le_of_sublist {arcs others : List (Arc (ExactCost K))} (h : others.Sublist arcs)
    (hcost : ∀ arc ∈ arcs, 0 ≤ arc.weight.cost) : total others ≤ total arcs := by
  refine (h.map fun arc => arc.weight.cost).sum_le_sum ?_
  intro x hx
  obtain ⟨arc, harc, rfl⟩ := List.mem_map.1 hx
  exact hcost arc harc

/-- The surcharge on all states but one is enough for a way that comes through no state twice. -/
theorem padded_le {bound : K} (hb : 0 ≤ bound) {arcs : List (Arc (ExactCost K))} {m : Nat} (h : arcs.length ≤ m) :
    padded bound arcs ≤ total arcs + ((m • bound : K) : WithTop K) := by
  rw [padded_eq]
  exact add_le_add_right (WithTop.coe_le_coe.2 (nsmul_le_nsmul_left hb h)) _

end ExactCost

namespace Automaton

variable {K : Type} [AddCommGroup K] [LinearOrder K] [IsOrderedAddMonoid K] {a : Automaton (ExactCost K)}
  {s t : Nat} {places : List Nat} {arcs : List (Arc (ExactCost K))} {bound : K} {d exact : Array (ExactCost K)}

/-- A distance is not above that of any state that a way leads to, with the bound as a surcharge on the arcs. -/
theorem Backward.le_padded (hd : a.Backward bound d) (h : a.Way s places arcs t) :
    costAt d s ≤ padded bound arcs + costAt d t := by
  induction h with
  | nil s => rw [padded_nil, zero_add]
  | @cons s i t arc places arcs hi _ ih =>
    calc
      costAt d s ≤ arc.weight.cost + costAt d arc.target + bound := hd.le_arc arc (Array.mem_of_getElem? hi)
      _ ≤ arc.weight.cost + (padded bound arcs + costAt d t) + bound := by gcongr
      _ = padded bound (arc :: arcs) + costAt d t := by
        rw [padded_cons]
        abel

/-- What the bound can add up to in an automaton. -/
def slack (a : Automaton (ExactCost K)) (bound : K) : WithTop K := (((a.size - 1) • bound : K) : WithTop K)

/-- A way to a final state has a shortcut, the surcharge on which is not above the slack. -/
theorem exists_shortcut (hcost : ∀ {s}, ∀ arc ∈ a.arcsAt s, 0 ≤ arc.weight.cost) (hb : 0 ≤ bound)
    (h : a.Way s places arcs t) (ht : t < a.size) :
    ∃ others arcs', a.Way s others arcs' t ∧ padded bound arcs' ≤ total arcs + a.slack bound := by
  obtain ⟨others, arcs', hway, hsub, hlen⟩ := h.exists_short ht
  refine ⟨others, arcs', hway, (padded_le hb hlen).trans ?_⟩
  refine add_le_add_left (total_le_of_sublist hsub ?_) _
  intro arc harc
  obtain ⟨u, hu⟩ := h.exists_mem_arcsAt harc
  exact hcost arc hu

/-- Distances up to a bound are not above the exact ones by more than the slack. -/
theorem Backward.le_add_slack (hcost : ∀ {s}, ∀ arc ∈ a.arcsAt s, 0 ≤ arc.weight.cost) (hb : 0 ≤ bound)
    (hexact : a.Backward 0 exact) (hd : a.Backward bound d) (s : Nat) :
    costAt d s ≤ costAt exact s + a.slack bound := by
  rcases hexact.attained s with htop | ⟨places, arcs, t, final, hway, hf, heq⟩
  · rw [htop, WithTop.top_add]
    exact le_top
  · obtain ⟨others, arcs', hshort, hle⟩ := exists_shortcut hcost hb hway (lt_size_of_final? hf)
    calc
      costAt d s ≤ padded bound arcs' + costAt d t := hd.le_padded hshort
      _ ≤ total arcs + a.slack bound + final.cost := add_le_add hle (hd.le_final hf)
      _ = costAt exact s + a.slack bound := by
        rw [heq]
        abel

end Automaton

end Transducer
