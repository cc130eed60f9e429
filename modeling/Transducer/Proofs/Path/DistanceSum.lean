import Mathlib
import Transducer.Proofs.Path.RouteSum

/-!
# Distances in automata without cycles

Up to a bound by which only equal weights are approximately equal, the updates that are dropped change nothing. Then in an
automaton without cycles the distances are the sums of the weights of the routes, though a state may be passed several
times, each time with what has been added to its distance since. The order in which the states leave the queue does not
matter either (`exists_distances_finsum`).
-/

namespace Transducer.Automaton

open Relaxation

open scoped LawfulSemiring

variable {W D : Type} {a : Automaton W} {bound : D} {direction : Direction} {r r' : Relaxation W}
  {s k k' : Nat}

theorem size_edges (a : Automaton W) (direction : Direction) : (a.edges direction).size = a.size := by
  cases direction with
  | forward => exact a.size_outgoing
  | backward => exact a.size_incoming

variable [Weight W] [Tolerance W D]

/-- Without cycles there is a bound on the number of passes, in any order. -/
theorem exists_passes_le (acyclic : ¬a.Satisfies .cyclic) (direction : Direction) (bound : D) :
    ∃ N, ∀ k r, Passes (a.edges direction) bound (a.outset direction) k r → k ≤ N := by
  obtain ⟨rank, hrank⟩ := exists_rank acyclic direction
  obtain ⟨price, hprice⟩ := exists_price hrank
  exact ⟨_, fun k r h => le_of_add_le_left (h.add_le hprice)⟩

variable [LawfulSemiring W] [CommMul W]

/-- When nobody waits, the distances are the sums over the routes. -/
theorem distance_eq_finsum (hexact : ∀ v w : W, approxEq v w bound = true ↔ v = w) (acyclic : ¬a.Satisfies .cyclic)
    (h : Passes (a.edges direction) bound (a.outset direction) k r) (hq : r.queue = []) (hs : s < a.size) :
    r.distance.getD s 0 = ∑ᶠ p : a.Route direction s, p.weight := by
  rcases a.unspent_outset direction with hout | ⟨rfl, start, hfirst, hle⟩
  · rw [← size_edges a direction] at hout
    obtain ⟨passed, hledger⟩ := hout.ledger.passes hexact h
    obtain ⟨rank, hrank⟩ := exists_rank acyclic direction
    have hsize := size_edges a direction
    exact eq_of_solved hrank (fun t ht => hledger.solved hq ht)
      (fun t ht => finsum_route_eq acyclic direction (ht.trans_eq hsize)) (hs.trans_eq hsize.symm)
  · have hempty := Route.isEmpty_forward hfirst hle hs
    rw [(passes_of_size_le hfirst hle h).2, finsum_of_isEmpty]
    simp [Array.getD_eq_getD_getElem?, hs]

/-- All computations that have come to an end agree, since the sums do not depend on them. -/
theorem distance_eq_of_passes (hexact : ∀ v w : W, approxEq v w bound = true ↔ v = w) (acyclic : ¬a.Satisfies .cyclic)
    (h : Passes (a.edges direction) bound (a.outset direction) k r) (hq : r.queue = [])
    (h' : Passes (a.edges direction) bound (a.outset direction) k' r') (hq' : r'.queue = []) : r.distance = r'.distance := by
  refine Array.ext ((size_of_passes h).trans (size_of_passes h').symm) fun s hs hs' => ?_
  have hlt : s < a.size := hs.trans_eq (size_of_passes h)
  have heq := (distance_eq_finsum hexact acyclic h hq hlt).trans (distance_eq_finsum hexact acyclic h' hq' hlt).symm
  simpa [Array.getD_eq_getD_getElem?, hs, hs'] using heq

/-- Without cycles, and up to a bound by which only equal weights are approximately equal, a state has finitely many
routes, and its distance is the sum of their weights. The distances are found in finitely many steps. This is so in
whatever order the states that wait are taken: there is one bound on the number of passes, and whenever nobody waits any
more, the distances are these. -/
theorem exists_distances_finsum (hexact : ∀ v w : W, approxEq v w bound = true ↔ v = w)
    (acyclic : ¬a.Satisfies .cyclic) (direction : Direction) :
    (∀ s, Finite (a.Route direction s)) ∧ ∃ d : Array W, d.size = a.size ∧
      (∀ s < a.size, d.getD s 0 = ∑ᶠ p : a.Route direction s, p.weight) ∧
      ∃ N, (∀ limit ≥ N, a.distances direction bound limit = some d) ∧
        ∀ k r, Passes (a.edges direction) bound (a.outset direction) k r → k ≤ N ∧ (r.queue = [] → r.distance = d) := by
  obtain ⟨N, hN⟩ := exists_passes_le acyclic direction bound
  have hrun : ∀ limit ≥ N, ∃ k r, Passes (a.edges direction) bound (a.outset direction) k r ∧ r.queue = [] ∧
      a.distances direction bound limit = some r.distance := by
    intro limit hlimit
    obtain ⟨d, hd⟩ := exists_run_of_passes hN .none (hlimit.le.trans (Nat.zero_add _).ge)
    obtain ⟨k, r, hr, hq, rfl⟩ := exists_passes_of_run hd .none
    exact ⟨k, r, hr, hq, (distances_eq ..).trans hd⟩
  obtain ⟨k, r, hr, hq, -⟩ := hrun N le_rfl
  refine ⟨finite_route acyclic direction, r.distance, size_of_passes hr, fun s => distance_eq_finsum hexact acyclic hr hq, N,
    fun limit hlimit => ?_, fun k' r' hr' => ⟨hN k' r' hr', fun hq' => distance_eq_of_passes hexact acyclic hr' hq' hr hq⟩⟩
  obtain ⟨k', r', hr', hq', hdist⟩ := hrun limit hlimit
  rw [hdist, distance_eq_of_passes hexact acyclic hr' hq' hr hq]

/-- Arms of a river, two of them between the same states; one that is reached soon is reached again later. -/
def estuary : Automaton (Mass ℕ) where
  states := #[{ arcs := #[⟨1, 1, ⟨5⟩, 3⟩, ⟨2, 2, ⟨2⟩, 1⟩] }, { arcs := #[⟨3, 3, ⟨3⟩, 2⟩, ⟨3, 3, ⟨4⟩, 2⟩] },
    { arcs := #[⟨4, 4, ⟨7⟩, 3⟩] }, { arcs := #[⟨5, 5, 1, 4⟩], final := some ⟨3⟩ }, { final := some 1 }]
  start := some 0

theorem exists_distances_finsum_estuary :
    (∀ s, Finite (estuary.Route .forward s)) ∧ ∃ d : Array (Mass ℕ), d.size = estuary.size ∧
      (∀ s < estuary.size, d.getD s 0 = ∑ᶠ p : estuary.Route .forward s, p.weight) ∧
      ∃ N, (∀ limit ≥ N, estuary.distances .forward (0 : ℕ) limit = some d) ∧
        ∀ k r, Passes (estuary.edges .forward) (0 : ℕ) (estuary.outset .forward) k r →
          k ≤ N ∧ (r.queue = [] → r.distance = d) :=
  exists_distances_finsum Mass.approxEq_zero_iff ((decides_iff .cyclic).not.1 (by decide +kernel)) .forward

example : estuary.distances .forward (0 : ℕ) 7 = some #[1, ⟨2⟩, ⟨14⟩, ⟨103⟩, ⟨103⟩] := by decide +kernel

end Transducer.Automaton
