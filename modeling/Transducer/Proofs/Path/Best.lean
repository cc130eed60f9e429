import Mathlib
import Transducer.Proofs.Path.BestSearch
import Transducer.Proofs.Path.FanPaths

/-!
# Best paths are best

If arcs have finite costs that are not negative and final weights are finite, then the search for best
paths comes to an end, and its result is the fan of the best accepting paths.
-/

namespace Transducer.Automaton

open ExactCost Relaxation

variable {K : Type} [AddCommGroup K] [LinearOrder K] {a : Automaton (ExactCost K)} {n start : Nat}

theorem best_nil (h : IsEmpty (AcceptingPath a)) : Best n ([] : List (AcceptingPath a)) where
  nodup := List.nodup_nil
  length_eq := by simp [(ENat.card_eq_zero_iff_empty _).2 h]
  sorted := List.Pairwise.nil
  le_of_notMem _ _ _ hq := by cases hq

theorem bestPaths_of_start_eq_none (h : a.start = none) (n : Nat) (bound : K) (limit : Nat) :
    a.bestPaths n bound limit = some (a.fan []) := by
  unfold bestPaths
  rw [h]
  rfl

theorem bestPaths_of_distances (hstart : a.start = some start) (hn : n ≠ 0) {bound : K} {limit : Nat}
    {d : Array (ExactCost K)} (hd : a.distances .backward bound limit = some d) :
    a.bestPaths n bound limit =
      some (if isZero (d.getD start 0) then a.fan []
        else (a.bestFrom start d n).foldl a.addBest
          { inputSymbols := a.inputSymbols, outputSymbols := a.outputSymbols, states := #[{}],
            start := some 0 }) := by
  obtain ⟨m, rfl⟩ := Nat.exists_eq_succ_of_ne_zero hn
  unfold bestPaths
  rw [hstart]
  dsimp only
  rw [hd]
  rfl

/-- If there are distances and the start has a finite one, then the search from there for `n` paths comes
to an end by itself. -/
def SearchEnds (a : Automaton (ExactCost K)) (n : Nat) (bound : K) (limit : Nat) : Prop :=
  ∀ start d, a.start = some start → a.distances .backward bound limit = some d →
    isZero (d.getD start 0) = false → BestSearch.Ends a d n (BestSearch.initial a start d) (a.bestFrom start d n)

variable [IsOrderedAddMonoid K]

/-- The search for the best `n` paths ends, and its result is the fan of the best accepting paths. -/
theorem exists_bestPaths
    (harcs : ∀ {s}, ∀ arc ∈ a.arcsAt s, 0 ≤ arc.weight.cost ∧ arc.weight.cost ≠ ⊤)
    (hfinal : ∀ {s final}, a.final? s = some final → final.cost ≠ ⊤) (hn : 0 < n) :
    ∃ paths : List (AcceptingPath a), Best n paths ∧
      (∃ e : Fin paths.length ≃ AcceptingPath (a.fan paths), ∀ k, (e k).content = paths[k].content) ∧
      ∃ N, ∀ limit ≥ N, a.SearchEnds n (0 : K) limit ∧ a.bestPaths n (0 : K) limit = some (a.fan paths) := by
  have hfinite : ∀ {s}, ∀ arc ∈ a.arcsAt s, arc.weight.cost ≠ ⊤ := fun {s} arc h => (harcs arc h).2
  cases hstart : a.start with
  | none =>
    have hempty : IsEmpty (AcceptingPath a) := ⟨fun q => by simpa [hstart] using q.start_eq⟩
    refine ⟨[], best_nil hempty, exists_equiv_fan List.nodup_nil, 0, fun limit _ => ⟨?_, ?_⟩⟩
    · intro start d h
      rw [hstart] at h
      cases h
    · exact bestPaths_of_start_eq_none hstart n 0 limit
  | some start =>
    obtain ⟨d, hd, N, hN⟩ := exists_distances_backward (fun {s} arc h => (harcs arc h).1) (le_refl (0 : K))
    have hends : ∀ limit ≥ N, a.SearchEnds n (0 : K) limit := by
      intro limit hlimit s d' hs hd' hroot
      obtain rfl := Option.some.inj (hstart.symm.trans hs)
      obtain rfl := Option.some.inj ((hN limit hlimit).symm.trans hd')
      exact (BestSearch.exists_best hd hstart hfinite hfinal ((isZero_eq_false_iff _).1 hroot) hn).1
    by_cases hroot : costAt d start = ⊤
    · have hempty : IsEmpty (AcceptingPath a) := by
        refine ⟨fun q => ?_⟩
        have hle := hd.le_total (q.beginning hstart).way q.final_eq
        rw [hroot, top_le_iff] at hle
        exact WithTop.add_ne_top.2 ⟨Trace.total_ne_top hfinite q.way, hfinal q.final_eq⟩ hle
      refine ⟨[], best_nil hempty, exists_equiv_fan List.nodup_nil, N, fun limit hlimit =>
        ⟨hends limit hlimit, ?_⟩⟩
      rw [bestPaths_of_distances hstart hn.ne' (hN limit hlimit), if_pos ((isZero_iff _).2 hroot)]
    · obtain ⟨-, paths, hbest, hfound⟩ := BestSearch.exists_best hd hstart hfinite hfinal hroot hn
      have hne : paths ≠ [] := by
        obtain ⟨places, arcs, t, final, hway, hf, -⟩ := (hd.attained start).resolve_left hroot
        rintro rfl
        have hmin := hbest.length_eq
        rw [List.length_nil, Nat.cast_zero] at hmin
        rcases min_choice (n : ℕ∞) (ENat.card (AcceptingPath a)) with h | h
        · exact hn.ne' (Nat.cast_eq_zero.1 (h.symm.trans hmin.symm))
        · have hempty := (ENat.card_eq_zero_iff_empty _).1 (h.symm.trans hmin.symm)
          exact hempty.false ⟨start, places, arcs, t, final, hstart, hway, hf⟩
      refine ⟨paths, hbest, exists_equiv_fan hbest.nodup, N, fun limit hlimit => ⟨hends limit hlimit, ?_⟩⟩
      rw [bestPaths_of_distances hstart hn.ne' (hN limit hlimit),
        if_neg fun hzero => hroot ((isZero_iff _).1 hzero)]
      refine congrArg some (foldl_addBest hfound (fun q _ => ?_) hne)
      exact (isZero_eq_false_iff _).2 (hfinal q.final_eq)

/-- An automaton with a free cycle, two ways of the same cost, and a final weight that is a gain. -/
def roundabout : Automaton (ExactCost ℤ) where
  states := #[{ arcs := #[⟨1, 1, 1, 0⟩, ⟨2, 2, ⟨((4 : ℤ) : WithTop ℤ)⟩, 1⟩, ⟨3, 3, ⟨((4 : ℤ) : WithTop ℤ)⟩, 1⟩] },
    { final := some ⟨((-2 : ℤ) : WithTop ℤ)⟩ }]
  start := some 0

theorem exists_bestPaths_roundabout :
    ∃ paths : List (AcceptingPath roundabout), Best 5 paths ∧
      (∃ e : Fin paths.length ≃ AcceptingPath (roundabout.fan paths), ∀ k, (e k).content = paths[k].content) ∧
      ∃ N, ∀ limit ≥ N, roundabout.SearchEnds 5 (0 : ℤ) limit ∧
        roundabout.bestPaths 5 (0 : ℤ) limit = some (roundabout.fan paths) :=
  exists_bestPaths (forall_mem_arcsAt_iff.2 (by decide))
    ((forall_final?_iff (a := roundabout) (P := fun weight => weight.cost ≠ ⊤)).2 (by decide)) (by decide)

end Transducer.Automaton
