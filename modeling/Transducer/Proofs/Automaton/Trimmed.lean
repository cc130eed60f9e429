import Mathlib
import Transducer.Proofs.Automaton.Restriction
import Transducer.Proofs.Automaton.Useful

/-!
# What trimming leaves

A state is useful if some accepting path passes through it (`useful_iff_exists_path`). Trimming restricts an automaton
to these states, in their old order, and so it keeps every accepting path and does nothing the second time
(`exists_restricts_trim`).

A path that starts at the start and ends at a final state passes through useful states only, whatever cycles there are.
So there are no states left as soon as the start itself is useless.
-/

namespace Transducer.Automaton

variable {W : Type} {a : Automaton W} {s : Nat}

/-- The states that the path passes through, from the start to the final one. -/
def AcceptingPath.states (p : AcceptingPath a) : List Nat := p.first :: p.arcs.map (·.target)

/-- A way passes through its end. -/
theorem Way.mem_states {r : Nat} {places : List Nat} {arcs : List (Arc W)} (h : a.Way r places arcs s) :
    s ∈ r :: arcs.map (·.target) :=
  h.last_of_forall (P := (· ∈ r :: arcs.map (·.target))) List.mem_cons_self fun _ harc =>
    List.mem_cons_of_mem _ (List.mem_map_of_mem harc)

/-- The useful states are those on accepting paths. -/
theorem useful_iff_exists_path : a.useful.getD s false = true ↔ ∃ p : AcceptingPath a, s ∈ p.states := by
  rw [useful_iff_exists_way]
  constructor
  · rintro ⟨r, places, arcs, t, others, arcs', hstart, hway, hway', hfinal⟩
    obtain ⟨final, hfinal⟩ := Option.isSome_iff_exists.1 hfinal
    refine ⟨⟨r, _, _, t, final, hstart, hway.append hway', hfinal⟩, ?_⟩
    show s ∈ r :: (arcs ++ arcs').map (·.target)
    rw [List.map_append, ← List.cons_append]
    exact List.mem_append_left _ hway.mem_states
  · rintro ⟨p, hs⟩
    have hfinal : (a.final? p.last).isSome = true := by rw [p.final_eq]; rfl
    rcases List.mem_cons.1 hs with rfl | hs
    · exact ⟨_, _, _, _, _, _, p.start_eq, .nil _, p.way, hfinal⟩
    · obtain ⟨arc, harc, rfl⟩ := List.mem_map.1 hs
      obtain ⟨before, after, hbefore, hafter⟩ := p.way.split_at harc
      exact ⟨_, _, _, _, _, _, p.start_eq, hbefore, hafter, hfinal⟩

/-- Trimming restricts an automaton to its useful states, also if these are all and nothing is done. -/
theorem restricts_trim (hstart : ∀ {s : Nat}, a.start = some s → s < a.size)
    (htarget : ∀ {s : Nat}, ∀ arc ∈ a.arcsAt s, arc.target < a.size) :
    a.trim.Restricts a (keptStates (a.useful.getD · false) a.size) := by
  unfold trim
  dsimp only
  split
  · next hall =>
    have hrange : keptStates (a.useful.getD · false) a.size = List.range a.size :=
      List.filter_eq_self.2 fun s hs => all_useful_iff.1 hall s (List.mem_range.1 hs)
    rw [hrange]
    exact .refl hstart htarget
  · exact restricts_keep hstart _

/-- There is nothing to trim the second time. -/
theorem trim_trim [Weight W] (a : Automaton W) : a.trim.trim = a.trim :=
  if_pos (all_useful_iff.2 (trimmed_iff.1 (trimmed_trim a)))

/-- Trimming leaves the states on accepting paths, in their old order, with the arcs between them. It leaves no state
if the start is not one of these. The accepting paths are the same as before. -/
theorem exists_restricts_trim [Weight W] (hstart : ∀ {s : Nat}, a.start = some s → s < a.size)
    (htarget : ∀ {s : Nat}, ∀ arc ∈ a.arcsAt s, arc.target < a.size) :
    (∃ states : List Nat, states.Pairwise (· < ·) ∧ (∀ s, s ∈ states ↔ ∃ p : AcceptingPath a, s ∈ p.states) ∧
      a.trim.Restricts a states ∧
      ((∀ r, a.start = some r → r ∉ states) → a.trim.size = 0 ∧ a.trim.start = none)) ∧
    (∃ e : AcceptingPath a ≃ AcceptingPath a.trim, ∀ p, (e p).content = p.content) ∧
    a.trim.symbols = a.symbols ∧ a.trim.trim = a.trim := by
  have hrestricts := restricts_trim hstart htarget
  have hmem : ∀ s, s ∈ keptStates (a.useful.getD · false) a.size ↔ ∃ p : AcceptingPath a, s ∈ p.states := by
    intro s
    rw [mem_keptStates, ← useful_iff_exists_path, and_iff_right_iff_imp]
    intro hs
    obtain ⟨⟨r, -, hr, hreaches⟩, -⟩ := useful_iff.1 hs
    exact hreaches.lt_size hr
  refine ⟨⟨_, pairwise_keptStates _ _, hmem, hrestricts, fun hgone => ?_⟩, exists_equiv_trim hstart, ?_, trim_trim a⟩
  · -- a path would pass through the start
    have hnil : keptStates (a.useful.getD · false) a.size = [] := by
      rw [List.eq_nil_iff_forall_not_mem]
      intro s hs
      obtain ⟨p, -⟩ := (hmem s).1 hs
      exact hgone p.first p.start_eq ((hmem p.first).2 ⟨p, List.mem_cons_self⟩)
    rw [hrestricts.size_eq, hrestricts.start_eq, hnil]
    refine ⟨rfl, ?_⟩
    cases a.start <;> rfl
  · unfold trim
    dsimp only
    split <;> rfl

/-- An automaton with a cycle on its only paths, a cycle that leads nowhere else, and a final state that nothing leads
to. -/
def hamlet : Automaton Tropical where
  states := #[{ arcs := #[⟨1, 1, 1, 0⟩] }, { final := some 1, arcs := #[⟨2, 2, 1, 4⟩] },
    { arcs := #[⟨3, 3, 1, 0⟩, ⟨3, 4, 1, 4⟩, ⟨3, 3, 1, 5⟩] }, {}, { final := some 1, arcs := #[⟨5, 6, 1, 2⟩] },
    { arcs := #[⟨7, 7, 1, 3⟩] }]
  start := some 2

theorem exists_restricts_trim_hamlet :
    (∃ states : List Nat, states.Pairwise (· < ·) ∧ (∀ s, s ∈ states ↔ ∃ p : AcceptingPath hamlet, s ∈ p.states) ∧
      hamlet.trim.Restricts hamlet states ∧
      ((∀ r, hamlet.start = some r → r ∉ states) → hamlet.trim.size = 0 ∧ hamlet.trim.start = none)) ∧
    (∃ e : AcceptingPath hamlet ≃ AcceptingPath hamlet.trim, ∀ p, (e p).content = p.content) ∧
    hamlet.trim.symbols = hamlet.symbols ∧ hamlet.trim.trim = hamlet.trim := by
  refine exists_restricts_trim ?_ (forall_mem_arcsAt_iff.2 (by decide))
  rintro s ⟨⟩
  decide

end Transducer.Automaton
