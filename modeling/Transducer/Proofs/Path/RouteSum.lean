import Mathlib
import Transducer.Proofs.Path.Distance
import Transducer.Proofs.Path.Ledger
import Transducer.Proofs.Path.Route
import Transducer.Proofs.Property.Meaning

/-!
# Sums over routes

In an automaton without cycles each state has finitely many routes. The sum of their weights is made up of the sums of
other states: a route has no arc, or a last one before the state (`finsum_forward`), or a first one after it
(`finsum_backward`). Either way this is what comes along the edges on which distances are passed on
(`finsum_route_eq`).
-/

namespace Transducer

open Relaxation

open scoped LawfulSemiring

namespace Automaton

variable {W : Type} {a : Automaton W} {direction : Direction} {s t : Nat}

/-! ### Automata without cycles -/

/-- The states from which a way with some arcs leads to the state. -/
def before (a : Automaton W) (s : Nat) : Set Nat := {u | ∃ places arcs, places ≠ [] ∧ a.Way u places arcs s}

theorem before_subset (a : Automaton W) (s : Nat) : a.before s ⊆ Finset.range a.size := by
  rintro u ⟨places, arcs, hne, hway⟩
  cases hway with
  | nil => exact absurd rfl hne
  | cons hi _ => exact Finset.mem_coe.2 (Finset.mem_range.2 (lt_size_of_mem (Array.mem_of_getElem? hi)))

theorem before_ssubset [Weight W] (acyclic : ¬a.Satisfies .cyclic) {arc : Arc W} (harc : arc ∈ a.arcsAt s) :
    a.before s ⊂ a.before arc.target := by
  obtain ⟨i, hi⟩ := Array.getElem?_of_mem harc
  refine (Set.ssubset_iff_of_subset ?_).2 ⟨s, ⟨[i], [arc], List.cons_ne_nil _ _, .single hi⟩, ?_⟩
  · rintro u ⟨places, arcs, hne, hway⟩
    exact ⟨places ++ [i], arcs ++ [arc], by simp, hway.append (.single hi)⟩
  · rintro ⟨places, arcs, hne, hway⟩
    exact acyclic ⟨s, places, arcs, hne, hway⟩

/-- Without cycles the states can be ordered such that all arcs go up. -/
theorem exists_height [Weight W] (acyclic : ¬a.Satisfies .cyclic) : ∃ height : Nat → Nat, (∀ s, height s ≤ a.size) ∧
    ∀ {s}, ∀ arc ∈ a.arcsAt s, height s < height arc.target := by
  refine ⟨fun s => (a.before s).ncard, fun s => ?_, fun {s} arc harc => ?_⟩
  · have hle := Set.ncard_le_ncard (a.before_subset s) (Finset.finite_toSet _)
    rwa [Set.ncard_coe_finset, Finset.card_range] at hle
  · exact Set.ncard_lt_ncard (before_ssubset acyclic harc) ((Finset.finite_toSet _).subset (a.before_subset _))

/-- The edges on which distances are passed on all go down then, by some other order. -/
theorem exists_rank [Weight W] (acyclic : ¬a.Satisfies .cyclic) (direction : Direction) :
    ∃ rank : Nat → Nat, ∀ s, ∀ e ∈ (a.edges direction).getD s [], rank e.1 < rank s := by
  obtain ⟨height, hle, hup⟩ := exists_height acyclic
  cases direction with
  | forward =>
    refine ⟨fun s => a.size - height s, fun s e he => ?_⟩
    change e ∈ a.outgoing.getD s [] at he
    rw [getD_outgoing, List.mem_map] at he
    obtain ⟨arc, harc, rfl⟩ := he
    have hlt := hup arc (Array.mem_toList_iff.1 harc)
    have htop := hle arc.target
    show a.size - height arc.target < a.size - height s
    omega
  | backward =>
    refine ⟨height, fun t e he => ?_⟩
    change e ∈ a.incoming.getD t [] at he
    obtain ⟨arc, harc, rfl, -⟩ := (mem_incoming (lt_size_of_mem_incoming he)).1 he
    exact hup arc harc

/-! ### The last arc, or the first -/

/-- The arc at a position of a state. -/
def arcAt (a : Automaton W) (s : Nat) (i : Fin (a.arcsAt s).size) : Arc W := (a.arcsAt s).toList.get i

theorem getElem?_arcAt (i : Fin (a.arcsAt s).size) : (a.arcsAt s)[i.1]? = some (a.arcAt s i) :=
  Array.getElem?_eq_getElem i.isLt

theorem arcAt_mem (i : Fin (a.arcsAt s).size) : a.arcAt s i ∈ a.arcsAt s := Array.mem_of_getElem? (getElem?_arcAt i)

theorem exists_arcAt {i : Nat} {arc : Arc W} (hi : (a.arcsAt s)[i]? = some arc) : ∃ j, j.1 = i ∧ a.arcAt s j = arc := by
  obtain ⟨hlt, rfl⟩ := Array.getElem?_eq_some_iff.1 hi
  exact ⟨⟨i, hlt⟩, rfl, rfl⟩

namespace Route

/-- One arc more at the end. -/
def concat {u : Nat} (p : a.Route .forward u) {i : Nat} {arc : Arc W} (hi : (a.arcsAt u)[i]? = some arc)
    (ht : arc.target = t) : a.Route .forward t :=
  match p with
  | fromStart start places arcs hstart hway =>
    fromStart start (places ++ [i]) (arcs ++ [arc]) hstart (ht ▸ hway.append (.single hi))

/-- One arc more at the beginning. -/
def cons {i : Nat} {arc : Arc W} (p : a.Route .backward arc.target) (hi : (a.arcsAt s)[i]? = some arc) :
    a.Route .backward s :=
  match p with
  | toFinal places arcs last final hway hfinal => toFinal (i :: places) (arc :: arcs) last final (.cons hi hway) hfinal

/-- Forward routes with the same positions end at the same state. -/
theorem last_eq {u v : Nat} {p : a.Route .forward u} {q : a.Route .forward v} (h : p.places = q.places) : u = v := by
  cases p with
  | fromStart start places arcs hstart hway =>
    cases q with
    | fromStart start' places' arcs' hstart' hway' =>
      obtain rfl : places = places' := h
      obtain rfl := Option.some.inj (hstart.symm.trans hstart')
      exact (hway.unique hway').2

/-- Where the last arc of a forward route can come from: the states, and their arcs to the given one. -/
abbrev Before (a : Automaton W) (t : Nat) : Type :=
  (u : Fin a.size) × {i : Fin (a.arcsAt u).size // (a.arcAt u i).target = t}

/-- A forward route that stays at the start, or one with a last arc. -/
def ofLast (a : Automaton W) (t : Nat) :
    {_u : Unit // a.start = some t} ⊕ ((x : Before a t) × a.Route .forward x.1) → a.Route .forward t
  | .inl h => fromStart t [] [] h.2 (.nil t)
  | .inr ⟨x, p⟩ => p.concat (getElem?_arcAt x.2.1) x.2.2

/-- A backward route that stays at a final state, or one with a first arc. -/
def ofFirst (a : Automaton W) (s : Nat) :
    {final // a.final? s = some final} ⊕ ((i : Fin (a.arcsAt s).size) × a.Route .backward (a.arcAt s i).target) →
      a.Route .backward s
  | .inl final => toFinal [] [] s final.1 (.nil s) final.2
  | .inr ⟨i, p⟩ => p.cons (getElem?_arcAt i)

theorem places_ofLast (x : Before a t) (p : a.Route .forward x.1) :
    (ofLast a t (.inr ⟨x, p⟩)).places = p.places ++ [x.2.1.1] := by
  obtain ⟨u, i, hi⟩ := x
  cases p
  rfl

theorem places_ofFirst (i : Fin (a.arcsAt s).size) (p : a.Route .backward (a.arcAt s i).target) :
    (ofFirst a s (.inr ⟨i, p⟩)).places = i.1 :: p.places := by
  cases p
  rfl

theorem bijective_ofLast (a : Automaton W) (t : Nat) : Function.Bijective (ofLast a t) := by
  constructor
  · intro x y h
    have hplaces := congrArg places h
    match x, y with
    | .inl _, .inl _ => exact congrArg _ (Subsingleton.elim _ _)
    | .inl _, .inr ⟨y, q⟩ =>
      have hnil : [] = q.places ++ [_] := hplaces.trans (places_ofLast y q)
      simp at hnil
    | .inr ⟨x, p⟩, .inl _ =>
      have hnil : p.places ++ [_] = [] := (places_ofLast x p).symm.trans hplaces
      simp at hnil
    | .inr ⟨⟨u, i, hi⟩, p⟩, .inr ⟨⟨v, j, hj⟩, q⟩ =>
      rw [places_ofLast, places_ofLast] at hplaces
      obtain ⟨hbefore, hlast⟩ := List.append_inj' hplaces rfl
      obtain rfl : u = v := Fin.ext (last_eq hbefore)
      obtain rfl : i = j := Fin.ext (List.cons.inj hlast).1
      rw [ext_places hbefore]
  · intro p
    cases p with
    | fromStart start places arcs hstart hway =>
      rcases hway.eq_nil_or_concat with ⟨rfl, rfl, rfl⟩ | ⟨places, arcs, u, hbefore, i, arc, hi, rfl, rfl, rfl⟩
      · exact ⟨.inl ⟨(), hstart⟩, rfl⟩
      · have hu : u < a.size := lt_size_of_mem (Array.mem_of_getElem? hi)
        obtain ⟨i, rfl, rfl⟩ := exists_arcAt hi
        exact ⟨.inr ⟨⟨⟨u, hu⟩, i, rfl⟩, .fromStart start places arcs hstart hbefore⟩, rfl⟩

theorem bijective_ofFirst (a : Automaton W) (s : Nat) : Function.Bijective (ofFirst a s) := by
  constructor
  · intro x y h
    have hplaces := congrArg places h
    match x, y with
    | .inl final, .inl final' => exact congrArg _ (Subtype.ext (Option.some.inj (final.2.symm.trans final'.2)))
    | .inl _, .inr ⟨j, q⟩ => cases hplaces.trans (places_ofFirst j q)
    | .inr ⟨i, p⟩, .inl _ => cases (places_ofFirst i p).symm.trans hplaces
    | .inr ⟨i, p⟩, .inr ⟨j, q⟩ =>
      rw [places_ofFirst, places_ofFirst] at hplaces
      obtain ⟨hfirst, hrest⟩ := List.cons.inj hplaces
      obtain rfl : i = j := Fin.ext hfirst
      rw [ext_places hrest]
  · intro p
    cases p with
    | toFinal places arcs last final hway hfinal =>
      cases hway with
      | nil => exact ⟨.inl ⟨final, hfinal⟩, rfl⟩
      | @cons _ i _ arc places arcs hi hway =>
        obtain ⟨i, rfl, rfl⟩ := exists_arcAt hi
        exact ⟨.inr ⟨i, .toFinal places arcs last final hway hfinal⟩, rfl⟩

end Route

/-! ### Sums -/

/-- A state is final with one weight only. -/
theorem subsingleton_eq_some (o : Option W) : Subsingleton {final // o = some final} :=
  ⟨fun x y => Subtype.ext (Option.some.inj (x.2.symm.trans y.2))⟩

/-- Without cycles each state has finitely many routes. -/
theorem finite_route [Weight W] (acyclic : ¬a.Satisfies .cyclic) (direction : Direction) (s : Nat) :
    Finite (a.Route direction s) := by
  obtain ⟨height, hle, hup⟩ := exists_height acyclic
  cases direction with
  | forward =>
    induction hk : height s using Nat.strong_induction_on generalizing s with
    | h k ih =>
      have hbefore : ∀ x : Route.Before a s, Finite (a.Route .forward x.1) := by
        rintro ⟨u, i, hi⟩
        have hlt := hup _ (arcAt_mem i)
        rw [hi, hk] at hlt
        exact ih _ hlt u rfl
      exact Finite.of_surjective _ (Route.bijective_ofLast a s).2
  | backward =>
    induction hk : a.size - height s using Nat.strong_induction_on generalizing s with
    | h k ih =>
      have hafter : ∀ i : Fin (a.arcsAt s).size, Finite (a.Route .backward (a.arcAt s i).target) := by
        intro i
        have hlt := hup _ (arcAt_mem i)
        have htop := hle (a.arcAt s i).target
        exact ih _ (by omega) _ rfl
      have hown := subsingleton_eq_some (a.final? s)
      exact Finite.of_surjective _ (Route.bijective_ofFirst a s).2

variable [Weight W] [LawfulSemiring W]

/-- The sum over the routes of a state, by those that stay and those with one arc more than others. -/
theorem finsum_of_bijective {β ι : Type} [Fintype β] [Fintype ι] {next : ι → Nat}
    (hfinite : ∀ i, Finite (a.Route direction (next i)))
    {e : β ⊕ ((i : ι) × a.Route direction (next i)) → a.Route direction s} (he : Function.Bijective e) {own : β → W}
    {step : ι → W} (hown : ∀ x, (e (.inl x)).weight = own x)
    (hstep : ∀ i (p : a.Route direction (next i)), (e (.inr ⟨i, p⟩)).weight = p.weight * step i) :
    ∑ᶠ p : a.Route direction s, p.weight =
      ∑ x, own x + ∑ i, (∑ᶠ p : a.Route direction (next i), p.weight) * step i := by
  have hroutes : ∀ i, Fintype (a.Route direction (next i)) := fun i => @Fintype.ofFinite _ (hfinite i)
  rw [← finsum_eq_of_bijective e he fun _ => rfl]
  simp only [finsum_eq_sum_of_fintype, Fintype.sum_sum_type, Fintype.sum_sigma, hown, hstep, Finset.sum_mul]

/-- The sum over the arcs of a state. -/
theorem sum_arcAt (a : Automaton W) (s : Nat) (f : Arc W → W) :
    ∑ i : Fin (a.arcsAt s).size, f (a.arcAt s i) = ((a.arcsAt s).toList.map f).sum :=
  Fin.sum_univ_fun_getElem (a.arcsAt s).toList f

/-- Forward, the sum over the routes of a state is made up by their last arcs. -/
theorem finsum_forward (hfinite : ∀ u, Finite (a.Route .forward u)) (t : Nat) :
    ∑ᶠ p : a.Route .forward t, p.weight =
      a.sources .forward t + inflow a.outgoing (fun u => ∑ᶠ p : a.Route .forward u, p.weight) t := by
  have hweight : ∀ (x : Route.Before a t) (p : a.Route .forward x.1),
      (Route.ofLast a t (.inr ⟨x, p⟩)).weight = p.weight * (a.arcAt x.1 x.2.1).weight := by
    rintro ⟨u, i, hi⟩ p
    cases p with
    | fromStart start places arcs hstart hway =>
      show weigh (arcs ++ [a.arcAt u i]) 1 = weigh arcs 1 * _
      rw [weigh_append, weigh_cons, weigh_nil, weigh_mul, mul_one, one_mul]
  have hown : ∑ x : {_u : Unit // a.start = some t}, (Route.ofLast a t (.inl x)).weight = a.sources .forward t := by
    show ∑ x : {_u : Unit // a.start = some t}, (1 : W) = if a.start = some t then 1 else 0
    by_cases h : a.start = some t <;> simp [h]
  rw [finsum_of_bijective (fun x : Route.Before a t => hfinite x.1) (Route.bijective_ofLast a t) (fun _ => rfl) hweight,
    hown, inflow, size_outgoing, Finset.sum_range, Fintype.sum_sigma]
  refine congrArg _ (Finset.sum_congr rfl fun u _ => ?_)
  have harcs := a.sum_arcAt u fun arc =>
    if arc.target = t then (∑ᶠ p : a.Route .forward u, p.weight) * arc.weight else 0
  rw [getD_outgoing, List.map_map]
  refine Eq.trans ?_ harcs
  rw [← Finset.sum_filter]
  exact (Finset.sum_subtype (Finset.univ.filter fun i : Fin (a.arcsAt u).size => (a.arcAt u i).target = t) (by simp)
    fun i => (∑ᶠ p : a.Route .forward u, p.weight) * (a.arcAt u i).weight).symm

/-- The weight of a final state is a sum, of one summand or none. -/
theorem finsum_eq_getD (o : Option W) : ∑ᶠ x : {final // o = some final}, x.1 = o.getD 0 := by
  cases o with
  | none =>
    have hempty : IsEmpty {final : W // none = some final} := ⟨fun x => nomatch x.2⟩
    exact finsum_of_isEmpty _
  | some final =>
    have hsubsingleton := subsingleton_eq_some (some final)
    exact finsum_eq_single _ (⟨final, rfl⟩ : {x // some final = some x}) fun x hne => absurd (Subsingleton.elim _ _) hne

/-- Backward, it is made up by their first arcs. -/
theorem finsum_backward [CommMul W] (hfinite : ∀ u, Finite (a.Route .backward u)) (s : Nat) :
    ∑ᶠ p : a.Route .backward s, p.weight = a.sources .backward s +
      ((a.arcsAt s).toList.map fun arc => (∑ᶠ p : a.Route .backward arc.target, p.weight) * arc.weight).sum := by
  have hweight : ∀ (i : Fin (a.arcsAt s).size) (p : a.Route .backward (a.arcAt s i).target),
      (Route.ofFirst a s (.inr ⟨i, p⟩)).weight = p.weight * (a.arcAt s i).weight := by
    intro i p
    cases p with
    | toFinal places arcs last final hway hfinal => exact CommMul.mul_comm _ _
  have hsubsingleton := subsingleton_eq_some (a.final? s)
  have hfintype : Fintype {final // a.final? s = some final} := Fintype.ofFinite _
  have hown : ∑ x : {final // a.final? s = some final}, (Route.ofFirst a s (.inl x)).weight = a.sources .backward s :=
    (finsum_eq_sum_of_fintype _).symm.trans (finsum_eq_getD (a.final? s))
  rw [finsum_of_bijective (fun i : Fin (a.arcsAt s).size => hfinite (a.arcAt s i).target) (Route.bijective_ofFirst a s)
    (fun _ => rfl) hweight, hown, ← sum_arcAt]

/-! ### Edges turned round -/

/-- What all edges contribute. -/
def overEdges (g : Nat → Nat × W → W) (edges : Array (List (Nat × W))) : W :=
  ∑ t ∈ Finset.range edges.size, ((edges.getD t []).map (g t)).sum

theorem overEdges_modify (g : Nat → Nat × W → W) (edges : Array (List (Nat × W))) (t : Nat) (e : Nat × W) :
    overEdges g (edges.modify t (e :: ·)) = (if t < edges.size then g t e else 0) + overEdges g edges := by
  have hterm : ∀ u ∈ Finset.range edges.size, (((edges.modify t (e :: ·)).getD u []).map (g u)).sum =
      (if u = t then g t e else 0) + ((edges.getD u []).map (g u)).sum := by
    intro u hu
    have hlt := Finset.mem_range.1 hu
    simp only [Array.getD_eq_getD_getElem?, Array.getElem?_modify, Array.getElem?_eq_getElem hlt]
    by_cases htu : t = u
    · subst htu
      simp
    · simp [htu, Ne.symm htu]
  rw [overEdges, Array.size_modify, Finset.sum_congr rfl hterm, Finset.sum_add_distrib, Finset.sum_ite_eq']
  simp only [Finset.mem_range]
  rfl

theorem overEdges_turn (g : Nat → Nat × W → W) (s : Nat) (arcs : List (Arc W)) (edges : Array (List (Nat × W))) :
    overEdges g (turn s arcs edges) =
      (arcs.map fun arc => if arc.target < edges.size then g arc.target (s, arc.weight) else 0).sum + overEdges g edges := by
  induction arcs with
  | nil => exact (zero_add _).symm
  | cons arc arcs ih =>
    have hcons : turn s (arc :: arcs) edges = (turn s arcs edges).modify arc.target ((s, arc.weight) :: ·) := rfl
    rw [hcons, overEdges_modify, size_turn, ih, List.map_cons, List.sum_cons, add_assoc]

/-- The arcs of some states, turned round. -/
theorem overEdges_foldr_turn (g : Nat → Nat × W → W) (a : Automaton W) (states : List Nat) :
    (states.foldr (fun s => turn s (a.arcsAt s).toList) (Array.replicate a.size [])).size = a.size ∧
      overEdges g (states.foldr (fun s => turn s (a.arcsAt s).toList) (Array.replicate a.size [])) =
        (states.map fun s =>
          ((a.arcsAt s).toList.map fun arc => if arc.target < a.size then g arc.target (s, arc.weight) else 0).sum).sum := by
  induction states with
  | nil =>
    refine ⟨Array.size_replicate, Finset.sum_eq_zero fun t ht => ?_⟩
    rw [List.foldr_nil, Array.size_replicate, Finset.mem_range] at ht
    simp [Array.getD_eq_getD_getElem?, ht]
  | cons s states ih =>
    obtain ⟨hsize, hsum⟩ := ih
    rw [List.foldr_cons, size_turn, overEdges_turn, hsize, hsum, List.map_cons, List.sum_cons]
    exact ⟨rfl, rfl⟩

/-- Each arc contributes once if the arcs are turned round. -/
theorem overEdges_incoming (g : Nat → Nat × W → W) (a : Automaton W) :
    overEdges g a.incoming = ∑ s ∈ Finset.range a.size,
      ((a.arcsAt s).toList.map fun arc => if arc.target < a.size then g arc.target (s, arc.weight) else 0).sum := by
  rw [incoming_eq, (overEdges_foldr_turn g a _).2]
  rfl

/-- What comes along the incoming edges turned round is what the targets of the arcs of a state contribute. -/
theorem inflow_incoming (f : Nat → W) (hs : s < a.size) :
    inflow a.incoming f s =
      ((a.arcsAt s).toList.map fun arc => if arc.target < a.size then f arc.target * arc.weight else 0).sum := by
  have hall := overEdges_incoming (fun t e => if e.1 = s then f t * e.2 else 0) a
  have hother : ∀ u ∈ Finset.range a.size, u ≠ s → ((a.arcsAt u).toList.map fun arc =>
      if arc.target < a.size then if u = s then f arc.target * arc.weight else 0 else 0).sum = 0 := by
    intro u _ hu
    simp [hu]
  refine hall.trans ((Finset.sum_eq_single s hother fun hnot => absurd (Finset.mem_range.2 hs) hnot).trans ?_)
  simp

/-- The sum over the routes of a state is its source and what comes along the edges on which distances are passed on. -/
theorem finsum_route_eq [CommMul W] (acyclic : ¬a.Satisfies .cyclic) (direction : Direction) (hs : s < a.size) :
    ∑ᶠ p : a.Route direction s, p.weight = a.sources direction s +
      inflow (a.edges direction) (fun u => ∑ᶠ p : a.Route direction u, p.weight) s := by
  have hfinite := finite_route acyclic direction
  cases direction with
  | forward => exact finsum_forward hfinite s
  | backward =>
    rw [finsum_backward hfinite s]
    refine congrArg _ (Eq.trans ?_ (inflow_incoming _ hs).symm)
    refine congrArg List.sum (List.map_congr_left fun arc _ => ?_)
    split
    · rfl
    · next ht =>
      have hempty := Route.isEmpty_backward (not_lt.1 ht)
      rw [finsum_of_isEmpty, zero_mul]

end Automaton

end Transducer
