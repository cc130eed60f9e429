import Mathlib
import Transducer.Proofs.Automaton.Standard
import Transducer.Proofs.Path.Hanging
import Transducer.Proofs.Path.Text
import Transducer.Proofs.Weight.Semiring

/-!
# Unions of paths

A path of labels that is added to an automaton is hung off its start. If nothing leads back to the start, the end of
the path is reached in one way only, and it is one more accepting path; with the weight of no path it is none. Without
labels there is nothing to hang, and the weight is added to that of the start, so the accepting paths with arcs stay
as they were. Either way nothing leads back to the start afterwards (`Unites`).
-/

namespace Transducer.Automaton

variable {W : Type} {a b : Automaton W} {s t u last : Nat} {places : List Nat} {arcs : List (Arc W)}
  {steps : List (Label × Label × W)}

/-! ### Copies of paths -/

/-- A path of one automaton and a path of another one that takes the same arcs to the same final weight. -/
structure AcceptingPath.Copies (p : AcceptingPath a) (q : AcceptingPath b) : Prop where
  places_eq : q.places = p.places
  arcs_eq : q.arcs = p.arcs
  last_eq : q.last = p.last
  final_eq : q.final = p.final

namespace AcceptingPath

theorem Copies.content_eq {p : AcceptingPath a} {q : AcceptingPath b} (h : p.Copies q) : q.content = p.content := by
  rw [content, content, h.arcs_eq, h.final_eq]

theorem Copies.right_unique {p : AcceptingPath a} {q q' : AcceptingPath b} (h : p.Copies q) (h' : p.Copies q') :
    q = q' :=
  ext_places (h.places_eq.trans h'.places_eq.symm)

theorem Copies.left_unique {p p' : AcceptingPath a} {q : AcceptingPath b} (h : p.Copies q) (h' : p'.Copies q) :
    p = p' :=
  ext_places (h.places_eq.symm.trans h'.places_eq)

theorem exists_copies (p : AcceptingPath a) (hstart : b.start = a.start)
    (hway : b.Way p.first p.places p.arcs p.last) (hfinal : b.final? p.last = a.final? p.last) :
    ∃ q : AcceptingPath b, p.Copies q :=
  ⟨⟨p.first, p.places, p.arcs, p.last, p.final, hstart.trans p.start_eq, hway, hfinal.trans p.final_eq⟩,
    rfl, rfl, rfl, rfl⟩

theorem exists_copied (q : AcceptingPath b) (hstart : b.start = a.start)
    (hway : a.Way q.first q.places q.arcs q.last) (hfinal : b.final? q.last = a.final? q.last) :
    ∃ p : AcceptingPath a, p.Copies q :=
  ⟨⟨q.first, q.places, q.arcs, q.last, q.final, hstart.symm.trans q.start_eq, hway, hfinal.symm.trans q.final_eq⟩,
    rfl, rfl, rfl, rfl⟩

end AcceptingPath

/-! ### Starts that nothing leads back to -/

/-- No arc leads to the start. -/
def NoReturn (a : Automaton W) : Prop := ∀ s, ∀ arc ∈ a.arcsAt s, a.start ≠ some arc.target

instance (a : Automaton W) : Decidable a.NoReturn :=
  decidable_of_iff _ (forall_mem_arcsAt_iff (P := fun arc => a.start ≠ some arc.target)).symm

/-- The start is reached only by staying there. -/
theorem NoReturn.eq_nil (h : a.NoReturn) (ht : a.start = some t) (hway : a.Way s places arcs t) :
    s = t ∧ places = [] ∧ arcs = [] := by
  obtain ⟨rfl, rfl, rfl⟩ | ⟨_, _, u, -, i, arc, hi, -, -, rfl⟩ := hway.eq_nil_or_concat
  · exact ⟨rfl, rfl, rfl⟩
  · exact absurd ht (h _ _ (Array.mem_of_getElem? hi))

theorem start_ensureStart (a : Automaton W) : a.ensureStart.2.start = some a.ensureStart.1 := by
  unfold ensureStart
  split
  · next hs => exact hs
  · rfl

theorem fst_ensureStart (a : Automaton W) : a.ensureStart.1 = a.start.getD a.size := by
  unfold ensureStart
  split
  · next hs => rw [hs]; rfl
  · next hs => rw [hs]; rfl

@[simp] theorem arcsAt_ensureStart (a : Automaton W) (u : Nat) : a.ensureStart.2.arcsAt u = a.arcsAt u := by
  unfold ensureStart
  split
  · rfl
  · exact a.arcsAt_pushState u

@[simp] theorem final?_ensureStart (a : Automaton W) (u : Nat) : a.ensureStart.2.final? u = a.final? u := by
  unfold ensureStart
  split
  · rfl
  · exact a.final?_pushState u

theorem NoReturn.ensureStart (h : a.NoReturn) (ha : a.Confined) : a.ensureStart.2.NoReturn := by
  intro s arc harc
  rw [arcsAt_ensureStart] at harc
  unfold Automaton.ensureStart
  split
  · exact h _ _ harc
  · intro hstart
    exact (ha.target_lt harc).ne (Option.some.inj hstart).symm

/-- A start that is added accepts nothing. -/
theorem exists_equiv_ensureStart (a : Automaton W) :
    ∃ e : AcceptingPath a ≃ AcceptingPath a.ensureStart.2, ∀ p, (e p).content = p.content := by
  cases hstart : a.start with
  | some s =>
    rw [show a.ensureStart = (s, a) by rw [ensureStart, hstart]]
    exact ⟨.refl _, fun _ => rfl⟩
  | none =>
    have hnew : a.ensureStart.2.start = some a.size := by
      rw [start_ensureStart, fst_ensureStart, hstart, Option.getD_none]
    have hold : IsEmpty (AcceptingPath a) := ⟨fun p => by cases hstart.symm.trans p.start_eq⟩
    have hempty : IsEmpty (AcceptingPath a.ensureStart.2) := by
      refine ⟨fun q => ?_⟩
      -- a way to a state that was there does not come from the new one
      have hlast : q.last < a.size := lt_size_of_final? ((a.final?_ensureStart _).symm.trans q.final_eq)
      have hway : a.Way q.first q.places q.arcs q.last := q.way.mono fun hi => by rwa [arcsAt_ensureStart] at hi
      exact (hway.lt_size_of_last hlast).ne (q.first_eq hnew)
    exact ⟨Equiv.equivOfIsEmpty _ _, fun p => (hold.false p).elim⟩

/-! ### Another final weight -/

variable [Weight W] {weight : W}

/-- The automaton with another final weight of one state. -/
def reweigh (a : Automaton W) (s : Nat) (weight : W) : Automaton W := a.changeState s (·.withFinal weight)

@[simp] theorem arcsAt_reweigh (a : Automaton W) (s : Nat) (weight : W) (u : Nat) :
    (a.reweigh s weight).arcsAt u = a.arcsAt u := by
  rw [reweigh, arcsAt_changeState (by intro _; rfl)]

theorem final?_reweigh_self (hs : s < a.size) :
    (a.reweigh s weight).final? s = if isZero weight then none else some weight := by
  rw [final?, reweigh, changeState, Array.getElem?_modify, if_pos rfl, Array.getElem?_eq_getElem hs]
  rfl

theorem final?_reweigh_of_ne (hu : u ≠ s) : (a.reweigh s weight).final? u = a.final? u :=
  final?_changeState_of_ne hu

@[simp] theorem way_reweigh : (a.reweigh s weight).Way u places arcs t ↔ a.Way u places arcs t := by
  constructor
  · exact fun h => h.mono fun hi => by rwa [arcsAt_reweigh] at hi
  · exact fun h => h.mono fun hi => by rwa [arcsAt_reweigh]

theorem NoReturn.reweigh (h : a.NoReturn) (s : Nat) (weight : W) : (a.reweigh s weight).NoReturn := by
  intro u arc harc
  rw [arcsAt_reweigh] at harc
  exact h u arc harc

/-- If nothing leads back to the start, its weight has no part in the paths with arcs. -/
theorem exists_equiv_reweigh_start (h : a.NoReturn) (hs : a.start = some s) (weight : W) :
    ∃ e : {p : AcceptingPath a // p.arcs ≠ []} ≃ {q : AcceptingPath (a.reweigh s weight) // q.arcs ≠ []},
      ∀ p, (e p).1.content = p.1.content := by
  have hfinal : ∀ {r places arcs t}, a.Way r places arcs t → arcs ≠ [] →
      (a.reweigh s weight).final? t = a.final? t := by
    intro r places arcs t hway harcs
    refine final?_reweigh_of_ne ?_
    rintro rfl
    exact harcs (h.eq_nil hs hway).2.2
  have hcopy : ∀ p : {p : AcceptingPath a // p.arcs ≠ []},
      ∃ q : {q : AcceptingPath (a.reweigh s weight) // q.arcs ≠ []}, p.1.Copies q.1 := by
    rintro ⟨p, hp⟩
    obtain ⟨q, hq⟩ := p.exists_copies (b := a.reweigh s weight) rfl (way_reweigh.2 p.way) (hfinal p.way hp)
    exact ⟨⟨q, hq.arcs_eq ▸ hp⟩, hq⟩
  have hcopied : ∀ q : {q : AcceptingPath (a.reweigh s weight) // q.arcs ≠ []},
      ∃ p : {p : AcceptingPath a // p.arcs ≠ []}, p.1.Copies q.1 := by
    rintro ⟨q, hq⟩
    have hway := way_reweigh.1 q.way
    obtain ⟨p, hp⟩ := q.exists_copied (a := a) rfl hway (hfinal hway hq)
    exact ⟨⟨p, hp.arcs_eq ▸ hq⟩, hp⟩
  obtain ⟨e, he⟩ := exists_equiv_of_related hcopy hcopied (fun h h' => Subtype.ext (h.right_unique h'))
    (fun h h' => Subtype.ext (h.left_unique h'))
  exact ⟨e, fun p => (he p).content_eq⟩

/-! ### A strand off the start -/

namespace Hung

omit [Weight W] in
theorem noReturn (h : a.Hung s steps b last) (hreturn : a.NoReturn) (hs : a.start = some s) (hlt : s < a.size) :
    b.NoReturn := by
  intro u arc harc
  rw [h.start_eq]
  rcases h.arcs harc with hold | hle
  · exact hreturn u arc hold
  · rw [hs, ne_eq, Option.some.injEq]
    exact (hlt.trans_le hle).ne

/-- A path to a state that was there stays a path. -/
theorem exists_copies (h : a.Hung s steps b last) (hsteps : steps ≠ []) (weight : W) (p : AcceptingPath a) :
    ∃ q : AcceptingPath (b.reweigh last weight), p.Copies q ∧ q.last ≠ last := by
  have hlt : p.last < a.size := lt_size_of_final? p.final_eq
  have hne : p.last ≠ last := (hlt.trans_le (h.le_last hsteps)).ne
  obtain ⟨q, hq⟩ := p.exists_copies (b := b.reweigh last weight) h.start_eq (way_reweigh.2 ((h.way_iff hlt).2 p.way))
    ((final?_reweigh_of_ne hne).trans (h.final?_eq _))
  exact ⟨q, hq, hq.last_eq ▸ hne⟩

/-- A path to any state but the last was a path before. -/
theorem exists_copied (h : a.Hung s steps b last) {q : AcceptingPath (b.reweigh last weight)} (hq : q.last ≠ last) :
    ∃ p : AcceptingPath a, p.Copies q := by
  have hfinal : (b.reweigh last weight).final? q.last = a.final? q.last :=
    (final?_reweigh_of_ne hq).trans (h.final?_eq _)
  have hlt : q.last < a.size := lt_size_of_final? (hfinal.symm.trans q.final_eq)
  exact q.exists_copied h.start_eq ((h.way_iff hlt).1 (way_reweigh.1 q.way)) hfinal

/-- From the start there is one way only to where the strand begins, so there is one way to where it ends. -/
theorem exists_only (h : a.Hung s steps b last) (hreturn : a.NoReturn) (hs : a.start = some s) (hlt : s < a.size)
    (weight : W) :
    ∃ tail, (isZero weight = false → ∃ q : AcceptingPath (b.reweigh last weight), q.last = last) ∧
      ∀ q : AcceptingPath (b.reweigh last weight), q.last = last →
        isZero weight = false ∧ q.places = tail ∧ q.content = (steps, weight) := by
  obtain ⟨tail, strand, rfl, hiff⟩ := h.way_last_iff
  have hstart : (b.reweigh last weight).start = some s := h.start_eq.trans hs
  have hfinal : (b.reweigh last weight).final? last = if isZero weight then none else some weight :=
    final?_reweigh_self h.last_lt
  refine ⟨tail, fun hweight => ?_, fun q hq => ?_⟩
  · have hway : b.Way s tail strand last := (hiff hlt).2 ⟨[], [], .nil s, rfl, rfl⟩
    rw [hweight] at hfinal
    exact ⟨⟨s, tail, strand, last, weight, hstart, way_reweigh.2 hway, hfinal⟩, rfl⟩
  · have hway := way_reweigh.1 (q.first_eq hstart ▸ hq ▸ q.way)
    obtain ⟨before, others, hbefore, hplaces, harcs⟩ := (hiff hlt).1 hway
    obtain ⟨-, rfl, rfl⟩ := hreturn.eq_nil hs hbefore
    have hweight := hfinal.symm.trans (hq ▸ q.final_eq)
    split at hweight
    · cases hweight
    · next hzero =>
      refine ⟨by simpa using hzero, hplaces, ?_⟩
      rw [AcceptingPath.content, harcs, List.nil_append, ← Option.some.inj hweight]

end Hung

/-- What is hung off the start is one more path, unless it has the weight of no path. -/
theorem exists_equiv_hung (hreturn : a.NoReturn) (hs : a.start = some s) (hlt : s < a.size)
    (h : a.Hung s steps b last) (hsteps : steps ≠ []) (weight : W) :
    ∃ e : AcceptingPath a ⊕ PLift (isZero weight = false) ≃ AcceptingPath (b.reweigh last weight),
      (∀ p, (e (.inl p)).content = p.content) ∧ ∀ hweight, (e (.inr hweight)).content = (steps, weight) := by
  obtain ⟨tail, hnew, honly⟩ := h.exists_only hreturn hs hlt weight
  let R : AcceptingPath a ⊕ PLift (isZero weight = false) → AcceptingPath (b.reweigh last weight) → Prop :=
    fun x q => x.elim (fun p => p.Copies q ∧ q.last ≠ last) (fun _ => q.last = last)
  have total : ∀ x, ∃ q, R x q := by
    rintro (p | hweight)
    · exact h.exists_copies hsteps weight p
    · exact hnew hweight.down
  have onto : ∀ q, ∃ x, R x q := by
    intro q
    by_cases hq : q.last = last
    · exact ⟨.inr ⟨(honly q hq).1⟩, hq⟩
    · obtain ⟨p, hp⟩ := h.exists_copied hq
      exact ⟨.inl p, hp, hq⟩
  have functional : ∀ {x q q'}, R x q → R x q' → q = q' := by
    rintro (p | hweight) q q' hq hq'
    · exact hq.1.right_unique hq'.1
    · exact AcceptingPath.ext_places ((honly q hq).2.1.trans (honly q' hq').2.1.symm)
  have injective : ∀ {x x' q}, R x q → R x' q → x = x' := by
    rintro (p | hweight) (p' | hweight') q hq hq'
    · exact congrArg Sum.inl (hq.1.left_unique hq'.1)
    · exact absurd hq' hq.2
    · exact absurd hq hq'.2
    · exact congrArg Sum.inr (Subsingleton.elim _ _)
  obtain ⟨e, he⟩ := exists_equiv_of_related total onto functional injective
  refine ⟨e, fun p => ?_, fun hweight => (honly _ (he (.inr hweight))).2.2⟩
  have hcopies : p.Copies (e (.inl p)) := (he (.inl p)).1
  exact hcopies.content_eq

/-! ### Adding a path -/

/-- What becomes of an automaton when a path of labels with a weight is added to it. -/
structure Unites (a : Automaton W) (ilabels olabels : List Label) (weight : W) (b : Automaton W) : Prop where
  start_eq : b.start = some (a.start.getD a.size)
  wellFormed : b.WellFormed
  /-- Nothing leads back to the start. -/
  noReturn : b.NoReturn
  /-- A path with labels is one more accepting path, unless it has the weight of no path. -/
  path : ilabels ≠ [] ∨ olabels ≠ [] →
    ∃ e : AcceptingPath a ⊕ PLift (isZero weight = false) ≃ AcceptingPath b,
      (∀ p, (e (.inl p)).content = p.content) ∧
        ∀ hweight, (e (.inr hweight)).arcs ≠ [] ∧ (e (.inr hweight)).weight = weight ∧
          ∀ side, (e (.inr hweight)).labels side = (side.pick ilabels olabels).filter (· != epsilon)
  /-- Without labels there are no arcs to add, and the weight is added to that of the start. -/
  own : ilabels = [] → olabels = [] →
    (∀ s, b.arcsAt s = a.arcsAt s) ∧
      (∀ s, b.final? s =
        if s = a.start.getD a.size then
          let total := (a.final? s).elim weight (· + weight)
          if isZero total then none else some total
        else a.final? s) ∧
      ∃ e : {p : AcceptingPath a // p.arcs ≠ []} ≃ {q : AcceptingPath b // q.arcs ≠ []},
        ∀ p, (e p).1.content = p.1.content

theorem zipLabels_eq_nil_iff {ilabels olabels : List Label} :
    zipLabels ilabels olabels = [] ↔ ilabels = [] ∧ olabels = [] := by
  cases ilabels <;> cases olabels <;> simp [zipLabels]

/-- A path without labels changes the weight of the start. -/
theorem addPath_nil (a : Automaton W) (weight : W) :
    (a.addPath [] [] weight).2 =
      a.ensureStart.2.reweigh a.ensureStart.1 ((a.final? a.ensureStart.1).elim weight (· + weight)) := by
  rw [← final?_ensureStart]
  unfold addPath
  dsimp only
  split
  · split
    · next hold => rw [hold]; rfl
    · next hnone => rw [hnone]; rfl
  · next hne => exact absurd rfl hne

/-- A path with labels is a chain that is hung off the start. -/
theorem addPath_of_ne_nil {ilabels olabels : List Label} (h : ilabels ≠ [] ∨ olabels ≠ []) (a : Automaton W)
    (weight : W) :
    (a.addPath ilabels olabels weight).2 =
      (a.ensureStart.2.addChain a.ensureStart.1 ((strand ilabels olabels).map Arc.content)).2.reweigh
        (a.ensureStart.2.addChain a.ensureStart.1 ((strand ilabels olabels).map Arc.content)).1 weight := by
  have hcontent : (strand ilabels olabels : List (Arc W)).map Arc.content =
      (zipLabels ilabels olabels).map fun x => (x.1, x.2, 1) := by
    rw [strand, List.map_map]
    rfl
  rw [hcontent, addPath]
  cases hzip : zipLabels ilabels olabels with
  | nil =>
    obtain ⟨rfl, rfl⟩ := zipLabels_eq_nil_iff.1 hzip
    simp at h
  | cons labels rest => rfl

/-- A strand has the weight of what comes after it. -/
theorem weigh_strand [LawfulMul W] (ilabels olabels : List Label) (weight : W) :
    weigh (strand ilabels olabels) weight = weight := by
  rw [strand]
  induction zipLabels ilabels olabels with
  | nil => rfl
  | cons labels rest ih => rw [List.map_cons, weigh_cons, ih, LawfulMul.one_mul]

theorem WellFormed.addPath (h : a.WellFormed) (ilabels olabels : List Label) (weight : W) :
    (a.addPath ilabels olabels weight).2.WellFormed := by
  obtain ⟨hmeets, hlt⟩ := (meets_proper_iff.2 h).ensureStart
  rw [← meets_proper_iff]
  by_cases hnil : ilabels ≠ [] ∨ olabels ≠ []
  · rw [addPath_of_ne_nil hnil]
    exact (hmeets.addChain hlt fun _ _ => ⟨trivial, trivial, trivial⟩).1.withFinal id
  · obtain ⟨rfl, rfl⟩ : ilabels = [] ∧ olabels = [] := by simpa using hnil
    rw [addPath_nil]
    exact hmeets.withFinal id

section

variable [LawfulMul W] (hreturn : a.NoReturn) (wf : a.WellFormed)

include hreturn wf

/-- Paths with labels are hung off the start. -/
theorem unites_of_ne_nil {ilabels olabels : List Label} (hne : ilabels ≠ [] ∨ olabels ≠ []) (weight : W) :
    a.Unites ilabels olabels weight (a.addPath ilabels olabels weight).2 := by
  have hwf := wf.addPath ilabels olabels weight
  obtain ⟨hmeets, hlt⟩ := (meets_proper_iff.2 wf).ensureStart
  have hstart := a.start_ensureStart
  have hreturn := hreturn.ensureStart wf.confined
  have hsteps : (strand ilabels olabels : List (Arc W)).map Arc.content ≠ [] := by
    rw [strand, ne_eq, List.map_eq_nil_iff, List.map_eq_nil_iff, zipLabels_eq_nil_iff, not_and_or]
    exact hne
  have hhung := hung_addChain (meets_proper_iff.1 hmeets).confined hlt
    ((strand ilabels olabels : List (Arc W)).map Arc.content)
  rw [addPath_of_ne_nil hne] at hwf ⊢
  refine ⟨?_, hwf, (hhung.noReturn hreturn hstart hlt).reweigh _ _, fun _ => ?_, ?_⟩
  · rw [← fst_ensureStart]
    exact hhung.start_eq.trans hstart
  · obtain ⟨e, he⟩ := a.exists_equiv_ensureStart
    obtain ⟨e', hold, hnew⟩ := exists_equiv_hung hreturn hstart hlt hhung hsteps weight
    refine ⟨(e.sumCongr (.refl _)).trans e', fun p => (hold _).trans (he p), fun hweight => ?_⟩
    obtain ⟨harcs, hfinal⟩ := Prod.mk.inj (hnew hweight)
    refine ⟨fun hnil => hsteps (harcs.symm.trans (congrArg _ hnil)), ?_, fun side => ?_⟩
    · exact (weigh_congr harcs _).trans ((weigh_strand _ _ _).trans hfinal)
    · exact (spell_congr harcs).trans (spell_strand ilabels olabels side)
  · rintro rfl rfl
    simp at hne

omit [LawfulMul W] in
/-- Without labels the start gets another weight. -/
theorem unites_nil (weight : W) : a.Unites [] [] weight (a.addPath [] [] weight).2 := by
  have hwf := wf.addPath [] [] weight
  have hlt := (meets_proper_iff.2 wf).ensureStart.2
  have hstart := a.start_ensureStart
  have hreturn := hreturn.ensureStart wf.confined
  rw [addPath_nil] at hwf ⊢
  refine ⟨?_, hwf, hreturn.reweigh _ _, fun hne => by simp at hne, fun _ _ => ⟨fun u => ?_, fun u => ?_, ?_⟩⟩
  · rw [← fst_ensureStart]
    exact hstart
  · rw [arcsAt_reweigh, arcsAt_ensureStart]
  · rw [← fst_ensureStart]
    split
    · next hu => rw [hu]; exact final?_reweigh_self hlt
    · next hu => rw [final?_reweigh_of_ne hu, final?_ensureStart]
  · obtain ⟨e, he⟩ := a.exists_equiv_ensureStart
    obtain ⟨e', he'⟩ := exists_equiv_reweigh_start hreturn hstart
      ((a.final? a.ensureStart.1).elim weight (· + weight))
    have harcs : ∀ p, p.arcs ≠ [] ↔ (e p).arcs ≠ [] := by
      intro p
      have hlength := congrArg List.length (Prod.mk.inj (he p)).1
      rw [List.length_map, List.length_map] at hlength
      rw [← List.length_pos_iff, ← List.length_pos_iff, hlength]
    exact ⟨(e.subtypeEquiv harcs).trans e', fun p => (he' _).trans (he p.1)⟩

/-- Whatever is added, the automaton becomes a union. -/
theorem unites_addPath (ilabels olabels : List Label) (weight : W) :
    a.Unites ilabels olabels weight (a.addPath ilabels olabels weight).2 := by
  by_cases hnil : ilabels ≠ [] ∨ olabels ≠ []
  · exact unites_of_ne_nil hreturn wf hnil weight
  · obtain ⟨rfl, rfl⟩ : ilabels = [] ∧ olabels = [] := by simpa using hnil
    exact unites_nil hreturn wf weight

end

end Transducer.Automaton
