import Mathlib
import Transducer.Composition.Lazy
import Transducer.Proofs.Composition.Expansion
import Transducer.Proofs.Path.Accepting

/-!
# Numbers of composite states

What is known of a composition stays consistent: a composite state has one number, a number belongs to
one composite state, and an expanded state has the weight and the steps of its expansion, with numbers in
place of their targets. Requests only add to what is known (`Extends`, `Grows`), and they add nothing but
composite states that can be met from the start (`Met`). A request that fails adds nothing (`request_spec`).
-/

namespace Transducer.Composition

variable {W : Type}

/-- The arc is the step with a number in place of its target. -/
def Numbers (places : Array Place) (step : Step W) (arc : Arc W) : Prop :=
  arc.content = step.content ∧ places[arc.target]? = some step.target

/-- The labels and the weight of an arc are those of its step. -/
theorem Numbers.eq {places : Array Place} {step : Step W} {arc : Arc W} (hn : Numbers places step arc) :
    arc = ⟨step.ilabel, step.olabel, step.weight, arc.target⟩ := by
  obtain ⟨hilabel, hrest⟩ := Prod.mk.inj hn.1
  obtain ⟨holabel, hweight⟩ := Prod.mk.inj hrest
  rw [← hilabel, ← holabel, ← hweight]

/-- Composite states can be given back the numbers that they have. -/
theorem exists_index (places : Array Place) :
    ∃ index : Place → Nat, ∀ other ∈ places, places[index other]? = some other := by
  have hexists : ∀ other : Place, ∃ id : Nat, other ∈ places → places[id]? = some other := by
    intro other
    by_cases hother : other ∈ places
    · obtain ⟨id, hid⟩ := Array.getElem?_of_mem hother
      exact ⟨id, fun _ => hid⟩
    · exact ⟨0, fun hmem => absurd hmem hother⟩
  choose index hindex using hexists
  exact ⟨index, hindex⟩

/-- Composite states keep their numbers. -/
def Extends (places places' : Array Place) : Prop :=
  ∀ (id : Nat) (place : Place), places[id]? = some place → places'[id]? = some place

theorem Extends.refl (places : Array Place) : Extends places places := fun _ _ hid => hid

theorem Extends.trans {places places' places'' : Array Place} (h : Extends places places')
    (h' : Extends places' places'') : Extends places places'' :=
  fun id place hid => h' id place (h id place hid)

theorem extends_push (places : Array Place) (place : Place) : Extends places (places.push place) := by
  intro id other h
  obtain ⟨hlt, rfl⟩ := Array.getElem?_eq_some_iff.1 h
  rw [Array.getElem?_push_lt hlt]

theorem Numbers.mono {places places' : Array Place} (h : Extends places places') {step : Step W}
    {arc : Arc W} (hn : Numbers places step arc) : Numbers places' step arc := ⟨hn.1, h _ _ hn.2⟩

/-- The state has the weight and the steps of the expansion. -/
def Describes (places : Array Place) (known : Known W) (expansion : Expansion W) : Prop :=
  known.final = expansion.final ∧ List.Forall₂ (Numbers places) expansion.steps known.arcs.toList

theorem Describes.mono {places places' : Array Place} (h : Extends places places') {known : Known W}
    {expansion : Expansion W} (hd : Describes places known expansion) :
    Describes places' known expansion :=
  ⟨hd.1, hd.2.imp fun _ _ => Numbers.mono h⟩

/-- What a composite state with a number is known to be. -/
def Memo.known? (memo : Memo W) (id : Nat) : Option (Known W) := memo.known.getD id none

theorem known?_push_none (memo : Memo W) (places : Array Place) (ids : Std.HashMap Place Nat) (id : Nat) :
    Memo.known? ⟨places, ids, memo.known.push none⟩ id = memo.known? id := by
  simp only [Memo.known?, Array.getD_eq_getD_getElem?, Array.getElem?_push]
  split
  · next h => simp [h]
  · rfl

/-- Both operand states exist. -/
def InRange (c : Composition W) (place : Place) : Prop :=
  place.left < c.left.automaton.size ∧ place.right < c.right.automaton.size

/-- Where the composition starts, if both operands have a start. -/
def origin (c : Composition W) : Option Place :=
  match c.left.automaton.start, c.right.automaton.start with
  | some s, some t => some ⟨s, t, .either⟩
  | _, _ => none

theorem origin_eq_some {c : Composition W} {place : Place} :
    c.origin = some place ↔ ∃ s t, c.left.automaton.start = some s ∧ c.right.automaton.start = some t ∧
      place = ⟨s, t, .either⟩ := by
  unfold origin
  cases c.left.automaton.start with
  | none => simp
  | some s =>
    cases c.right.automaton.start with
    | none => simp
    | some t => simp [eq_comm]

/-- What is known stays known. -/
structure Memo.Grows (memo memo' : Memo W) : Prop where
  places : Extends memo.places memo'.places
  known : ∀ {id : Nat} {known : Known W}, memo.known? id = some known → memo'.known? id = some known

theorem Memo.Grows.refl (memo : Memo W) : memo.Grows memo := ⟨.refl _, id⟩

theorem Memo.Grows.trans {memo memo' memo'' : Memo W} (h : memo.Grows memo') (h' : memo'.Grows memo'') :
    memo.Grows memo'' :=
  ⟨h.places.trans h'.places, fun hknown => h'.known (h.known hknown)⟩

/-- What was expanded stays so, and one composite state more is expanded. -/
theorem Memo.Grows.known_succ {memo memo' : Memo W} (h : memo.Grows memo') {id : Nat} {known : Known W}
    (hnew : memo'.known? id = some known) (hbelow : ∀ i < id, (memo.known? i).isSome = true) :
    ∀ i < id + 1, (memo'.known? i).isSome = true := by
  intro i hi
  rcases Nat.lt_succ_iff_lt_or_eq.1 hi with hi | rfl
  · obtain ⟨known', hknown'⟩ := Option.isSome_iff_exists.1 (hbelow i hi)
    rw [h.known hknown']
    rfl
  · rw [hnew]
    rfl

variable [Weight W]

/-- What is known is right. -/
structure Consistent (c : Composition W) (memo : Memo W) : Prop where
  ids_iff : ∀ {place : Place} {id : Nat}, memo.ids[place]? = some id ↔ memo.places[id]? = some place
  size_known : memo.known.size = memo.places.size
  expanded : ∀ {id : Nat} {known : Known W}, memo.known? id = some known →
    ∃ place expansion, memo.places[id]? = some place ∧ c.expand id place = .ok expansion ∧
      Describes memo.places known expansion

theorem consistent_empty (c : Composition W) : Consistent c {} := by
  refine ⟨fun {place id} => ?_, rfl, fun {id known} h => ?_⟩
  · simp
  · simp [Memo.known?, Array.getD] at h

/-! ### Numbering -/

/-- To number a composite state changes nothing that is known, and adds at most that state. -/
theorem intern_spec {c : Composition W} {memo : Memo W} (h : Consistent c memo) (place : Place) :
    Consistent c (memo.intern place).2 ∧ Extends memo.places (memo.intern place).2.places ∧
      (memo.intern place).2.places[(memo.intern place).1]? = some place ∧
      (∀ id, (memo.intern place).2.known? id = memo.known? id) ∧
      ∀ other ∈ (memo.intern place).2.places, other ∈ memo.places ∨ other = place := by
  unfold Memo.intern
  split
  · next id hid => exact ⟨h, .refl _, h.ids_iff.1 hid, fun _ => rfl, fun _ => .inl⟩
  · next hid =>
    have hext := extends_push memo.places place
    refine ⟨⟨fun {other id} => ?_, by simp [h.size_known], fun {id known} hknown => ?_⟩, hext,
      Array.getElem?_push_size, known?_push_none memo _ _, fun other hother => ?_⟩
    · -- the new number is the first that was free
      rw [Std.HashMap.getElem?_insert, Memo.size, Array.getElem?_push]
      by_cases hplace : place = other
      · subst hplace
        have hnew : ∀ id : Nat, memo.places[id]? ≠ some place := by
          intro id hn
          rw [h.ids_iff.2 hn] at hid
          cases hid
        by_cases heq : id = memo.places.size
        · simp [heq]
        · simp [heq, hnew id, Ne.symm heq]
      · by_cases heq : id = memo.places.size
        · subst heq
          have : memo.ids[other]? ≠ some memo.places.size := by
            intro hn
            have hlt := (Array.getElem?_eq_some_iff.1 (h.ids_iff.1 hn)).1
            omega
          simp [hplace, this]
        · simp [hplace, heq, h.ids_iff]
    · rw [known?_push_none] at hknown
      obtain ⟨other, expansion, hother, hexpand, hd⟩ := h.expanded hknown
      exact ⟨other, expansion, hext _ _ hother, hexpand, hd.mono hext⟩
    · exact (Array.mem_push.1 hother)

/-- To number the targets of steps makes arcs of them. -/
theorem internSteps_spec {c : Composition W} {memo : Memo W} (h : Consistent c memo) (steps : List (Step W)) :
    Consistent c (memo.internSteps steps).2 ∧ Extends memo.places (memo.internSteps steps).2.places ∧
      List.Forall₂ (Numbers (memo.internSteps steps).2.places) steps (memo.internSteps steps).1 ∧
      (∀ id, (memo.internSteps steps).2.known? id = memo.known? id) ∧
      ∀ other ∈ (memo.internSteps steps).2.places,
        other ∈ memo.places ∨ ∃ step ∈ steps, other = step.target := by
  induction steps generalizing memo with
  | nil => exact ⟨h, .refl _, .nil, fun _ => rfl, fun _ => .inl⟩
  | cons step steps ih =>
    obtain ⟨hc, hext, hid, hknown, hmem⟩ := intern_spec h step.target
    obtain ⟨hc', hext', hall, hknown', hmem'⟩ := ih hc
    refine ⟨hc', hext.trans hext', .cons ⟨rfl, hext' _ _ hid⟩ hall, fun id => ?_, fun other hother => ?_⟩
    · exact (hknown' id).trans (hknown id)
    · rcases hmem' other hother with hother | ⟨step', hstep', rfl⟩
      · rcases hmem other hother with hother | rfl
        · exact .inl hother
        · exact .inr ⟨step, List.mem_cons_self, rfl⟩
      · exact .inr ⟨step', List.mem_cons_of_mem _ hstep', rfl⟩

/-! ### Composite states that are met -/

/-- The composite state can be expanded, and this is its expansion. Its number has no part in that. -/
def Expands (c : Composition W) (place : Place) (expansion : Expansion W) : Prop :=
  ∀ id, c.expand id place = .ok expansion

/-- The composite states that can be met. -/
inductive Met (c : Composition W) : Place → Prop where
  /-- The one where the composition starts. -/
  | origin {place : Place} : c.origin = some place → Met c place
  /-- Those to which steps lead. -/
  | step {place : Place} {expansion : Expansion W} {step : Step W} :
      Met c place → c.Expands place expansion → step ∈ expansion.steps → Met c step.target

/-- A composite state that can be met cannot be expanded. -/
def Stuck (c : Composition W) : Prop := ∃ place, c.Met place ∧ ∀ expansion, ¬c.Expands place expansion

section

variable {c : Composition W} {place : Place} {expansion : Expansion W}

omit [Weight W] in
/-- The number of a composite state has no part in which operand is listed. -/
theorem listed_eq_of_ok {id : Nat} {operand : Operand} (h : c.listed id place = .ok operand) (id' : Nat) :
    c.listed id' place = .ok operand := by
  revert h
  unfold listed
  cases c.plan with
  | fixed operand => exact fun h => h
  | perState =>
    intro h
    obtain ⟨left, hl, h⟩ := bind_eq_ok.1 h
    obtain ⟨right, hr, h⟩ := bind_eq_ok.1 h
    refine bind_eq_ok.2 ⟨left, hl, bind_eq_ok.2 ⟨right, hr, ?_⟩⟩
    cases left <;> cases right <;> first | exact h | cases h

/-- The number of a composite state is only for the message if it cannot be expanded. -/
theorem expands_of_expand {id : Nat} (h : c.expand id place = .ok expansion) : c.Expands place expansion := by
  intro id'
  obtain ⟨leftFinal, hleft, h⟩ := bind_eq_ok.1 h
  obtain ⟨rightFinal, hright, h⟩ := bind_eq_ok.1 h
  obtain ⟨arcs, harcs, h⟩ := bind_eq_ok.1 h
  obtain ⟨operand, hlisted, h⟩ := bind_eq_ok.1 h
  exact bind_eq_ok.2 ⟨leftFinal, hleft, bind_eq_ok.2 ⟨rightFinal, hright, bind_eq_ok.2 ⟨arcs, harcs,
    bind_eq_ok.2 ⟨operand, listed_eq_of_ok hlisted id', h⟩⟩⟩⟩

theorem Expands.unique {expansion' : Expansion W} (h : c.Expands place expansion)
    (h' : c.Expands place expansion') : expansion = expansion' :=
  Except.ok.inj ((h 0).symm.trans (h' 0))

theorem Expands.inRange (h : c.Expands place expansion) : c.InRange place := by
  obtain ⟨leftFinal, hleft, h⟩ := bind_eq_ok.1 (h 0)
  obtain ⟨rightFinal, hright, -⟩ := bind_eq_ok.1 h
  exact ⟨Automaton.lt_size_of_findFinal hleft, Automaton.lt_size_of_findFinal hright⟩

end

/-! ### Requests -/

/-- What is known is right, and nothing but what can be met has a number. -/
structure Explored (c : Composition W) (memo : Memo W) : Prop extends Consistent c memo where
  met : ∀ place ∈ memo.places, c.Met place

theorem explored_empty (c : Composition W) : Explored c {} :=
  ⟨consistent_empty c, fun place hplace => by simp at hplace⟩

/-- To number a composite state that can be met. -/
theorem Explored.intern {c : Composition W} {memo : Memo W} (h : Explored c memo) {place : Place}
    (hplace : c.Met place) :
    Explored c (memo.intern place).2 ∧ memo.Grows (memo.intern place).2 := by
  obtain ⟨hc, hext, -, hknown, hmem⟩ := intern_spec h.toConsistent place
  refine ⟨⟨hc, fun other hother => ?_⟩, hext, fun hother => (hknown _).trans hother⟩
  rcases hmem other hother with hother | rfl
  · exact h.met other hother
  · exact hplace

/-- A request for a composite state expands it and keeps what is known, or it changes nothing because there
is no such composite state or it cannot be expanded. -/
theorem request_spec {c : Composition W} {memo : Memo W} (h : Explored c memo) (id : Nat) :
    (∃ known memo', c.request id memo = .ok known memo' ∧ Explored c memo' ∧ memo.Grows memo' ∧
      memo'.known? id = some known) ∨
    ∃ e, c.request id memo = .error e memo ∧
      ∀ place expansion, memo.places[id]? = some place → ¬c.Expands place expansion := by
  unfold request
  cases hknown : memo.known.getD id none with
  | some known => exact .inl ⟨known, memo, rfl, h, .refl _, hknown⟩
  | none =>
    cases hplace : memo.places[id]? with
    | none =>
      right
      simp only [Memo.find, hplace]
      exact ⟨_, rfl, nofun⟩
    | some place =>
      simp only [Memo.find, hplace]
      cases hexpand : c.expand id place with
      | error e =>
        refine .inr ⟨e, rfl, fun place' expansion hplace' hexpands => ?_⟩
        obtain rfl := Option.some.inj hplace'
        rw [hexpands id] at hexpand
        cases hexpand
      | ok expansion =>
        obtain ⟨hc, hext, hall, hsame, hmem⟩ := internSteps_spec h.toConsistent expansion.steps
        have hlt : id < (memo.internSteps expansion.steps).2.known.size := by
          rw [hc.size_known]
          exact (Array.getElem?_eq_some_iff.1 (hext _ _ hplace)).1
        have hset : ∀ (known : Known W) (i : Nat), Memo.known? { (memo.internSteps expansion.steps).2 with
            known := (memo.internSteps expansion.steps).2.known.setIfInBounds id (some known) } i =
            if i = id then some known else memo.known? i := by
          intro known i
          rw [← hsame i]
          simp only [Memo.known?, Array.getD_eq_getD_getElem?, Array.getElem?_setIfInBounds, hlt, if_true]
          by_cases hi : id = i
          · simp [hi]
          · simp [hi, Ne.symm hi]
        refine .inl ⟨_, _, rfl, ⟨⟨hc.ids_iff, ?_, fun {i known} hi => ?_⟩, fun other hother => ?_⟩,
          ⟨hext, fun {i known'} hi => ?_⟩, ?_⟩
        · simp [hc.size_known]
        · rw [hset] at hi
          split at hi
          · next heq =>
            subst heq
            obtain rfl := Option.some.inj hi
            exact ⟨_, expansion, hext _ _ hplace, hexpand, rfl, by simpa using hall⟩
          · obtain ⟨other, expansion', hother, hexpand', hd⟩ := h.expanded hi
            exact ⟨other, expansion', hext _ _ hother, hexpand', hd.mono hext⟩
        · rcases hmem other hother with hother | ⟨step, hstep, rfl⟩
          · exact h.met other hother
          · exact .step (h.met place (Array.mem_of_getElem? hplace)) (expands_of_expand hexpand) hstep
        · rw [hset, if_neg, hi]
          rintro rfl
          exact nomatch hi.symm.trans hknown
        · rw [hset, if_pos rfl]

end Transducer.Composition
