import Mathlib
import Transducer.Composition.Lazy
import Transducer.Proofs.Composition.Exploration
import Transducer.Proofs.Property.Upkeep
import Transducer.Weight.Tropical

/-!
# What is known of an automaton is never out of date

A session is a sequence of actions on any number of automata: they are created or read, copied, changed,
asked for properties, and taken for the operands of compositions. After every action what each automaton
knows is either nothing or everything, as it is (`Current`). So each answer about its properties is the one
that a fresh decision gives, or, where nothing may be found out, says nothing at all
(`properties_eq_of_mem`).
-/

namespace Transducer

/-! ### Actions -/

section

variable {W D : Type} [Weight W] [Costed W] [Tolerance W D]

/-- The automata of a session, by numbers. -/
abbrev Session (W : Type) := Array (Automaton W)

/-- The actions of a session. -/
inductive Action (W D : Type) where
  /-- Makes an automaton without states. -/
  | create
  /-- Reads an automaton. -/
  | load (bytes : List UInt8)
  /-- Copies an automaton, with what it knows. -/
  | copy (i : Nat)
  /-- Changes an automaton. -/
  | change (i : Nat) (change : Change W D)
  /-- Asks an automaton for properties. -/
  | ask (i : Nat) (mask : PropertySet) (compute : Bool)
  /-- Builds a matcher of an automaton. -/
  | matcher (i : Nat) (config : Matching.Config)
  /-- Prepares a composition of two automata, which may be the same, on demand. -/
  | prepare (i j : Nat) (opts : Composition.Options)
  /-- Composes two automata, which may be the same, and keeps the result. -/
  | compose (i j : Nat) (opts : Composition.Options)

namespace Session

/-- Two automata, or one automaton twice, learn what an action on both has found out about them. -/
def onOperands {α : Type} (session : Session W) (i j : Nat)
    (action : EStateM Error (Automaton W × Automaton W) α) : Session W :=
  match session[i]?, session[j]? with
  | some a, some b =>
    let operands := stateAfter action (a, b)
    (session.modify i (·.learn operands.1.cache)).modify j (·.learn operands.2.cache)
  | _, _ => session

/-- The automata after an action. -/
def act (session : Session W) : Action W D → Session W
  | .create => session.push .empty
  | .load bytes =>
    match Automaton.ofBytes bytes with
    | .ok a => session.push a
    | .error _ => session
  | .copy i =>
    match session[i]? with
    | some a => session.push a
    | none => session
  | .change i change => session.modify i (stateAfter change.edit)
  | .ask i mask compute => session.modify i fun a => (a.properties mask compute).2
  | .matcher i config => session.modify i (stateAfter (Matcher.build config))
  | .prepare i j opts => session.onOperands i j (Composition.build opts)
  | .compose i j opts =>
    match session[i]?, session[j]? with
    | some a, some b =>
      let session := session.onOperands i j (Transducer.compose opts)
      match Transducer.compose opts (a, b) with
      | .ok r _ => session.push r
      | .error _ _ => session
    | _, _ => session

/-- The automata after some actions, of which there are none before. -/
def after (actions : List (Action W D)) : Session W := actions.foldl act #[]

end Session

end

/-! ### Operands -/

section

variable {W : Type} [Weight W] {facts facts' : PropertySet}

/-- These are the facts about the automaton, and it knows all of them or nothing. -/
def Automaton.Knows (facts : PropertySet) (a : Automaton W) : Prop :=
  a.facts = facts ∧ a.cache.Current facts

theorem Automaton.Knows.ask {a : Automaton W} (h : a.Knows facts) (p : Property) :
    (a.ask p).2.Knows facts := by
  obtain ⟨rfl, hcache⟩ := h
  exact ⟨rfl, hcache.query _ _⟩

/-- What a matcher has to find out about its automaton stays with the automaton. -/
theorem Matcher.keeps_build (config : Matching.Config) :
    Keeps (Automaton.Knows facts) (Matcher.build config : Edit W (Matcher W)) := by
  intro a ha
  obtain ⟨side, layers, substitution, phiLoop⟩ := config
  unfold stateAfter Matcher.build
  cases Matching.Config.fault? ⟨side, layers, substitution, phiLoop⟩ with
  | some fault => exact ha
  | none =>
    rcases side with _ | _ | _
    · cases substitution
      · exact ha.ask .acceptor
      · exact ha
      · exact ha
    · cases substitution
      · exact (ha.ask .inputSorted).ask .acceptor
      · exact ha.ask .inputSorted
      · exact ha.ask .inputSorted
    · cases substitution
      · exact (ha.ask .outputSorted).ask .acceptor
      · exact ha.ask .outputSorted
      · exact ha.ask .outputSorted

/-- The facts about both operands, of which they know all or nothing. -/
def OperandsKnow (facts facts' : PropertySet) (operands : Automaton W × Automaton W) : Prop :=
  operands.1.Knows facts ∧ operands.2.Knows facts'

theorem Composition.keeps_build (opts : Options) :
    Keeps (OperandsKnow facts facts') (Composition.build (W := W) opts) := by
  rintro ⟨a, b⟩ ⟨ha, hb⟩
  have hleft := Matcher.keeps_build opts.left a ha
  have hright := Matcher.keeps_build opts.right b hb
  unfold stateAfter at *
  unfold Composition.build
  dsimp only
  cases opts.plan with
  | error fault => exact ⟨ha, hb⟩
  | ok plan =>
    cases Composition.checkSymbols a b with
    | error fault => exact ⟨ha, hb⟩
    | ok _ =>
      cases hl : Matcher.build opts.left a with
      | error e a' =>
        rw [hl] at hleft
        exact ⟨hleft, hb⟩
      | ok left a' =>
        rw [hl] at hleft
        cases hr : Matcher.build opts.right b with
        | error e b' =>
          rw [hr] at hright
          exact ⟨hleft, hright⟩
        | ok right b' =>
          rw [hr] at hright
          exact ⟨hleft, hright⟩

theorem keeps_compose (opts : Composition.Options) :
    Keeps (OperandsKnow facts facts') (compose (W := W) opts) := by
  refine (Composition.keeps_build opts).bind fun c => ?_
  split
  · exact keeps_throw _
  · exact keeps_pure _

/-- A composition knows nothing of itself when it is new. -/
theorem Automaton.cacheCurrent_of_compose {opts : Composition.Options}
    {operands operands' : Automaton W × Automaton W} {r : Automaton W}
    (h : compose opts operands = .ok r operands') : r.CacheCurrent := by
  obtain ⟨c, whole, places, -, -, hcache, rfl | rfl⟩ := Composition.exists_completes_of_compose h
  · exact cacheCurrent_of_eq_empty hcache
  · exact (cacheCurrent_of_eq_empty hcache).of_renewed whole.renewed_trim

end

/-! ### Sessions -/

namespace Session

variable {W D : Type} [Weight W] {session : Session W}

/-- Every automaton knows all or nothing of itself. -/
def Current (session : Session W) : Prop :=
  ∀ (i : Nat) (a : Automaton W), session[i]? = some a → a.CacheCurrent

theorem Current.push (h : session.Current) {a : Automaton W} (ha : a.CacheCurrent) :
    Current (session.push a) := by
  intro i b hb
  rw [Array.getElem?_push] at hb
  split at hb
  · obtain rfl := Option.some.inj hb
    exact ha
  · exact h i b hb

theorem Current.modify (h : session.Current) {i : Nat} {f : Automaton W → Automaton W}
    (hf : ∀ a, session[i]? = some a → a.CacheCurrent → (f a).CacheCurrent) :
    Current (session.modify i f) := by
  intro j b hb
  rw [Array.getElem?_modify] at hb
  split at hb
  · next hij =>
    subst hij
    obtain ⟨a, ha, rfl⟩ := Option.map_eq_some_iff.1 hb
    exact hf a ha (h i a ha)
  · exact h j b hb

/-- Also an automaton that is taken for both operands learns nothing that is out of date. -/
theorem Current.onOperands {α : Type} (h : session.Current) (i j : Nat)
    {action : EStateM Error (Automaton W × Automaton W) α}
    (haction : ∀ facts facts', Keeps (OperandsKnow facts facts') action) :
    (session.onOperands i j action).Current := by
  unfold Session.onOperands
  split
  · next a b ha hb =>
    obtain ⟨⟨-, hleft⟩, -, hright⟩ := haction a.facts b.facts (a, b) ⟨⟨rfl, h i a ha⟩, rfl, h j b hb⟩
    refine Current.modify (h.modify fun a' ha' hcurrent => ?_) fun b' hb' hcurrent => ?_
    · obtain rfl := Option.some.inj (ha.symm.trans ha')
      exact hcurrent.learn hleft
    · -- what the first operand has learnt is no fact about it
      have hfacts : b'.facts = b.facts := by
        rw [Array.getElem?_modify] at hb'
        split at hb'
        · next hij =>
          subst hij
          obtain rfl := Option.some.inj (ha.symm.trans hb)
          rw [ha] at hb'
          obtain rfl := Option.some.inj hb'
          rfl
        · rw [Option.some.inj (hb.symm.trans hb')]
      exact hcurrent.learn (hfacts ▸ hright)
  · exact h

variable [Costed W] [Tolerance W D]

/-- An action leaves no automaton with knowledge that is out of date. -/
theorem Current.act (h : session.Current) (action : Action W D) : (session.act action).Current := by
  cases action with
  | create => exact h.push (Automaton.cacheCurrent_of_eq_empty rfl)
  | load bytes =>
    simp only [Session.act]
    split
    · next a ha => exact h.push (Automaton.cacheCurrent_of_eq_empty (Automaton.cache_of_ofBytes ha))
    · exact h
  | copy i =>
    simp only [Session.act]
    split
    · next a ha => exact h.push (h i a ha)
    · exact h
  | change i change => exact h.modify fun a _ ha => change.keeps_edit a ha
  | ask i mask compute => exact h.modify fun a _ ha => ha.properties mask compute
  | matcher i config =>
    exact h.modify fun a _ ha => by
      obtain ⟨hfacts, hcache⟩ := Matcher.keeps_build config a ⟨rfl, ha⟩
      rw [Automaton.CacheCurrent, hfacts]
      exact hcache
  | prepare i j opts => exact h.onOperands i j fun _ _ => Composition.keeps_build opts
  | compose i j opts =>
    have hoperands := h.onOperands i j fun _ _ => keeps_compose opts
    simp only [Session.act]
    split
    · split
      · next hr => exact hoperands.push (Automaton.cacheCurrent_of_compose hr)
      · exact hoperands
    · exact h

/-- Nor do any number of actions. -/
theorem current_after (actions : List (Action W D)) : (after actions).Current := by
  have hempty : Current (#[] : Session W) := fun i a ha => by simp at ha
  exact List.foldlRecOn actions act hempty fun session h action _ => h.act action

/-- After any number of actions an automaton answers as it is where it may compute; where it may not, it
gives a part of this answer, which is all of it or nothing. -/
theorem properties_eq_of_mem {actions : List (Action W D)} {a : Automaton W} (ha : a ∈ after actions)
    (mask : PropertySet) :
    (a.properties mask true).1 = a.facts.inter mask ∧
      (a.facts.inter mask).contains (a.properties mask false).1 = true ∧
      ((a.properties mask false).1 = a.facts.inter mask ∨ (a.properties mask false).1 = .none) := by
  obtain ⟨i, hi⟩ := Array.getElem?_of_mem ha
  have hcurrent := current_after actions i a hi
  have hpart : (a.properties mask false).1 = a.facts.inter mask ∨ (a.properties mask false).1 = .none :=
    hcurrent.query_false mask fun _ => a.facts
  refine ⟨PropertyCache.query_eq hcurrent.sound mask, ?_, hpart⟩
  rcases hpart with hall | hnone
  · rw [hall, PropertySet.contains_iff]
    exact PropertySet.inter_self _
  · rw [hnone, PropertySet.contains_iff]
    exact PropertySet.inter_none _

/-- An automaton is built, asked and copied, and a matcher of the copy is built. Then the automaton is
changed again, and at last a change is refused. -/
def revision : List (Action Tropical Single) :=
  [.create, .change 0 (.addStates 2), .change 0 (.setStart 0), .change 0 (.addArc 0 ⟨1, 2, 1, 1⟩),
    .ask 0 .all true, .copy 0, .matcher 1 {}, .change 0 (.setFinal 1 1), .change 0 (.setStart 2)]

/-- The changed automaton does not answer as it was before. -/
theorem properties_eq_of_mem_revision : ∃ a ∈ after revision,
    (a.properties .all true).1 = a.facts.inter .all ∧
      (a.facts.inter .all).contains (a.properties .all false).1 = true ∧
      ((a.properties .all false).1 = a.facts.inter .all ∨ (a.properties .all false).1 = .none) := by
  have hmem := Array.getElem_mem (show 0 < (after revision).size by decide)
  exact ⟨_, hmem, properties_eq_of_mem hmem .all⟩

end Session

end Transducer
