import Mathlib
import Transducer.Automaton.Structure

/-!
# What an automaton knows of itself

A cache is sound if what it takes for decided is as the facts are. An automaton with a sound cache
answers every query by its facts, whether they are cached or not (`PropertyCache.query_eq`), and asking keeps the
cache sound.
-/

namespace Transducer

namespace PropertySet

@[ext] theorem ext_bits {s t : PropertySet} (h : s.bits = t.bits) : s = t := by
  cases s; cases t; exact congrArg mk h

theorem contains_iff {s t : PropertySet} : s.contains t = true ↔ s.inter t = t := by
  rw [contains, beq_iff_eq, inter]
  exact ⟨fun h => ext_bits h, fun h => congrArg bits h⟩

@[simp] theorem contains_inter (s t : PropertySet) : (s.inter t).contains t = s.contains t := by
  rw [contains, contains, inter, BitVec.and_assoc, BitVec.and_self]

/-- The pairs of a set contain the set. -/
theorem inter_pairs (s : PropertySet) : s.inter s.pairs = s := by
  refine ext_bits (BitVec.eq_of_getLsbD_eq fun i hi => ?_)
  have hfirst : ∀ i < 24, (0x555555 : BitVec 24).getLsbD i = (i % 2 == 0) := by decide
  simp only [inter, pairs, BitVec.getLsbD_and, BitVec.getLsbD_or, BitVec.getLsbD_shiftLeft,
    BitVec.getLsbD_ushiftRight, hfirst i hi]
  cases hbit : s.bits.getLsbD i with
  | false => rfl
  | true =>
    -- a bit is its own first one, or the one after it
    by_cases heven : i % 2 = 0
    · simp [heven]
    · have hback : 1 + (i - 1) = i := by omega
      rw [hfirst (i - 1) (by omega), hback, hbit]
      simp
      omega

theorem getLsbD_ofDecision (holds : Property → Bool) (k : Nat) :
    (ofDecision holds).bits.getLsbD k =
      Property.all.any fun q => (fact q (holds q)).bits.getLsbD k := by
  have key : ∀ (properties : List Property) (s : PropertySet),
      (properties.foldl (fun s q => s.union (fact q (holds q))) s).bits.getLsbD k =
        (s.bits.getLsbD k || properties.any fun q => (fact q (holds q)).bits.getLsbD k) := by
    intro properties
    induction properties with
    | nil => intro s; simp
    | cons q properties ih =>
      intro s
      rw [List.foldl_cons, ih, union, BitVec.getLsbD_or, List.any_cons, Bool.or_assoc]
  rw [ofDecision, key]
  simp [none]

theorem getLsbD_fact (p : Property) (holds : Bool) (k : Nat) :
    (fact p holds).bits.getLsbD k = (k == 2 * p.index + if holds then 0 else 1) := by
  have hp := p.index_lt
  rw [fact, BitVec.getLsbD_twoPow, Bool.eq_iff_iff]
  cases holds <;> simp <;> omega

/-- Of the two bits of a property the one is set that agrees with the decision. -/
theorem contains_ofDecision (holds : Property → Bool) (p : Property) (b : Bool) :
    (ofDecision holds).contains (fact p b) = (holds p == b) := by
  have hcontains : ∀ s : PropertySet,
      s.contains (fact p b) = s.bits.getLsbD (2 * p.index + if b then 0 else 1) := by
    intro s
    rw [Bool.eq_iff_iff, contains_iff]
    constructor
    · intro h
      have hbit := congrArg
        (fun t : PropertySet => t.bits.getLsbD (2 * p.index + if b then 0 else 1)) h
      simp only [inter, BitVec.getLsbD_and, getLsbD_fact] at hbit
      simpa using hbit
    · intro h
      refine ext_bits (BitVec.eq_of_getLsbD_eq fun i _ => ?_)
      rw [inter, BitVec.getLsbD_and, getLsbD_fact]
      by_cases hi : i = 2 * p.index + if b then 0 else 1
      · subst hi; simp [h]
      · simp [hi]
  rw [hcontains, getLsbD_ofDecision, Bool.eq_iff_iff, List.any_eq_true]
  simp only [getLsbD_fact, beq_iff_eq]
  constructor
  · rintro ⟨q, -, hq⟩
    obtain rfl : p = q := Property.index_injective (by split at hq <;> split at hq <;> omega)
    cases hh : holds p <;> cases b <;> simp [hh] at hq ⊢
  · intro h
    exact ⟨p, Property.mem_all p, by simp [h]⟩

end PropertySet

/-- What the cache takes for decided is as the facts are. -/
def PropertyCache.Sound (cache : PropertyCache) (facts : PropertySet) : Prop :=
  cache.value.inter cache.known = facts.inter cache.known

/-- A cache that takes nothing for decided is sound. -/
theorem PropertyCache.sound_empty (facts : PropertySet) : ({} : PropertyCache).Sound facts := by
  rw [Sound, PropertySet.inter, PropertySet.inter]
  refine PropertySet.ext_bits ?_
  change _ &&& 0#_ = _ &&& 0#_
  rw [BitVec.and_zero, BitVec.and_zero]

theorem PropertyCache.sound_query {cache : PropertyCache} {facts : PropertySet} (h : cache.Sound facts)
    (mask : PropertySet) (compute : Bool) :
    (cache.query mask compute fun _ => facts).2.Sound facts := by
  unfold query
  split
  · exact h
  · rfl

/-- A query that may compute is answered by the facts. -/
theorem PropertyCache.query_eq {cache : PropertyCache} {facts : PropertySet} (h : cache.Sound facts)
    (mask : PropertySet) : (cache.query mask true fun _ => facts).1 = facts.inter mask := by
  unfold query
  split
  · next hknown =>
    have hpairs : cache.known.inter mask.pairs = mask.pairs := by
      simpa [PropertySet.contains_iff] using hknown
    change (cache.value.inter cache.known).inter mask = _
    rw [h]
    -- what is known covers the mask
    rw [← PropertySet.inter_pairs mask, ← hpairs]
    refine PropertySet.ext_bits (BitVec.eq_of_getLsbD_eq fun i _ => ?_)
    simp only [PropertySet.inter, BitVec.getLsbD_and]
    cases facts.bits.getLsbD i <;> cases cache.known.bits.getLsbD i <;> simp
  · rfl

namespace Automaton

variable {W : Type} [Weight W]

/-- What the automaton has cached is true. -/
def CacheSound (a : Automaton W) : Prop := a.cache.Sound a.facts

/-- An automaton that is asked for a property answers as it is, and remembers nothing false. -/
theorem ask_eq {a : Automaton W} (h : a.CacheSound) (p : Property) :
    ∃ cache, a.ask p = (a.decides p, { a with cache }) ∧ CacheSound { a with cache } := by
  refine ⟨(a.cache.query (.fact p true) true fun _ => a.facts).2, ?_,
    PropertyCache.sound_query h _ _⟩
  rw [ask, properties]
  simp only [PropertyCache.query_eq h, PropertySet.contains_inter]
  rw [facts, PropertySet.contains_ofDecision, beq_true]

end Automaton

end Transducer
