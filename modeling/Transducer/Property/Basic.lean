/-!
# Properties and sets of them

Twelve structural properties of automata, each of which holds or fails. A set of properties has two bits
for each: one says that it holds, the other that it fails. A property of which neither bit is set is
unknown, so a set can hold partial knowledge.

`PropertyCache` keeps what is known of an automaton. A query is answered from it if all that is asked is
known; otherwise everything is found out at once, or, if the query does not allow that, the known part
is the answer.
-/

namespace Transducer

/-- A structural property of automata. -/
inductive Property where
  /-- Every arc reads what it writes. -/
  | acceptor
  /-- No state has two arcs that read one label. -/
  | inputDeterministic
  /-- No state has two arcs that write one label. -/
  | outputDeterministic
  /-- Some arc neither reads nor writes. -/
  | epsilons
  /-- Some arc reads nothing. -/
  | inputEpsilons
  /-- Some arc writes nothing. -/
  | outputEpsilons
  /-- The arcs of every state are in the order of what they read. -/
  | inputSorted
  /-- The arcs of every state are in the order of what they write. -/
  | outputSorted
  /-- Some weight is more than a mere yes or no. -/
  | weighted
  /-- Some state reaches itself. -/
  | cyclic
  /-- Every state is reached from the start. -/
  | accessible
  /-- Every state reaches a final state. -/
  | coaccessible
  deriving DecidableEq, Repr

namespace Property

/-- The properties, in the order of their bits. -/
def all : List Property :=
  [acceptor, inputDeterministic, outputDeterministic, epsilons, inputEpsilons, outputEpsilons,
    inputSorted, outputSorted, weighted, cyclic, accessible, coaccessible]

/-- The place of a property among all. -/
def index : Property → Nat
  | acceptor => 0
  | inputDeterministic => 1
  | outputDeterministic => 2
  | epsilons => 3
  | inputEpsilons => 4
  | outputEpsilons => 5
  | inputSorted => 6
  | outputSorted => 7
  | weighted => 8
  | cyclic => 9
  | accessible => 10
  | coaccessible => 11

theorem mem_all (property : Property) : property ∈ all := by
  cases property <;> decide

theorem index_lt (property : Property) : property.index < 12 := by
  cases property <;> decide

theorem index_injective {p q : Property} (h : p.index = q.index) : p = q := by
  revert h; cases p <;> cases q <;> decide

/-- The name of the property, if it holds, or of its opposite. -/
def name : Property → Bool → String
  | acceptor, true => "acceptor"
  | acceptor, false => "not-acceptor"
  | inputDeterministic, true => "i-deterministic"
  | inputDeterministic, false => "non-i-deterministic"
  | outputDeterministic, true => "o-deterministic"
  | outputDeterministic, false => "non-o-deterministic"
  | epsilons, true => "epsilons"
  | epsilons, false => "no-epsilons"
  | inputEpsilons, true => "i-epsilons"
  | inputEpsilons, false => "no-i-epsilons"
  | outputEpsilons, true => "o-epsilons"
  | outputEpsilons, false => "no-o-epsilons"
  | inputSorted, true => "i-label-sorted"
  | inputSorted, false => "not-i-label-sorted"
  | outputSorted, true => "o-label-sorted"
  | outputSorted, false => "not-o-label-sorted"
  | weighted, true => "weighted"
  | weighted, false => "unweighted"
  | cyclic, true => "cyclic"
  | cyclic, false => "acyclic"
  | accessible, true => "accessible"
  | accessible, false => "not-accessible"
  | coaccessible, true => "coaccessible"
  | coaccessible, false => "not-coaccessible"

end Property

/-- Knowledge about properties: bit `2 * i` says that the property with index `i` holds, the bit after it
that the property fails. -/
structure PropertySet where
  bits : BitVec 24
  deriving DecidableEq, Repr

namespace PropertySet

/-! ### Sets -/

/-- The set that says nothing. -/
def none : PropertySet := ⟨0⟩

/-- The set with every bit. -/
def all : PropertySet := ⟨BitVec.allOnes 24⟩

/-- The set with the low 24 bits of a number. -/
def ofNat (n : Nat) : PropertySet := ⟨BitVec.ofNat 24 n⟩

/-- The set as a number. -/
def toNat (s : PropertySet) : Nat := s.bits.toNat

/-- The set that says of one property that it holds, or fails. -/
def fact (property : Property) (holds : Bool) : PropertySet :=
  ⟨BitVec.twoPow 24 (2 * property.index + if holds then 0 else 1)⟩

/-- The bits of either set. -/
def union (s t : PropertySet) : PropertySet := ⟨s.bits ||| t.bits⟩

/-- The bits of both sets. -/
def inter (s t : PropertySet) : PropertySet := ⟨s.bits &&& t.bits⟩

/-- The bits that are not in the set. -/
def compl (s : PropertySet) : PropertySet := ⟨~~~s.bits⟩

/-- Whether every bit of `t` is in `s`. -/
def contains (s t : PropertySet) : Bool := s.bits &&& t.bits == t.bits

/-- Whether the sets have a bit in common. -/
def intersects (s t : PropertySet) : Bool := s.bits &&& t.bits != 0

/-- Whether the set says nothing. -/
def isEmpty (s : PropertySet) : Bool := s.bits == 0

/-- Both bits of every property of which the set has one. -/
def pairs (s : PropertySet) : PropertySet :=
  let first : BitVec 24 := 0x555555
  let either := (s.bits &&& first) ||| ((s.bits >>> 1) &&& first)
  ⟨either ||| (either <<< 1)⟩

/-! ### Sets and properties -/

/-- The full knowledge that a decision for every property makes. -/
def ofDecision (holds : Property → Bool) : PropertySet :=
  Property.all.foldl (fun s property => s.union (fact property (holds property))) none

/-- The names of the bits of a set, in ascending order. -/
def names (s : PropertySet) : List String :=
  Property.all.flatMap fun property =>
    [true, false].filterMap fun holds =>
      if s.contains (fact property holds) then some (property.name holds) else Option.none

/-- The set by the names of its bits. -/
def text (s : PropertySet) : String :=
  "FstProperties(" ++ String.intercalate " | " s.names ++ ")"

end PropertySet

/-- What is known of an automaton: `known` are the bits that have been decided, `value` those of them
that are set. -/
structure PropertyCache where
  known : PropertySet := .none
  value : PropertySet := .none
  deriving DecidableEq, Repr

namespace PropertyCache

/-- The answer to a query for the bits of `mask`, and the knowledge afterwards. Where the cache does not
answer all, `fresh` decides everything, provided that `compute` allows it. -/
def query (cache : PropertyCache) (mask : PropertySet) (compute : Bool)
    (fresh : Unit → PropertySet) : PropertySet × PropertyCache :=
  if cache.known.contains mask.pairs || !compute then
    ((cache.value.inter cache.known).inter mask, cache)
  else
    let value := fresh ()
    (value.inter mask, { known := .all, value })

/-- What two caches of one automaton know together. -/
def merge (cache other : PropertyCache) : PropertyCache where
  known := cache.known.union other.known
  value := cache.value.union other.value

end PropertyCache

end Transducer
