/-!
# Weights

What an automaton asks of the weights on its arcs. `a + b` combines alternative paths and `a * b`
consecutive steps of one path; `0` is the weight of no path at all and `1` that of a free step. The
tests `isZero`, `isOne` and `isMember` are part of the interface, because representations may hold
words that are no weights, or several words for one weight.

Two further interfaces are separate: `Tolerance` compares weights up to a bound, and `Ranked` orders
weights whose sum selects one of its operands.
-/

namespace Transducer

/-- The operations and tests of a kind of weight. -/
class Weight (W : Type) extends Zero W, One W, Add W, Mul W where
  /-- Whether the weight is that of no path. -/
  isZero : W → Bool
  /-- Whether the weight is that of a free step. -/
  isOne : W → Bool
  /-- Whether the representation is a weight at all. -/
  isMember : W → Bool

/-- Comparison of weights up to a bound of type `D`. -/
class Tolerance (W : Type) (D : outParam Type) where
  /-- Whether two weights are equal up to the bound. -/
  approxEq : W → W → D → Bool

/-- Weights of which one can be better than another. -/
class Ranked (W : Type) where
  /-- Whether the first weight is strictly better than the second. -/
  better : W → W → Bool

export Weight (isZero isOne isMember)
export Tolerance (approxEq)
export Ranked (better)

/-- The two kinds of weights that have a stored form. -/
inductive WeightKind where
  /-- Costs, of which the least counts. -/
  | tropical
  /-- Negated logarithms of probabilities, which add up. -/
  | log
  deriving DecidableEq, Repr

namespace WeightKind

/-- The number that stands for the kind in stored automata. -/
def tag : WeightKind → UInt32
  | tropical => 1
  | log => 2

/-- The kind that a number stands for. -/
def ofTag? (tag : UInt32) : Option WeightKind :=
  if tag = 1 then some tropical else if tag = 2 then some log else none

/-- The name of the kind. -/
def name : WeightKind → String
  | tropical => "tropical"
  | log => "log"

/-- Reading a tag undoes writing it. -/
theorem ofTag?_tag (kind : WeightKind) : ofTag? kind.tag = some kind := by
  cases kind <;> rfl

end WeightKind

end Transducer
