import Transducer.Error

/-!
# Layout of stored automata

A stored automaton is a header of 32 bytes, the symbol tables that the header announces, a record of 8
bytes for each state and a record of 16 bytes for each arc, in the order of the states. Numbers are
stored with the least significant byte first.
-/

namespace Transducer.Binary

/-! ### Numbers -/

/-- A number in `count` bytes, the least significant one first. -/
def littleEndian : Nat → Nat → List UInt8
  | 0, _ => []
  | count + 1, n => UInt8.ofNat (n % 256) :: littleEndian count (n / 256)

/-- The number that bytes hold, the least significant one first. -/
def ofLittleEndian : List UInt8 → Nat
  | [] => 0
  | byte :: rest => byte.toNat + 256 * ofLittleEndian rest

@[simp] theorem length_littleEndian (count n : Nat) : (littleEndian count n).length = count := by
  induction count generalizing n with
  | zero => rfl
  | succ count ih => simp [littleEndian, ih]

theorem ofLittleEndian_littleEndian (count n : Nat) :
    ofLittleEndian (littleEndian count n) = n % Nat.pow 256 count := by
  induction count generalizing n with
  | zero => exact (Nat.mod_one n).symm
  | succ count ih =>
    have h : (UInt8.ofNat (n % 256)).toNat = n % 256 := by
      rw [UInt8.toNat_ofNat']
      exact Nat.mod_eq_of_lt (Nat.mod_lt n (by decide))
    have step : Nat.pow 256 (count + 1) = 256 * Nat.pow 256 count := Nat.mul_comm _ _
    rw [littleEndian, ofLittleEndian, ih, h, step, Nat.mod_mul]

/-- A word of four bytes. -/
def wordBytes (word : UInt32) : List UInt8 := littleEndian 4 word.toNat

/-- The word that four bytes hold. -/
def ofWordBytes (bytes : List UInt8) : UInt32 := UInt32.ofNat (ofLittleEndian bytes)

@[simp] theorem length_wordBytes (word : UInt32) : (wordBytes word).length = 4 :=
  length_littleEndian 4 word.toNat

@[simp] theorem ofWordBytes_wordBytes (word : UInt32) : ofWordBytes (wordBytes word) = word := by
  have h : word.toNat % Nat.pow 256 4 = word.toNat := Nat.mod_eq_of_lt word.toNat_lt
  rw [ofWordBytes, wordBytes, ofLittleEndian_littleEndian, h, UInt32.ofNat_toNat]

/-! ### The header -/

/-- The header of a stored automaton. -/
structure Header where
  magic : UInt32
  version : UInt32
  /-- The tag of the kind of weights. -/
  weights : UInt32
  /-- Which symbol tables follow. -/
  flags : UInt32
  start : UInt32
  states : UInt32
  arcs : UInt64
  deriving DecidableEq, Repr

/-- The first word of every stored automaton. -/
def magic : UInt32 := 0x57465354

/-- The version of the layout. -/
def version : UInt32 := 1

/-- The number of bytes of a header. -/
def headerSize : Nat := 32

/-- What stands for the start of an automaton that has none. -/
def noStart : UInt32 := 0xFFFFFFFF

/-- The bit of the flags for the symbol table of a side. -/
def flag : Side → UInt32
  | .input => 1
  | .output => 2

/-- The bytes of a header. -/
def Header.bytes (h : Header) : List UInt8 :=
  wordBytes h.magic ++ wordBytes h.version ++ wordBytes h.weights ++ wordBytes h.flags ++
    wordBytes h.start ++ wordBytes h.states ++ littleEndian 8 h.arcs.toNat

/-- The header that 32 bytes hold. -/
def Header.ofBytes (bytes : List UInt8) : Header :=
  let word (i : Nat) : UInt32 := ofWordBytes ((bytes.drop (4 * i)).take 4)
  { magic := word 0, version := word 1, weights := word 2, flags := word 3, start := word 4,
    states := word 5, arcs := UInt64.ofNat (ofLittleEndian (bytes.drop 24)) }

/-! ### Records -/

/-- The record of a state: its final weight, which is infinite if the state is not final, and the number
of its arcs. -/
structure StateRecord where
  final : Single
  arcs : UInt32
  deriving DecidableEq, Repr

/-- The number of bytes of the record of a state. -/
def stateRecordSize : Nat := 8

/-- The bytes of the record of a state. -/
def StateRecord.bytes (r : StateRecord) : List UInt8 := wordBytes r.final.word ++ wordBytes r.arcs

/-- The record of a state that 8 bytes hold. -/
def StateRecord.ofBytes (bytes : List UInt8) : StateRecord :=
  { final := ⟨ofWordBytes (bytes.take 4)⟩, arcs := ofWordBytes (bytes.drop 4) }

/-- The record of an arc. -/
structure ArcRecord where
  ilabel : UInt32
  olabel : UInt32
  weight : Single
  target : UInt32
  deriving DecidableEq, Repr

/-- The number of bytes of the record of an arc. -/
def arcRecordSize : Nat := 16

/-- The bytes of the record of an arc. -/
def ArcRecord.bytes (r : ArcRecord) : List UInt8 :=
  wordBytes r.ilabel ++ wordBytes r.olabel ++ wordBytes r.weight.word ++ wordBytes r.target

/-- The record of an arc that 16 bytes hold. -/
def ArcRecord.ofBytes (bytes : List UInt8) : ArcRecord :=
  let word (i : Nat) : UInt32 := ofWordBytes ((bytes.drop (4 * i)).take 4)
  { ilabel := word 0, olabel := word 1, weight := ⟨word 2⟩, target := word 3 }

end Transducer.Binary
