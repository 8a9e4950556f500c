import Mathlib

/-! Keys, key ranges, mutations and the transactions a commit proxy sends
(`FDBTypes.h`, `CommitTransaction.h`). A key is a list of bytes; `<` on lists is the
`StringRef` order: `memcmp` on the common prefix, then the shorter first. -/

namespace FoundationDB

abbrev Key := List (Fin 256)

/-- Every byte literal takes its `NeZero 256` from this one instance. -/
instance (priority := high) byteNeZero : NeZero (256 : ℕ) := ⟨by decide⟩

abbrev Value := List (Fin 256)

/-- `KeyRangeRef`: its constructor and its deserializer throw `inverted_range` when
`begin > end`. -/
structure KeyRangeRef where
  begin : Key
  «end» : Key
  begin_le_end : begin ≤ «end»

def KeyRangeRef.contains (r : KeyRangeRef) (k : Key) : Prop := r.begin ≤ k ∧ k < r.end

def KeyRangeRef.intersects (r s : KeyRangeRef) : Prop := r.begin < s.end ∧ s.begin < r.end

instance (r : KeyRangeRef) (k : Key) : Decidable (r.contains k) :=
  inferInstanceAs (Decidable (_ ∧ _))

instance (r s : KeyRangeRef) : Decidable (r.intersects s) :=
  inferInstanceAs (Decidable (_ ∧ _))

/-- `MutationRef::Type`. -/
inductive MutationType
  | setValue | clearRange | addValue | debugKeyRange | debugKey | noOp | and | or | xor
  | appendIfFits | availableForReuse | reservedForLogProtocolMessage | max | min
  | setVersionstampedKey | setVersionstampedValue | byteMin | byteMax | minV2 | andV2
  | compareAndClear | reservedForSpanContextMessage | maxAtomicOp
deriving DecidableEq, Repr

namespace MutationType

/-- Membership in `ATOMIC_MASK`. -/
def isAtomicOp : MutationType → Bool
  | addValue | and | or | xor | appendIfFits | max | min | setVersionstampedKey
  | setVersionstampedValue | byteMin | byteMax | minV2 | andV2 | compareAndClear => true
  | _ => false

/-- Membership in `NON_ASSOCIATIVE_MASK`. -/
def isNonAssociativeOp : MutationType → Bool
  | addValue | or | xor | max | min | setVersionstampedKey | setVersionstampedValue | minV2
  | compareAndClear => true
  | _ => false

end MutationType

structure MutationRef where
  type : MutationType
  param1 : List (Fin 256)
  param2 : List (Fin 256)
deriving DecidableEq

structure CommitTransactionRef where
  readConflictRanges : List KeyRangeRef
  writeConflictRanges : List KeyRangeRef
  mutations : List MutationRef
  readSnapshot : ℤ
  reportConflictingKeys : Bool

end FoundationDB
