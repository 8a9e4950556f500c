import FoundationDB.Client.CommitTransaction

/-! The atomic operations of `Atomic.h`, each a function of the existing value (absent
or present) and the operand. A value is a list of bytes, least significant first for
the arithmetic operations; `VALUE_SIZE_LIMIT` is the client knob of that name. -/

namespace FoundationDB

/-- `buf[i] = sum; carry = sum >> 8` over the operand's bytes, the existing value's
bytes added while there are any. -/
def addBytes : Value → Value → ℕ → Value
  | _, [], _ => []
  | [], o :: os, carry => ⟨(o.val + carry) % 256, Nat.mod_lt _ (by decide)⟩ ::
      addBytes [] os ((o.val + carry) / 256)
  | e :: es, o :: os, carry => ⟨(e.val + o.val + carry) % 256, Nat.mod_lt _ (by decide)⟩ ::
      addBytes es os ((e.val + o.val + carry) / 256)

def doLittleEndianAdd (existingValueOptional : Option Value) (otherOperand : Value) : Value :=
  let existingValue := existingValueOptional.getD []
  if existingValue.length = 0 then otherOperand
  else if otherOperand.length = 0 then otherOperand
  else addBytes existingValue otherOperand 0

/-- The loops of `doAnd`: `&` while both have bytes, then zeros to the operand's length. -/
def andBytes : Value → Value → Value
  | _, [] => []
  | [], _ :: os => 0 :: andBytes [] os
  | e :: es, o :: os => (e &&& o) :: andBytes es os

def doAnd (existingValueOptional : Option Value) (otherOperand : Value) : Value :=
  if otherOperand.length = 0 then otherOperand
  else andBytes (existingValueOptional.getD []) otherOperand

def doAndV2 (existingValueOptional : Option Value) (otherOperand : Value) : Value :=
  match existingValueOptional with
  | none => otherOperand
  | some _ => doAnd existingValueOptional otherOperand

/-- The loops of `doOr` and `doXor`: `op` while both have bytes, then the operand's. -/
def zipBytes (op : Fin 256 → Fin 256 → Fin 256) : Value → Value → Value
  | _, [] => []
  | [], os => os
  | e :: es, o :: os => op e o :: zipBytes op es os

def doOr (existingValueOptional : Option Value) (otherOperand : Value) : Value :=
  let existingValue := existingValueOptional.getD []
  if existingValue.length = 0 then otherOperand
  else if otherOperand.length = 0 then otherOperand
  else zipBytes (· ||| ·) existingValue otherOperand

def doXor (existingValueOptional : Option Value) (otherOperand : Value) : Value :=
  let existingValue := existingValueOptional.getD []
  if existingValue.length = 0 then otherOperand
  else if otherOperand.length = 0 then otherOperand
  else zipBytes (· ^^^ ·) existingValue otherOperand

def doAppendIfFits (valueSizeLimit : ℕ) (existingValueOptional : Option Value)
    (otherOperand : Value) : Value :=
  let existingValue := existingValueOptional.getD []
  if existingValue.length = 0 then otherOperand
  else if otherOperand.length = 0 then existingValue
  else if existingValue.length + otherOperand.length > valueSizeLimit then existingValue
  else existingValue ++ otherOperand

/-- The buffer `doMax` and `doMin` return for the existing value: its bytes up to the
operand's length, then zeros. -/
def extendTo (existingValue : Value) (n : ℕ) : Value :=
  existingValue.take n ++ List.replicate (n - existingValue.length) 0

/-- `for (; i >= 0; i--)` of `doMax`, over the bytes below `i`: the highest byte where
the two differ decides. -/
def maxLoop (existingValue otherOperand : Value) : ℕ → Value
  | 0 => otherOperand
  | i + 1 =>
    if otherOperand.getD i 0 > existingValue.getD i 0 then otherOperand
    else if otherOperand.getD i 0 < existingValue.getD i 0 then
      extendTo existingValue otherOperand.length
    else maxLoop existingValue otherOperand i

/-- The bytes of the operand the first loop of `doMax` and `doMin` reads, from
`otherOperand.size() - 1` down to `existingValue.size()`. -/
def highBytes (existingValue otherOperand : Value) : List (Fin 256) :=
  otherOperand.drop existingValue.length

def doMax (existingValueOptional : Option Value) (otherOperand : Value) : Value :=
  let existingValue := existingValueOptional.getD []
  if existingValue.length = 0 then otherOperand
  else if otherOperand.length = 0 then otherOperand
  else if (highBytes existingValue otherOperand).any (· ≠ 0) then otherOperand
  else maxLoop existingValue otherOperand (min existingValue.length otherOperand.length)

def doByteMax (existingValueOptional : Option Value) (otherOperand : Value) : Value :=
  match existingValueOptional with
  | none => otherOperand
  | some existingValue => if existingValue > otherOperand then existingValue else otherOperand

/-- `for (; i >= 0; i--)` of `doMin`. -/
def minLoop (existingValue otherOperand : Value) : ℕ → Value
  | 0 => otherOperand
  | i + 1 =>
    if otherOperand.getD i 0 > existingValue.getD i 0 then
      extendTo existingValue otherOperand.length
    else if otherOperand.getD i 0 < existingValue.getD i 0 then otherOperand
    else minLoop existingValue otherOperand i

def doMin (existingValueOptional : Option Value) (otherOperand : Value) : Value :=
  if otherOperand.length = 0 then otherOperand
  else
    let existingValue := existingValueOptional.getD []
    if (highBytes existingValue otherOperand).any (· ≠ 0) then
      extendTo existingValue otherOperand.length
    else minLoop existingValue otherOperand (min existingValue.length otherOperand.length)

def doMinV2 (existingValueOptional : Option Value) (otherOperand : Value) : Value :=
  match existingValueOptional with
  | none => otherOperand
  | some _ => doMin existingValueOptional otherOperand

def doByteMin (existingValueOptional : Option Value) (otherOperand : Value) : Value :=
  match existingValueOptional with
  | none => otherOperand
  | some existingValue => if existingValue < otherOperand then existingValue else otherOperand

def doCompareAndClear (existingValueOptional : Option Value) (otherOperand : Value) :
    Option Value :=
  if existingValueOptional.isNone ∨ existingValueOptional = some otherOperand then none
  else existingValueOptional

/-- The function each value-producing atomic operation applies, as both the switch of
`WriteMap::coalesce` and that of the storage server's `expandMutation` choose it. -/
def MutationType.atomicFunction (valueSizeLimit : ℕ) :
    MutationType → Option (Option Value → Value → Value)
  | .addValue => some doLittleEndianAdd
  | .and => some doAnd
  | .or => some doOr
  | .xor => some doXor
  | .appendIfFits => some (doAppendIfFits valueSizeLimit)
  | .max => some doMax
  | .min => some doMin
  | .byteMin => some doByteMin
  | .byteMax => some doByteMax
  | .minV2 => some doMinV2
  | .andV2 => some doAndV2
  | _ => none

lemma MutationType.isAtomicOp_of_atomicFunction {valueSizeLimit : ℕ} {t : MutationType}
    {f : Option Value → Value → Value} (h : t.atomicFunction valueSizeLimit = some f) :
    t.isAtomicOp = true := by
  cases t <;> simp_all [atomicFunction, isAtomicOp]

end FoundationDB
