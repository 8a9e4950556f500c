import FoundationDB.Client.Atomic

/-! The operation stacks of the read-your-writes write map (`WriteMap.h`) for one readable
key, how a transaction's writes build them (`WriteMap::mutate`, `WriteMap::clear`), how a
read sees them (`coalesceUnder`) and how a commit replays them
(`writeRangeToNativeTransaction`); and, against these, the value the storage server gives
the key when it applies the same writes one at a time (`expandMutation`). -/

namespace FoundationDB.WriteMap

structure RYWMutation where
  value : Option Value
  type : MutationType
deriving DecidableEq

inductive CoalesceError
  | assertionFailed
  | operationFailed
deriving DecidableEq, Repr

/-- `coalesce`: the single entry equivalent to `existingEntry` followed by `newEntry`, or
`operation_failed` when there is none. -/
def coalesce (valueSizeLimit : ℕ) (existingEntry newEntry : RYWMutation) :
    Except CoalesceError RYWMutation :=
  match newEntry.value with
  | none => .error .assertionFailed
  | some operand =>
    if newEntry.type = .setValue then .ok newEntry
    else if newEntry.type = .compareAndClear then
      if existingEntry.type = .setValue then
        if (doCompareAndClear existingEntry.value operand).isSome then .ok existingEntry
        else .ok ⟨none, .setValue⟩
      else .error .operationFailed
    else
      match newEntry.type.atomicFunction valueSizeLimit with
      | some f =>
        if existingEntry.type = .setValue then .ok ⟨some (f existingEntry.value operand), .setValue⟩
        else if existingEntry.type = newEntry.type then
          .ok ⟨some (f existingEntry.value operand), newEntry.type⟩
        else .error .operationFailed
      | none => .error .operationFailed

/-! An `OperationStack` is the list of its entries, bottom first; a default-constructed
stack is the empty list. -/

/-- `top()`; on a default-constructed stack, its default `RYWMutation`. -/
def top (stack : List RYWMutation) : RYWMutation := stack.getLast?.getD ⟨none, .noOp⟩

def push (stack : List RYWMutation) (entry : RYWMutation) : List RYWMutation := stack ++ [entry]

/-- `poppush`, which leaves a default-constructed stack empty. -/
def poppush (stack : List RYWMutation) (entry : RYWMutation) : List RYWMutation :=
  match stack with
  | [] => []
  | _ => stack.dropLast ++ [entry]

def isDependent (stack : List RYWMutation) : Bool :=
  match stack with
  | [] => false
  | e :: _ => e.type ≠ .setValue ∧ e.type ≠ .clearRange ∧ e.type ≠ .setVersionstampedValue ∧
      e.type ≠ .setVersionstampedKey

/-- `coalesceOver`: merge `newEntry` into the top of the stack, or push it when both are
atomic operations that may not be merged. -/
def coalesceOver (valueSizeLimit : ℕ) (stack : List RYWMutation) (newEntry : RYWMutation) :
    Except CoalesceError (List RYWMutation) :=
  let existingEntry := top stack
  if existingEntry.type = newEntry.type ∧ newEntry.type ≠ .compareAndClear then
    if existingEntry.type.isNonAssociativeOp ∧ existingEntry.value.isSome ∧
        (existingEntry.value.getD []).length ≠ (newEntry.value.getD []).length then
      .ok (push stack newEntry)
    else (coalesce valueSizeLimit existingEntry newEntry).map (poppush stack)
  else if newEntry.type.isAtomicOp ∧ existingEntry.type.isAtomicOp then .ok (push stack newEntry)
  else (coalesce valueSizeLimit existingEntry newEntry).map (poppush stack)

/-- `coalesceUnder`: the stack applied to the value below it. -/
def coalesceUnder (valueSizeLimit : ℕ) (stack : List RYWMutation) (value : Option Value) :
    Except CoalesceError RYWMutation :=
  if !isDependent stack ∧ stack.length = 1 then .ok (stack.headD ⟨none, .noOp⟩)
  else stack.foldlM (coalesce valueSizeLimit) ⟨value, .setValue⟩

/-- One readable key of the write map: the operation stack of its entry (empty when it
has none, or one with no operations) and whether it lies in a cleared range. -/
structure KeyEntry where
  stack : List RYWMutation
  cleared : Bool
deriving DecidableEq

def KeyEntry.unmodified : KeyEntry := ⟨[], false⟩

/-- `WriteMap::mutate` at a readable key, for an operation that does not make it
unreadable (every one but the versionstamped ones). -/
def mutate (valueSizeLimit : ℕ) (entry : KeyEntry) (operation : MutationType) (param : Value) :
    Except CoalesceError KeyEntry :=
  if operation = .setValue then .ok ⟨[⟨some param, .setValue⟩], entry.cleared⟩
  else if entry.stack = [] then
    if entry.cleared then
      (coalesceOver valueSizeLimit [⟨none, .setValue⟩] ⟨some param, operation⟩).map (⟨·, true⟩)
    else .ok ⟨[⟨some param, operation⟩], false⟩
  else (coalesceOver valueSizeLimit entry.stack ⟨some param, operation⟩).map (⟨·, entry.cleared⟩)

/-- `WriteMap::clear` of the key's single-key range. -/
def clear (_ : KeyEntry) : KeyEntry := ⟨[], true⟩

/-- What a transaction does to one key. -/
inductive KeyWrite
  | set (value : Value)
  | clear
  | atomicOp (type : MutationType) (operand : Value)
deriving DecidableEq

/-- `ReadYourWritesTransaction::set`, `clear` and `atomicOp` on the write map. -/
def KeyWrite.write (valueSizeLimit : ℕ) (entry : KeyEntry) : KeyWrite → Except CoalesceError KeyEntry
  | .set value => mutate valueSizeLimit entry .setValue value
  | .clear => .ok (WriteMap.clear entry)
  | .atomicOp type operand => mutate valueSizeLimit entry type operand

def runWrites (valueSizeLimit : ℕ) (entry : KeyEntry) (writes : List KeyWrite) :
    Except CoalesceError KeyEntry :=
  writes.foldlM (KeyWrite.write valueSizeLimit) entry

/-- The key's value as the transaction reads it over the snapshot value `value`. -/
def readValue (valueSizeLimit : ℕ) (entry : KeyEntry) (value : Option Value) :
    Except CoalesceError (Option Value) :=
  if entry.stack = [] then .ok (if entry.cleared then none else value)
  else (coalesceUnder valueSizeLimit entry.stack value).map (·.value)

/-- The writes `writeRangeToNativeTransaction` sends for the key: the clear of its cleared
range, or its stack's entries in order. -/
def replay (entry : KeyEntry) : List KeyWrite :=
  if entry.stack = [] then (if entry.cleared then [.clear] else [])
  else entry.stack.map fun m =>
    if m.type = .setValue then
      match m.value with
      | some value => .set value
      | none => .clear
    else .atomicOp m.type (m.value.getD [])

/-- The key's value after the storage server applies one write: `expandMutation` turns an
atomic operation into the set of its result, or drops a compare-and-clear that does not
match. -/
def KeyWrite.apply (valueSizeLimit : ℕ) (oldVal : Option Value) : KeyWrite → Option Value
  | .set value => some value
  | .clear => none
  | .atomicOp type operand =>
    if type = .compareAndClear then doCompareAndClear oldVal operand
    else
      match type.atomicFunction valueSizeLimit with
      | some f => some (f oldVal operand)
      | none => some operand

def storageValue (valueSizeLimit : ℕ) (value : Option Value) (writes : List KeyWrite) :
    Option Value :=
  writes.foldl (KeyWrite.apply valueSizeLimit) value

/-- `CLIENT_KNOBS->VALUE_SIZE_LIMIT`. -/
def valueSizeLimitKnob : ℕ := 100000

end FoundationDB.WriteMap
