import FoundationDB.RYW.WriteMap

/-! What the write map is meant to hold, key by key: the reference of the
`/fdbclient/WriteMap/random` test (`RYWIterator.cpp`), whose `setMap`, `clearMap`,
`conflictMap` and `unreadableMap` give each key its operation stack and whether it is
cleared, in a conflict range and unreadable. Each write of the transaction updates them
for the keys it covers. -/

namespace FoundationDB.RYW

open FoundationDB.WriteMap (RYWMutation CoalesceError coalesceOver push)

structure KeyState where
  stack : List RYWMutation
  cleared : Bool
  conflict : Bool
  unreadable : Bool
deriving DecidableEq

def KeyState.unmodified : KeyState := ⟨[], false, false, false⟩

def isVersionstamp (operation : MutationType) : Bool :=
  operation == .setVersionstampedValue || operation == .setVersionstampedKey

/-- The stack a mutation leaves: a versionstamped operation is pushed; a set replaces the
stack of a readable key; any other operation over a cleared key starts from an absent
value, and is otherwise coalesced into the top of a readable key's stack or pushed. -/
def KeyState.mutatedStack (valueSizeLimit : ℕ) (s : KeyState) (operation : MutationType)
    (param : Value) : Except CoalesceError (List RYWMutation) :=
  let entry : RYWMutation := ⟨some param, operation⟩
  if isVersionstamp operation then .ok (push s.stack entry)
  else if operation = .setValue then .ok (if s.unreadable then push s.stack entry else [entry])
  else if s.cleared then coalesceOver valueSizeLimit [⟨none, .setValue⟩] entry
  else if !s.unreadable && s.stack ≠ [] then coalesceOver valueSizeLimit s.stack entry
  else .ok (push s.stack entry)

/-- A mutation leaves the key not cleared, in a conflict range if it adds one, and
unreadable if it is versionstamped. -/
def KeyState.mutate (valueSizeLimit : ℕ) (s : KeyState) (operation : MutationType) (param : Value)
    (addConflict : Bool) : Except CoalesceError KeyState :=
  (s.mutatedStack valueSizeLimit operation param).map fun stack =>
    ⟨stack, false, s.conflict || addConflict, s.unreadable || isVersionstamp operation⟩

lemma doAnd_none (param : Value) : doAnd none param = doAnd (some []) param := rfl

/-- The reference state of every key. -/
abbrev RefMap : Type := Key → KeyState

namespace RefMap

def empty : RefMap := fun _ => .unmodified

def addConflictRange (r : RefMap) (keys : KeyRangeRef) : RefMap := fun k =>
  if keys.contains k then { r k with conflict := true } else r k

def addUnmodifiedAndUnreadableRange (r : RefMap) (keys : KeyRangeRef) : RefMap := fun k =>
  if keys.contains k then ⟨[], false, false, true⟩ else r k

def clear (r : RefMap) (keys : KeyRangeRef) (addConflict : Bool) : RefMap := fun k =>
  if keys.contains k then ⟨[], true, (r k).conflict || addConflict, false⟩ else r k

def mutate (valueSizeLimit : ℕ) (r : RefMap) (key : Key) (operation : MutationType) (param : Value)
    (addConflict : Bool) : Except CoalesceError RefMap :=
  ((r key).mutate valueSizeLimit operation param addConflict).map (Function.update r key)

end RefMap

end FoundationDB.RYW
