import FoundationDB.Rpc.RangeMap
import FoundationDB.RYW.WriteMap

/-! The coalesced range maps of `KeyRangeMap.h`. `CoalescedKeyRangeMap` and
`CoalescedKeyRefRangeMap` are range maps over keys that remember their end, `mapEnd`, and
whose inserts keep no boundary that holds the value of the one before it: each insert reads
the boundaries around the new range to decide whether a boundary is needed at its end,
whether the boundary after it has become redundant, and whether one is needed at its
beginning. The two classes differ only in owning their keys or not, which leaves the same
bytes, so both are `CoalescedRangeMap` here and their inserts have one body each. -/

namespace FoundationDB

open RYW (allKeysBegin allKeysEnd keyAfter equalsKeyAfter)
open Map

structure CoalescedRangeMap (V : Type) extends RangeMap Key V where
  mapEnd : Key

namespace CoalescedRangeMap

variable {V : Type} [Inhabited V] [DecidableEq V]

/-- The constructor `(v, endKey)`: `RangeMap(endKey, v)` and `mapEnd(endKey)`. -/
def init (v : V := default) (endKey : Key := allKeysEnd) : CoalescedRangeMap V :=
  ⟨RangeMap.init endKey v, endKey⟩

/-- The end of both inserts: `map.erase(begin, end)`, then `map.insert(p, true)` of the pair at
the end and of the pair at the beginning where they were found needed. -/
def eraseInsert (m : CoalescedRangeMap V) (b e : ℕ) (insertEnd : Bool) (endPair : MapPair Key V)
    (insertBegin : Bool) (beginPair : MapPair Key V) : CoalescedRangeMap V :=
  let map := Map.erase m.map b e
  let map := if insertEnd then Map.insert map endPair else map
  let map := if insertBegin then Map.insert map beginPair else map
  { m with map := map }

/-- `insert(keys, value)` of both classes; `none` is the failed `ASSERT(keys.end <= mapEnd)`.
A position `i - 1` is the iterator `i` after `decrementNonEnd()`. -/
def insertRange (m : CoalescedRangeMap V) (keys : KeyRangeRef) (value : V) :
    Option (CoalescedRangeMap V) :=
  if ¬keys.end ≤ m.mapEnd then none
  else if keys.begin = keys.end then some m
  else
    let pairAt (i : ℕ) : MapPair Key V := m.map.getD i default
    let b := lowerBound m.map keys.begin
    let e := lowerBound m.map keys.end
    let insertEnd := keys.end != m.mapEnd && (pairAt e).key != keys.end &&
      value != (pairAt (e - 1)).value
    let endVal := (pairAt (e - 1)).value
    let e := if keys.end != m.mapEnd && !insertEnd && (pairAt e).value == value &&
      (pairAt e).key != m.mapEnd then e + 1 else e
    let insertBegin := keys.begin == allKeysBegin || (pairAt (b - 1)).value != value
    some (m.eraseInsert b e insertEnd ⟨keys.end, endVal⟩ insertBegin ⟨keys.begin, value⟩)

/-- `insert(key, value)` of both classes; `none` is the failed `ASSERT(key < mapEnd)`. Unlike
the range insert it looks for a boundary at `keyAfter(key)` with `equalsKeyAfter`, and checks
the boundary after the key even when the key is the last one before `mapEnd`. -/
def insertKey (m : CoalescedRangeMap V) (key : Key) (value : V) : Option (CoalescedRangeMap V) :=
  if ¬key < m.mapEnd then none
  else
    let pairAt (i : ℕ) : MapPair Key V := m.map.getD i default
    let b := lowerBound m.map key
    let e := if (pairAt b).key = key then b + 1 else b
    let insertEnd := !equalsKeyAfter key (pairAt e).key && value != (pairAt (e - 1)).value
    let endVal := (pairAt (e - 1)).value
    let e := if !insertEnd && (pairAt e).value == value && (pairAt e).key != m.mapEnd then e + 1
      else e
    let insertBegin := key == allKeysBegin || (pairAt (b - 1)).value != value
    some (m.eraseInsert b e insertEnd ⟨keyAfter key, endVal⟩ insertBegin ⟨key, value⟩)

end CoalescedRangeMap

abbrev CoalescedKeyRangeMap (V : Type) := CoalescedRangeMap V

abbrev CoalescedKeyRefRangeMap (V : Type) := CoalescedRangeMap V

section Members

variable {V : Type} [Inhabited V] [DecidableEq V]

def CoalescedKeyRangeMap.insertRange (m : CoalescedKeyRangeMap V) (keys : KeyRangeRef) (value : V) :
    Option (CoalescedKeyRangeMap V) :=
  CoalescedRangeMap.insertRange m keys value

def CoalescedKeyRangeMap.insertKey (m : CoalescedKeyRangeMap V) (key : Key) (value : V) :
    Option (CoalescedKeyRangeMap V) :=
  CoalescedRangeMap.insertKey m key value

def CoalescedKeyRefRangeMap.insertRange (m : CoalescedKeyRefRangeMap V) (keys : KeyRangeRef)
    (value : V) : Option (CoalescedKeyRefRangeMap V) :=
  CoalescedRangeMap.insertRange m keys value

/-- The `Arena` of `insert(key, value, arena)` only holds the bytes of `keyAfter(key)`. -/
def CoalescedKeyRefRangeMap.insertKey (m : CoalescedKeyRefRangeMap V) (key : Key) (value : V) :
    Option (CoalescedKeyRefRangeMap V) :=
  CoalescedRangeMap.insertKey m key value

end Members

/-- A call on a coalesced map. -/
inductive CoalescedOp (V : Type)
  | insertRange (keys : KeyRangeRef) (value : V)
  | insertKey (key : Key) (value : V)

namespace CoalescedOp

variable {V : Type}

def value : CoalescedOp V → V
  | insertRange _ v => v
  | insertKey _ v => v

/-- The keys the call writes. -/
def covers : CoalescedOp V → Key → Prop
  | insertRange keys _, k => keys.begin ≤ k ∧ k < keys.end
  | insertKey key _, k => k = key

instance (op : CoalescedOp V) (k : Key) : Decidable (op.covers k) :=
  match op with
  | insertRange _ _ => inferInstanceAs (Decidable (_ ∧ _))
  | insertKey _ _ => inferInstanceAs (Decidable (_ = _))

/-- The call passes its assertion on a map that ends at `mapEnd`. -/
def Valid (mapEnd : Key) : CoalescedOp V → Prop
  | insertRange keys _ => keys.end ≤ mapEnd
  | insertKey key _ => key < mapEnd

instance (mapEnd : Key) (op : CoalescedOp V) : Decidable (op.Valid mapEnd) :=
  match op with
  | insertRange _ _ => inferInstanceAs (Decidable (_ ≤ _))
  | insertKey _ _ => inferInstanceAs (Decidable (_ < _))

end CoalescedOp

namespace CoalescedRangeMap

variable {V : Type} [Inhabited V] [DecidableEq V]

def apply (m : CoalescedRangeMap V) : CoalescedOp V → Option (CoalescedRangeMap V)
  | .insertRange keys value => m.insertRange keys value
  | .insertKey key value => m.insertKey key value

/-- The calls made one after another; `none` once an assertion fails. -/
def run (m : CoalescedRangeMap V) (ops : List (CoalescedOp V)) : Option (CoalescedRangeMap V) :=
  ops.foldlM apply m

/-- What the calls mean: a key holds the value of the last call that covers it, or `v` when
none does. -/
def lastWriter (v : V) (ops : List (CoalescedOp V)) (k : Key) : V :=
  ops.foldl (fun x op => if op.covers k then op.value else x) v

end CoalescedRangeMap

end FoundationDB
