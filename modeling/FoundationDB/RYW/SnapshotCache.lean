import FoundationDB.RYW.WriteMap
import FoundationDB.Library.Keyed

/-! The snapshot cache of a read-your-writes transaction (`SnapshotCache.h`): what the
transaction has read of its snapshot. Its set holds entries in order of `beginKey`; an entry
says that every key of `[beginKey, endKey)` is known, with the pairs of `values` and no
others. An `iterator` walks three kinds of segments: the unknown range before an entry
(`offset` 0), then the entry's empty ranges (odd offsets) and its pairs (even offsets). An
`ExtStringRef` compares as its bytes with its zeroes after them, so an end is a key here
(`extStringRef`). The set is the list of its entries, an iterator's `it` is a position in it,
and `getD` only stands for dereferencing. -/

namespace FoundationDB

structure KeyValueRef where
  key : Key
  value : Value
deriving DecidableEq, Inhabited

namespace RYW

namespace SnapshotCache

structure Entry where
  beginKey : Key
  endKey : Key
  values : List KeyValueRef
deriving DecidableEq, Inhabited

def Entry.segments (e : Entry) : ℕ := 2 * (e.values.length + 1)

/-- `entries.insert(e, NoMetric(), true)`: the entry replaces the one with its `beginKey`. -/
def insertEntry (entries : List Entry) (e : Entry) : List Entry :=
  Keyed.insert Entry.beginKey (Keyed.eraseKey Entry.beginKey entries e.beginKey) e

inductive SegmentType
  | unknownRange | emptyRange | kv
deriving DecidableEq

structure Iterator where
  entries : List Entry
  it : ℕ
  offset : ℕ

namespace Iterator

def entry (i : Iterator) : Entry := i.entries.getD i.it default

def type (i : Iterator) : SegmentType :=
  if i.offset = 0 then .unknownRange
  else if i.offset % 2 = 1 then .emptyRange
  else .kv

def isUnknownRange (i : Iterator) : Bool := i.type == .unknownRange

/-- `beginKey()`: an unknown range starts where the entry before ends. -/
def beginKey (i : Iterator) : Key :=
  if i.offset = 0 then (i.entries.getD (i.it - 1) default).endKey
  else if i.offset = 1 then i.entry.beginKey
  else extStringRef (i.entry.values.getD ((i.offset - 2) / 2) default).key (i.offset % 2)

def endKey (i : Iterator) : Key :=
  if i.offset = 0 then i.entry.beginKey
  else if i.offset = i.entry.segments - 1 then i.entry.endKey
  else extStringRef (i.entry.values.getD ((i.offset - 1) / 2) default).key (1 - i.offset % 2)

/-- `kv()`, read on a pair's segment only. -/
def kv (i : Iterator) : KeyValueRef := i.entry.values.getD ((i.offset - 2) / 2) default

/-- `skip(key)`: to the segment holding `key`; `allKeys.end` is taken to the last entry. -/
def skip (i : Iterator) (key : Key) : Iterator :=
  if key = allKeysEnd then { i with it := i.entries.length - 1, offset := 1 }
  else
    let it := Keyed.lastLessOrEqual Entry.beginKey i.entries key
    let e := i.entries.getD it default
    if e.endKey ≤ key then { i with it := it + 1, offset := 0 }
    else
      let idx := Keyed.lowerBound KeyValueRef.key e.values key
      { i with it := it, offset := idx * 2 + 1 +
          if idx < e.values.length ∧ (e.values.getD idx default).key = key then 1 else 0 }

def nextUnknown (i : Iterator) : Iterator := { i with it := i.it + 1, offset := 0 }

def prevUnknown (i : Iterator) : Iterator := { i with offset := 0 }

end Iterator

end SnapshotCache

structure SnapshotCache where
  entries : List SnapshotCache.Entry
deriving DecidableEq

namespace SnapshotCache

/-- `SnapshotCache(arena)`: degenerate entries at the beginning and at the end. -/
def init : SnapshotCache :=
  ⟨[⟨allKeysBegin, allKeysBegin, []⟩, ⟨allKeysEnd, afterAllKeys, []⟩]⟩

/-- `iterator(cache)`, at the first entry. -/
def iterator (c : SnapshotCache) : Iterator := ⟨c.entries, 0, 0⟩

/-- `insert(key, value)`: an unknown key gets an entry of its own, and the call says whether
it was unknown. -/
def insertKey (c : SnapshotCache) (key : Key) (value : Option Value) : SnapshotCache × Bool :=
  if (c.iterator.skip key).isUnknownRange then
    let values : List KeyValueRef := match value with
      | some v => [⟨key, v⟩]
      | none => []
    (⟨insertEntry c.entries ⟨key, extStringRef key 1, values⟩⟩, true)
  else (c, false)

/-- `insert(keys, values)`: what lies of `keys` between the entries known across its ends
becomes one entry, over the entries inside it. -/
def insertRange (c : SnapshotCache) (keys : KeyRangeRef) (values : List KeyValueRef) :
    SnapshotCache × Bool :=
  if keys.begin = keys.end then (c, false)
  else
    let itb := c.iterator.skip keys.begin
    let ite := itb.skip keys.end
    -- an entry known across `keys.begin` keeps its part, and the new one starts at its end
    let trimBegin := !itb.isUnknownRange && itb.entry.beginKey != keys.begin
    let begin := if trimBegin then itb.entry.endKey else keys.begin
    let values := if trimBegin then values.drop (Keyed.lowerBound KeyValueRef.key values begin)
      else values
    let itb := if trimBegin then itb.nextUnknown else itb
    -- and one known across `keys.end` too, where the new one ends at its beginning
    let trimEnd := !ite.isUnknownRange
    let ite := if trimEnd then ite.prevUnknown else ite
    let «end» := if trimEnd then ite.endKey else keys.end
    let values := if trimEnd then values.take (Keyed.lowerBound KeyValueRef.key values «end»)
      else values
    if begin < «end» then
      let addBegin := begin != allKeysBegin && itb.entry.beginKey == allKeysBegin
      -- `entries.erase(itb.it, ite.it)`
      let entries := c.entries.take itb.it ++ c.entries.drop ite.it
      let entries := insertEntry entries ⟨begin, «end», values⟩
      let entries := if addBegin then insertEntry entries ⟨allKeysBegin, allKeysBegin, []⟩
        else entries
      (⟨entries⟩, true)
    else (c, false)

end SnapshotCache

/-- A call on the cache. -/
inductive SnapshotOp
  | insertKey (key : Key) (value : Option Value)
  | insertRange (keys : KeyRangeRef) (values : List KeyValueRef)

namespace SnapshotCache

def apply (c : SnapshotCache) : SnapshotOp → SnapshotCache × Bool
  | .insertKey key value => c.insertKey key value
  | .insertRange keys values => c.insertRange keys values

/-- The calls made one after another. -/
def run (c : SnapshotCache) (ops : List SnapshotOp) : SnapshotCache :=
  ops.foldl (fun c op => (c.apply op).1) c

end SnapshotCache

end RYW

end FoundationDB
