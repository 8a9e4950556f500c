import FoundationDB.Client.WriteMap
import FoundationDB.Library.Keyed

/-! The write map of a read-your-writes transaction (`WriteMap.h`) over all keys. Its tree
holds `WriteMapEntry`s in key order: an entry carries the operation stack of its own key
and the flags of the range of keys after it, up to the next entry. An `iterator` walks the
segments this defines: the operation of an entry's key (`offset` false), then the range
that follows it (`offset` true). The tree is the list of its entries; `PTreeImpl`'s insert
and removals are those of `Keyed`, and the iterator's finger is the index of `entry()`,
with `nextEntry()` the entry after it. -/

namespace FoundationDB.RYW

open FoundationDB.WriteMap (RYWMutation CoalesceError coalesceOver push)

/-- `allKeys.begin`. -/
def allKeysBegin : Key := []

/-- `allKeys.end`, `\xff\xff`. -/
def allKeysEnd : Key := [255, 255]

/-- `afterAllKeys`, `\xff\xff\x00`. -/
def afterAllKeys : Key := [255, 255, 0]

def keyAfter (key : Key) : Key := key ++ [0]

/-- `ExtStringRef(base, extraZeroes)`: the key followed by that many zero bytes. -/
def extStringRef (base : Key) (extraZeroes : ℕ) : Key := base ++ List.replicate extraZeroes 0

def equalsKeyAfter (key compareKey : Key) : Bool :=
  if key.length + 1 ≠ compareKey.length ∨ compareKey.getLast? ≠ some 0 then false
  else compareKey.take key.length = key

structure WriteMapEntry where
  key : Key
  stack : List RYWMutation
  followingKeysCleared : Bool
  followingKeysConflict : Bool
  isConflict : Bool
  followingKeysUnreadable : Bool
  isUnreadable : Bool
deriving DecidableEq, Inhabited

namespace PTreeImpl

def insert (tree : List WriteMapEntry) (e : WriteMapEntry) : List WriteMapEntry :=
  Keyed.insert WriteMapEntry.key tree e

def remove (tree : List WriteMapEntry) (key : Key) : List WriteMapEntry :=
  Keyed.eraseKey WriteMapEntry.key tree key

def removeRange (tree : List WriteMapEntry) (b e : Key) : List WriteMapEntry :=
  Keyed.removeRange WriteMapEntry.key tree b e

end PTreeImpl

structure Iterator where
  tree : List WriteMapEntry
  beginIdx : ℕ
  offset : Bool

namespace Iterator

def entry (it : Iterator) : WriteMapEntry := it.tree.getD it.beginIdx default

def nextEntry (it : Iterator) : WriteMapEntry := it.tree.getD (it.beginIdx + 1) default

def isClearedRange (it : Iterator) : Bool := it.offset && it.entry.followingKeysCleared

def isUnmodifiedRange (it : Iterator) : Bool := it.offset && !it.entry.followingKeysCleared

def isOperation (it : Iterator) : Bool := !it.offset

def isConflictRange (it : Iterator) : Bool :=
  if it.offset then it.entry.followingKeysConflict else it.entry.isConflict

def isUnreadable (it : Iterator) : Bool :=
  if it.offset then it.entry.followingKeysUnreadable else it.entry.isUnreadable

def beginKey (it : Iterator) : Key :=
  extStringRef it.entry.key (if it.offset && it.entry.stack.length ≠ 0 then 1 else 0)

def endKey (it : Iterator) : Key :=
  if it.offset then it.nextEntry.key else extStringRef it.entry.key 1

def op (it : Iterator) : List RYWMutation := it.entry.stack

def keyAtBegin (it : Iterator) : Bool := !it.offset || it.entry.stack.length = 0

/-- `operator++`. -/
def next (it : Iterator) : Iterator :=
  if !it.offset && !equalsKeyAfter it.entry.key it.nextEntry.key then { it with offset := true }
  else
    let it := { it with beginIdx := it.beginIdx + 1 }
    { it with offset := it.entry.stack.length = 0 }

/-- `skip`: the finger goes to the first entry above `key` (to the last entry for
`allKeys.end`), and `entry()` is the one before it. -/
def skip (tree : List WriteMapEntry) (key : Key) : Iterator :=
  let endIdx := if key = allKeysEnd then tree.length - 1
    else (tree.takeWhile fun e => e.key ≤ key).length
  let it : Iterator := ⟨tree, endIdx - 1, false⟩
  { it with offset := it.entry.stack.length = 0 || it.entry.key != key }

/-- A `while (it.endKey() < end) ++it` loop stops at the segment reaching `end`; the finger
cannot move past the last entry. -/
def continues (it : Iterator) (keysEnd : Key) : Prop :=
  it.endKey < keysEnd ∧ it.beginIdx + 1 < it.tree.length

instance (it : Iterator) (keysEnd : Key) : Decidable (it.continues keysEnd) :=
  inferInstanceAs (Decidable (_ ∧ _))

/-- What is left of the tree from the iterator on; each `++` lowers it. -/
def remaining (it : Iterator) : ℕ :=
  2 * (it.tree.length - it.beginIdx) - (if it.offset then 1 else 0)

lemma remaining_next_lt {it : Iterator} (h : it.beginIdx + 1 < it.tree.length) :
    it.next.remaining < it.remaining := by
  unfold next remaining
  split_ifs with h1 <;> simp_all <;> omega

end Iterator

structure WriteMap where
  writes : List WriteMapEntry

namespace WriteMap

/-- `WriteMap(arena)`. -/
def empty : WriteMap :=
  ⟨[⟨allKeysBegin, [], false, false, false, false, false⟩,
    ⟨allKeysEnd, [], false, false, false, false, false⟩,
    ⟨afterAllKeys, [], false, false, false, false, false⟩]⟩

section Operations

variable (valueSizeLimit : ℕ)

def mutate (m : WriteMap) (key : Key) (operation : MutationType) (param : Value)
    (addConflict : Bool) : Except CoalesceError WriteMap :=
  let it := Iterator.skip m.writes key
  let isCleared := it.entry.followingKeysCleared
  let followingConflict := it.entry.followingKeysConflict
  let isConflict := addConflict || it.isConflictRange
  let followingUnreadable := it.entry.followingKeysUnreadable
  let isUnreadable := it.isUnreadable || operation == .setVersionstampedValue ||
    operation == .setVersionstampedKey
  let isDependent := operation != .setValue && operation != .setVersionstampedValue &&
    operation != .setVersionstampedKey
  if it.entry.key ≠ key then
    if it.isClearedRange && isDependent then do
      let op ← coalesceOver valueSizeLimit [⟨none, .setValue⟩] ⟨some param, operation⟩
      pure ⟨PTreeImpl.insert m.writes
        ⟨key, op, true, followingConflict, isConflict, followingUnreadable, isUnreadable⟩⟩
    else
      pure ⟨PTreeImpl.insert m.writes ⟨key, [⟨some param, operation⟩], isCleared,
        followingConflict, isConflict, followingUnreadable, isUnreadable⟩⟩
  else if !it.isUnreadable && operation == .setValue then
    pure ⟨PTreeImpl.insert (PTreeImpl.remove m.writes key) ⟨key, [⟨some param, operation⟩],
      isCleared, followingConflict, isConflict, followingUnreadable, isUnreadable⟩⟩
  else do
    let e := { it.entry with isConflict := isConflict, isUnreadable := isUnreadable }
    let stack ←
      if e.stack.length = 0 && it.isClearedRange && isDependent then
        coalesceOver valueSizeLimit (push e.stack ⟨none, .setValue⟩) ⟨some param, operation⟩
      else if !isUnreadable && e.stack.length > 0 then
        coalesceOver valueSizeLimit e.stack ⟨some param, operation⟩
      else pure (push e.stack ⟨some param, operation⟩)
    pure ⟨PTreeImpl.insert (PTreeImpl.remove m.writes e.key) { e with stack := stack }⟩

end Operations

/-- The common body of `clear` (with a conflict range) and
`addUnmodifiedAndUnreadableRange`: every key of the range becomes a range with the flags
given, its operations erased. An entry is inserted at `keys.begin` unless the range
before it already has those flags, and at `keys.end` unless one is there or the range after
it has them too, in which case the entry at `keys.end` goes. -/
def fillRange (m : WriteMap) (keys : KeyRangeRef) (cleared conflict unreadable : Bool) :
    WriteMap :=
  let isSameRange (it : Iterator) := if cleared then it.isClearedRange else it.isUnmodifiedRange
  let isOtherRange (it : Iterator) := if cleared then it.isUnmodifiedRange else it.isClearedRange
  let it := Iterator.skip m.writes keys.begin
  let insertBegin := !isSameRange it || it.isConflictRange != conflict ||
    it.isUnreadable != unreadable
  let it :=
    if it.endKey = keys.end then it.next
    else if it.endKey < keys.end then Iterator.skip m.writes keys.end
    else it
  let insertEnd := (isOtherRange it || it.isConflictRange != conflict ||
    it.isUnreadable != unreadable) && (!it.keyAtBegin || it.beginKey != keys.end)
  let endCoalesce := isSameRange it && it.beginKey == keys.end &&
    it.isConflictRange == conflict && it.isUnreadable == unreadable
  let endConflict := it.isConflictRange
  let endCleared := it.isClearedRange
  let endUnreadable := it.isUnreadable
  let writes := PTreeImpl.removeRange m.writes
    (extStringRef keys.begin (if !insertBegin then 1 else 0))
    (extStringRef keys.end (if endCoalesce then 1 else 0))
  let writes := if insertBegin then
      PTreeImpl.insert writes ⟨keys.begin, [], cleared, conflict, conflict, unreadable, unreadable⟩
    else writes
  let writes := if insertEnd then
      PTreeImpl.insert writes
        ⟨keys.end, [], endCleared, endConflict, endConflict, endUnreadable, endUnreadable⟩
    else writes
  ⟨writes⟩

def addUnmodifiedAndUnreadableRange (m : WriteMap) (keys : KeyRangeRef) : WriteMap :=
  fillRange m keys false false true

/-- The loop of `clearNoConflict`: the beginning of every segment whose conflict flag
differs from the segment before it. -/
def clearNoConflictLoop (keysEnd : Key) (it : Iterator) (lastConflicted : Bool)
    (conflictRanges : List Key) : Iterator × Bool × List Key :=
  if h : it.continues keysEnd then
    let it' := it.next
    if lastConflicted != it'.isConflictRange then
      clearNoConflictLoop keysEnd it' it'.isConflictRange (conflictRanges ++ [it'.beginKey])
    else clearNoConflictLoop keysEnd it' lastConflicted conflictRanges
  else (it, lastConflicted, conflictRanges)
termination_by it.remaining
decreasing_by all_goals exact Iterator.remaining_next_lt h.2

/-- The insertions of `clearNoConflict`: cleared ranges whose conflict flag alternates. -/
def insertConflictRanges (writes : List WriteMapEntry) : List Key → Bool → List WriteMapEntry
  | [], _ => writes
  | k :: ks, conflicted =>
    insertConflictRanges (PTreeImpl.insert writes ⟨k, [], true, conflicted, conflicted, false, false⟩)
      ks (!conflicted)

def clearNoConflict (m : WriteMap) (keys : KeyRangeRef) : WriteMap :=
  let it := Iterator.skip m.writes keys.begin
  let insertBegin := !it.isClearedRange || it.isUnreadable
  let lastConflicted := it.isConflictRange
  let conflicted := if insertBegin then lastConflicted else !lastConflicted
  let conflictRanges := if insertBegin then [keys.begin] else []
  let (it, lastConflicted, conflictRanges) :=
    clearNoConflictLoop keys.end it lastConflicted conflictRanges
  let it := if it.endKey = keys.end then it.next else it
  let insertEnd :=
    ((it.isUnmodifiedRange || it.isUnreadable) && (!it.keyAtBegin || it.beginKey != keys.end)) ||
    (it.entry.isConflict && !it.entry.followingKeysConflict && it.beginKey == keys.end &&
      !it.keyAtBegin)
  let endCleared := it.isClearedRange
  let endCoalesceClear := it.isClearedRange && it.beginKey == keys.end &&
    it.isConflictRange == lastConflicted && !it.isUnreadable
  let endConflict := it.isConflictRange
  let endUnreadable := it.isUnreadable
  let writes := PTreeImpl.removeRange m.writes
    (extStringRef keys.begin (if !insertBegin then 1 else 0))
    (extStringRef keys.end (if endCoalesceClear then 1 else 0))
  let writes := insertConflictRanges writes conflictRanges conflicted
  let writes := if insertEnd then
      PTreeImpl.insert writes
        ⟨keys.end, [], endCleared, endConflict, endConflict, endUnreadable, endUnreadable⟩
    else writes
  ⟨writes⟩

def clear (m : WriteMap) (keys : KeyRangeRef) (addConflict : Bool) : WriteMap :=
  if !addConflict then clearNoConflict m keys
  else fillRange m keys true true false

/-- The loop of `addConflictRange`: every entry met at its beginning that is not already
conflicting, for its key and the range after it, is replaced by a copy that is. -/
def addConflictRangeLoop (keysEnd : Key) (it : Iterator) (removals : List Key)
    (insertions : List WriteMapEntry) : Iterator × List Key × List WriteMapEntry :=
  if h : it.continues keysEnd then
    let it' := it.next
    if it'.keyAtBegin && (!it'.entry.followingKeysConflict || !it'.entry.isConflict) then
      let e := { it'.entry with followingKeysConflict := true, isConflict := true }
      addConflictRangeLoop keysEnd it' (removals ++ [e.key]) (insertions ++ [e])
    else addConflictRangeLoop keysEnd it' removals insertions
  else (it, removals, insertions)
termination_by it.remaining
decreasing_by all_goals exact Iterator.remaining_next_lt h.2

def addConflictRange (m : WriteMap) (keys : KeyRangeRef) : WriteMap :=
  let it := Iterator.skip m.writes keys.begin
  let beginConflicting := it.entry.followingKeysConflict && it.entry.isConflict
  let removals := if !beginConflicting && it.keyAtBegin && it.beginKey == keys.begin then
      [keys.begin] else []
  let insertions := if !beginConflicting then
      [⟨keys.begin, if it.isOperation then it.op else [], it.entry.followingKeysCleared, true, true,
        it.entry.followingKeysUnreadable, it.entry.isUnreadable⟩]
    else []
  let (it, removals, insertions) := addConflictRangeLoop keys.end it removals insertions
  let insertions :=
    if !it.entry.followingKeysConflict || !it.entry.isConflict then
      let isCleared := it.entry.followingKeysCleared
      let isUnreadable := it.entry.isUnreadable
      let followingUnreadable := it.entry.followingKeysUnreadable
      let it := it.next
      if !it.keyAtBegin || it.beginKey != keys.end then
        insertions ++ [⟨keys.end, [], isCleared, false, false, followingUnreadable, isUnreadable⟩]
      else insertions
    else insertions
  let writes := removals.foldl PTreeImpl.remove m.writes
  ⟨insertions.foldl PTreeImpl.insert writes⟩

end WriteMap

end FoundationDB.RYW
