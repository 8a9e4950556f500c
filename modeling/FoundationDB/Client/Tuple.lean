import FoundationDB.Client.CommitTransaction
import FoundationDB.Library.BigEndian

/-! The client tuple codec (`Tuple.cpp`). A tuple is its packed bytes and the offset of each
element in them. An integer is written big-endian without its leading padding bytes (zero
for positives, `\xff` for negatives, which are stored in one's complement), after a type
code `\x14` plus or minus the count of bytes that follow; a string escapes each zero byte as
`\x00\xff` and ends with `\x00`; a float or double is its big-endian bit pattern with the
sign bit flipped when clear and every bit flipped when set. The decoder finds each
element's offset from its type code, and the getters read the element back. -/

namespace FoundationDB

inductive TupleError
  | invalidTupleDataType
  | invalidTupleIndex
  | internalError
deriving DecidableEq, Repr

inductive ElementType
  | nullType | int | bytes | utf8 | float | double
deriving DecidableEq, Repr

structure Tuple where
  data : List (Fin 256)
  offsets : List ℕ
deriving DecidableEq

namespace Tuple

def empty : Tuple := ⟨[], []⟩

def pack (t : Tuple) : List (Fin 256) := t.data

/-- `append(Tuple)`. -/
def append (t tuple : Tuple) : Tuple :=
  ⟨t.data ++ tuple.data, t.offsets ++ tuple.offsets.map (· + t.data.length)⟩

/-- The bytes the loop of `append(StringRef)` writes for the string. -/
def escapeNulls : List (Fin 256) → List (Fin 256)
  | [] => []
  | c :: cs => (if c = 0 then [0, 255] else [c]) ++ escapeNulls cs

/-- `append(StringRef, utf8)`. -/
def appendString (t : Tuple) (str : List (Fin 256)) (utf8 : Bool) : Tuple :=
  ⟨t.data ++ ((if utf8 then 2 else 1) :: escapeNulls str ++ [0]), t.offsets ++ [t.data.length]⟩

/-- `append(int64_t)`. -/
def appendInt (t : Tuple) (value : BitVec 64) : Tuple :=
  let neg := decide (value.toInt < 0)
  let value := if neg then ~~~(-value) else value
  -- the loop writes the bytes of `bigEndian64(value)` from the first one that is not padding,
  -- after a code that counts them; all padding leaves the code `\x14` alone
  let bytes := (BigEndian.toBytes 8 value.toNat).dropWhile (· = if neg then 255 else 0)
  let code : Fin 256 :=
    if neg then Fin.ofNat 256 (20 - bytes.length) else Fin.ofNat 256 (20 + bytes.length)
  ⟨t.data ++ (code :: bytes), t.offsets ++ [t.data.length]⟩

def adjustFloatingPoint (bytes : List (Fin 256)) (encode : Bool) : List (Fin 256) :=
  match bytes with
  | [] => []
  | b :: bs =>
    if (encode && (b &&& 0x80) != 0) || (!encode && (b &&& 0x80) != 0x80) then
      bytes.map (· ^^^ 0xff)
    else (b ^^^ 0x80) :: bs

/-- The common body of `appendFloat` and `appendDouble`: the big-endian bytes of the bit
pattern, adjusted, after the type code. -/
def appendFloating (t : Tuple) (size : ℕ) (typeCode : Fin 256) (bits : ℕ) : Tuple :=
  ⟨t.data ++ (typeCode :: adjustFloatingPoint (BigEndian.toBytes size bits) true),
    t.offsets ++ [t.data.length]⟩

def appendFloat (t : Tuple) (value : BitVec 32) : Tuple := t.appendFloating 4 0x20 value.toNat

def appendDouble (t : Tuple) (value : BitVec 64) : Tuple := t.appendFloating 8 0x21 value.toNat

def appendNull (t : Tuple) : Tuple := ⟨t.data ++ [0], t.offsets ++ [t.data.length]⟩

/-- How far the loop of `findStringTerminator` moves over the bytes from where it starts: past
each `\x00\xff` and each other byte, up to a zero byte not followed by `\xff` or to the last
byte. -/
def scanTerminator : List (Fin 256) → ℕ
  | a :: b :: rest =>
    if a = 0 ∧ b ≠ 255 then 0
    else if a = 0 then 2 + scanTerminator rest
    else 1 + scanTerminator (b :: rest)
  | _ => 0

def findStringTerminator (data : List (Fin 256)) (offset : ℕ) : ℕ :=
  offset + scanTerminator (data.drop offset)

/-- The loop of `Tuple(StringRef)`: the offset of every element, and where the loop stopped. -/
def unpackOffsets (data : List (Fin 256)) (i : ℕ) (offsets : List ℕ) :
    Except TupleError (List ℕ × ℕ) :=
  if h : i < data.length then
    let offsets := offsets ++ [i]
    let c := data[i]
    if c = 1 ∨ c = 2 then unpackOffsets data (findStringTerminator data (i + 1) + 1) offsets
    else if 12 ≤ c.val ∧ c.val ≤ 28 then
      unpackOffsets data (i + ((c.val : ℤ) - 20).natAbs + 1) offsets
    else if c = 0x20 then unpackOffsets data (i + 4 + 1) offsets
    else if c = 0x21 then unpackOffsets data (i + 8 + 1) offsets
    else if c = 0 then unpackOffsets data (i + 1) offsets
    else .error .invalidTupleDataType
  else .ok (offsets, i)
termination_by data.length - i
decreasing_by
  all_goals
    try simp only [findStringTerminator]
    omega

/-- `Tuple::unpack`. -/
def unpack (str : List (Fin 256)) (excludeIncomplete : Bool) : Except TupleError Tuple := do
  let (offsets, i) ← unpackOffsets str 0 []
  let offsets := if excludeIncomplete && decide (str.length < i) then offsets.dropLast else offsets
  pure ⟨str, offsets⟩

-- an element's offset lies inside the data; `getD` only stands for the read
def getType (t : Tuple) (index : ℕ) : Except TupleError ElementType :=
  if h : index < t.offsets.length then
    let code := t.data.getD t.offsets[index] 0
    if code = 0 then .ok .nullType
    else if code = 1 then .ok .bytes
    else if code = 2 then .ok .utf8
    else if 12 ≤ code.val ∧ code.val ≤ 28 then .ok .int
    else if code = 0x20 then .ok .float
    else if code = 0x21 then .ok .double
    else .error .invalidTupleDataType
  else .error .invalidTupleIndex

/-- The loop of `getString` over the bytes of the element after its code: a zero byte is
kept, and the byte after it skipped, unless it is the last one. -/
def unescapeNulls : List (Fin 256) → List (Fin 256)
  | [] => []
  | c :: rest =>
    if c = 0 then
      match rest with
      | [] => []
      | _ :: rest => 0 :: unescapeNulls rest
    else c :: unescapeNulls rest

def getString (t : Tuple) (index : ℕ) : Except TupleError (List (Fin 256)) :=
  if h : index < t.offsets.length then
    let code := t.data.getD t.offsets[index] 0
    if code ≠ 1 ∧ code ≠ 2 then .error .invalidTupleDataType
    else
      let b := t.offsets[index] + 1
      let e := if h' : index + 1 < t.offsets.length then t.offsets[index + 1] else t.data.length
      .ok (unescapeNulls ((t.data.drop b).take (e - b)))
  else .error .invalidTupleIndex

def getInt (t : Tuple) (index : ℕ) (allowIncomplete : Bool) : Except TupleError (BitVec 64) :=
  if h : index < t.offsets.length then
    let offset := t.offsets[index]
    if h' : offset < t.data.length then
      let code := t.data[offset]
      if code.val < 12 ∨ 28 < code.val then .error .invalidTupleDataType
      else
        let len : ℤ := (code.val : ℤ) - 20
        let neg := decide (len < 0)
        let len := len.natAbs
        -- `std::min<int8_t>` reads the count of the bytes after the code as an `int8_t`
        let presentLen : ℤ := min (len : ℤ) (((t.data.length - offset - 1 : ℕ) : ℤ).bmod 256)
        if ¬(presentLen = len ∨ allowIncomplete) then .error .internalError
        -- a negative count makes `memcpy` read out of bounds
        else if presentLen < 0 then .error .internalError
        else
          let present := (t.data.drop (offset + 1)).take presentLen.toNat
          -- a truncated tail: its first byte is 1 when none of it is there, the rest zero
          let suffix :=
            if presentLen.toNat < len then
              if presentLen = 0 then 1 :: List.replicate (len - 1) 0
              else List.replicate (len - presentLen.toNat) 0
            else []
          let swap : BitVec 64 := BitVec.ofNat 64 (BigEndian.ofBytes
            (List.replicate (8 - len) (if neg then 255 else 0) ++ present ++ suffix))
          .ok (if neg then -(~~~swap) else swap)
    else .error .internalError
  else .error .invalidTupleIndex

/-- The common body of `getFloat` and `getDouble`: the bit pattern of the element. -/
def getFloating (t : Tuple) (index : ℕ) (size : ℕ) (typeCode : Fin 256) : Except TupleError ℕ :=
  if h : index < t.offsets.length then
    let offset := t.offsets[index]
    if h' : offset < t.data.length then
      if t.data[offset] ≠ typeCode then .error .invalidTupleDataType
      else if ¬offset + 1 + size ≤ t.data.length then .error .internalError
      else .ok (BigEndian.ofBytes (adjustFloatingPoint ((t.data.drop (offset + 1)).take size) false))
    else .error .internalError
  else .error .invalidTupleIndex

def getFloat (t : Tuple) (index : ℕ) : Except TupleError (BitVec 32) :=
  (t.getFloating index 4 0x20).map (BitVec.ofNat 32)

def getDouble (t : Tuple) (index : ℕ) : Except TupleError (BitVec 64) :=
  (t.getFloating index 8 0x21).map (BitVec.ofNat 64)

lemma append_zero_le_append_ff (l : List (Fin 256)) : l ++ [0] ≤ l ++ [255] :=
  (List.append_left_lt (List.cons_lt_cons_iff.mpr (.inl (by decide)))).le

def range (t : Tuple) (tuple : Tuple := empty) : KeyRangeRef where
  begin := t.data ++ tuple.pack ++ [0]
  «end» := t.data ++ tuple.pack ++ [255]
  begin_le_end := append_zero_le_append_ff _

end Tuple

/-- The values the `append` calls take. -/
inductive Element
  | bytes (s : List (Fin 256))
  | utf8 (s : List (Fin 256))
  | int (v : BitVec 64)
  | float (bits : BitVec 32)
  | double (bits : BitVec 64)
  | null
deriving DecidableEq

namespace Element

def type : Element → ElementType
  | bytes _ => .bytes
  | utf8 _ => .utf8
  | int _ => .int
  | float _ => .float
  | double _ => .double
  | null => .nullType

end Element

namespace Tuple

def appendElement (t : Tuple) : Element → Tuple
  | .bytes s => t.appendString s false
  | .utf8 s => t.appendString s true
  | .int v => t.appendInt v
  | .float v => t.appendFloat v
  | .double v => t.appendDouble v
  | .null => t.appendNull

/-- The tuple the `append` calls build from the empty one. -/
def build (es : List Element) : Tuple := es.foldl appendElement empty

/-- The getter for an element of the given type. -/
def getElement (t : Tuple) (index : ℕ) : ElementType → Except TupleError Element
  | .nullType => .ok .null
  | .bytes => (t.getString index).map .bytes
  | .utf8 => (t.getString index).map .utf8
  | .int => (t.getInt index false).map .int
  | .float => (t.getFloat index).map .float
  | .double => (t.getDouble index).map .double

end Tuple

end FoundationDB
