import Mathlib.Data.List.Sort
import FoundationDB.Flow.Serialize

/-! The values under `\xff/keyServers/` (`SystemData.cpp`): the source and destination
servers of a shard. The older format lists the servers' `UID`s; the newer one, under a later
protocol version, lists their three-byte `Tag`s. `decodeKeyServersValue(result, ...)` tells
the two apart by the protocol version. `decodeKeyServersValue(tag_uid, ...)` ignores the
version: it reads the two counts as if the value held tags, and takes the tag format when the
value has the size those counts give. -/

namespace FoundationDB.SystemData

open FoundationDB.Flow FoundationDB.Flow.BinaryReader FoundationDB.Flow.BinaryWriter

/-- `Tag`: a locality and an id, packed into three bytes. -/
structure Tag where
  locality : Int8
  id : UInt16
deriving DecidableEq

namespace Tag

def write (t : Tag) : List Byte :=
  LittleEndian.toBytes 1 t.locality.toUInt8.toNat ++ LittleEndian.toBytes 2 t.id.toNat

def read : ReadM Tag := do
  let locality ← readBytes 1
  let id ← readBytes 2
  return ⟨(UInt8.ofNat (LittleEndian.ofBytes locality)).toInt8,
    UInt16.ofNat (LittleEndian.ofBytes id)⟩

end Tag

/-- `ProtocolVersion::withKeyServerValue()`. -/
def withKeyServerValue : ℕ := 0x0FDB00B062010001

/-- `ProtocolVersion::withKeyServerValueV2()`. -/
def withKeyServerValueV2 : ℕ := 0x0FDB00B063010000

def hasKeyServerValueV2 (v : ℕ) : Bool := withKeyServerValueV2 ≤ v &&& versionFlagMask

/-- The value in the format of `UID`s:
`BinaryWriter(IncludeVersion(withKeyServerValue())) << src << dest`. -/
def keyServersValueOfUIDs (src dest : List UID) : List Byte :=
  writeUInt64 withKeyServerValue ++ writeVector UID.write src ++ writeVector UID.write dest

/-- `keyServersValue(srcTag, destTag)`. -/
def keyServersValue (srcTag destTag : List Tag) : List Byte :=
  writeUInt64 withKeyServerValueV2 ++ writeVector Tag.write srcTag ++ writeVector Tag.write destTag

/-- `std::sort` of `UID`s. -/
def sortUIDs (uids : List UID) : List UID := uids.insertionSort UID.le

def readUIDs : ReadM (List UID × List UID) := do
  let src ← readVector UID.read
  let dest ← readVector UID.read
  return (src, dest)

def readTags : ReadM (List Tag × List Tag) := do
  let srcTag ← readVector Tag.read
  let destTag ← readVector Tag.read
  return (srcTag, destTag)

/-- `tag_uid.find(t)`, where a missing tag fails `ASSERT(false)`. -/
def findTag (tagUid : Tag → Option UID) (t : Tag) : Except SerializeError UID :=
  match tagUid t with
  | some uid => .ok uid
  | none => .error .assertFailed

/-- The tag branch of `decodeKeyServersValue(tag_uid, ...)`, from the reader after the
version. -/
def decodeTags (tagUid : Tag → Option UID) (rd : BinaryReader) :
    Except SerializeError (List UID × List UID) := do
  let ((srcTag, destTag), _) ← readTags rd
  let src ← srcTag.mapM (findTag tagUid)
  let dest ← destTag.mapM (findTag tagUid)
  return (sortUIDs src, sortUIDs dest)

/-- The two counts as the tag format has them: `srcLen`, then, `srcLen` tags further,
`destLen`; the reader is rewound to where it started. -/
def peekTagCounts : ReadM (ℤ × ℤ) := do
  checkpoint
  let srcLen ← readInt
  -- `readBytes(srcLen * sizeof(Tag))`: a `size_t` product passed as an `int`
  let _ ← readBytes (Int.bmod (srcLen * 3) (2 ^ 32))
  let destLen ← readInt
  rewind
  return (srcLen, destLen)

/-- `decodeKeyServersValue(tag_uid, value, src, dest)`. -/
def decodeKeyServersValue (tagUid : Tag → Option UID) (value : List Byte) :
    Except SerializeError (List UID × List UID) :=
  if value = [] then .ok ([], [])
  else do
    let rd ← BinaryReader.ofValue value
    let ((srcLen, destLen), rd) ← peekTagCounts rd
    -- the size the value would have as tags, in `size_t`
    if (value.length : ℤ) % 2 ^ 64 ≠ (16 + srcLen * 3 + destLen * 3) % 2 ^ 64 then
      let (uids, rd) ← readUIDs rd
      let _ ← assertEnd rd
      return uids
    else decodeTags tagUid rd

/-- `decodeKeyServersValue(result, value, src, dest, missingIsError)`, with `result` the
server tags as the pairs they decode to. -/
def decodeKeyServersValueOfResult (result : List (UID × Tag)) (value : List Byte)
    (missingIsError : Bool) : Except SerializeError (List UID × List UID) :=
  if value = [] then .ok ([], [])
  else do
    let rd ← BinaryReader.ofValue value
    if !hasKeyServerValueV2 rd.protocolVersion then
      let (uids, _) ← readUIDs rd
      return uids
    else
      let ((srcTag, destTag), _) ← readTags rd
      let src := sortUIDs (result.filterMap fun p => if p.2 ∈ srcTag then some p.1 else none)
      let dest := sortUIDs (result.filterMap fun p => if p.2 ∈ destTag then some p.1 else none)
      if missingIsError && (src.length != srcTag.length || dest.length != destTag.length) then
        throw .assertFailed
      return (src, dest)

section UIDFormat

variable (src dest : List UID)

@[simp] lemma length_uid_write (u : UID) : (UID.write u).length = 16 := by
  simp [UID.write, writeUInt64]

lemma length_writeVector_uid (xs : List UID) :
    (writeVector UID.write xs).length = 4 + 16 * xs.length := by
  simp [writeVector, writeInt, List.length_flatten, Function.comp_def, mul_comm]

lemma length_keyServersValueOfUIDs :
    (keyServersValueOfUIDs src dest).length = 16 + 16 * src.length + 16 * dest.length := by
  simp only [keyServersValueOfUIDs, List.length_append, length_writeVector_uid, writeUInt64,
    LittleEndian.length_toBytes]
  omega

lemma keyServersValueOfUIDs_eq :
    keyServersValueOfUIDs src dest =
      writeUInt64 withKeyServerValue ++ (writeVector UID.write src ++ writeVector UID.write dest) :=
  List.append_assoc _ _ _

/-- The count of `destTag` that the tag-sized guess reads in a value of `UID`s: four bytes
that lie `3 |src|` bytes into the `UID`s of `src`, or are the count of `dest` when `src` is
empty. -/
def misreadDestLen : ℤ :=
  LittleEndian.toInt (((keyServersValueOfUIDs src dest).drop (12 + 3 * src.length)).take 4)

/-- The value of `UID`s has the size that its counts, read as the tag format reads them,
give. -/
def MisreadAsTags : Prop :=
  ((keyServersValueOfUIDs src dest).length : ℤ) % 2 ^ 64 =
    (16 + src.length * 3 + misreadDestLen src dest * 3) % 2 ^ 64

instance : Decidable (MisreadAsTags src dest) := inferInstanceAs (Decidable (_ = _))

variable {src dest}

/-- The reader after the version of a value of `UID`s. -/
def afterVersion (value : List Byte) : BinaryReader := ⟨value, 8, none, withKeyServerValue⟩

lemma ofValue_keyServersValueOfUIDs :
    BinaryReader.ofValue (keyServersValueOfUIDs src dest) =
      .ok (afterVersion (keyServersValueOfUIDs src dest)) := by
  rw [keyServersValueOfUIDs_eq]
  exact ofValue_eq (by decide) (by decide) (by decide) (by decide)

lemma drop_keyServersValueOfUIDs :
    (keyServersValueOfUIDs src dest).drop 8 =
      writeVector UID.write src ++ writeVector UID.write dest := by
  rw [keyServersValueOfUIDs_eq, List.drop_append_of_le_length (by simp [writeUInt64])]
  simp [writeUInt64]

lemma peekTagCounts_eq {value : List Byte} {pv srcLen : ℕ}
    (hcount : (value.drop 8).take 4 = writeInt srcLen) (hsrc : 3 * srcLen < 2 ^ 31)
    (hlen : 16 + 3 * srcLen ≤ value.length) :
    peekTagCounts ⟨value, 8, none, pv⟩ =
      .ok ((srcLen, LittleEndian.toInt ((value.drop (12 + 3 * srcLen)).take 4)),
        ⟨value, 8, none, pv⟩) := by
  have hsrcLen : LittleEndian.toInt ((value.drop 8).take 4) = srcLen := by
    rw [hcount]
    exact LittleEndian.toInt_ofInt (by norm_num; omega) (by norm_num; omega)
  have hskip : Int.bmod ((srcLen : ℤ) * 3) (2 ^ 32) = ((3 * srcLen : ℕ) : ℤ) := by
    rw [Int.bmod_eq_of_le (by omega) (by omega)]
    push_cast
    ring
  have hfirst := readInt_of_le (r := ⟨value, 8, some 8, pv⟩) (by simp only; omega)
  have hbytes := readBytes_of_le (r := ⟨value, 12, some 8, pv⟩) (3 * srcLen) (by simp only; omega)
  have hsecond := readInt_of_le (r := ⟨value, 12 + 3 * srcLen, some 8, pv⟩) (by simp only; omega)
  simp only [peekTagCounts, bind_apply, checkpoint, hfirst, hsrcLen, hskip, hbytes, hsecond,
    rewind, pure_apply]

lemma peekTagCounts_ofUIDs (hsrc : 3 * src.length < 2 ^ 31) :
    peekTagCounts (afterVersion (keyServersValueOfUIDs src dest)) =
      .ok ((src.length, misreadDestLen src dest), afterVersion (keyServersValueOfUIDs src dest)) := by
  have hlen := length_keyServersValueOfUIDs src dest
  have hcount : ((keyServersValueOfUIDs src dest).drop 8).take 4 = writeInt src.length := by
    rw [drop_keyServersValueOfUIDs, writeVector, List.append_assoc,
      List.take_left' (by simp [writeInt])]
  exact peekTagCounts_eq hcount hsrc (by omega)

lemma readUIDs_ofUIDs (hsrc : src.length < 2 ^ 31) (hdest : dest.length < 2 ^ 31) :
    readUIDs (afterVersion (keyServersValueOfUIDs src dest)) =
      .ok ((src, dest), { afterVersion (keyServersValueOfUIDs src dest) with
        pos := (keyServersValueOfUIDs src dest).length }) := by
  have hlen := length_keyServersValueOfUIDs src dest
  have huids := readsBack_pair (readsBack_readVector readsBack_uid)
    (readsBack_readVector readsBack_uid) (src, dest)
    ⟨⟨hsrc, fun _ _ => trivial⟩, ⟨hdest, fun _ _ => trivial⟩⟩
    (afterVersion (keyServersValueOfUIDs src dest)) []
    (by simp only [afterVersion]; omega) (by simpa [afterVersion] using drop_keyServersValueOfUIDs)
  have hend : 8 + (writeVector UID.write src ++ writeVector UID.write dest).length =
      (keyServersValueOfUIDs src dest).length := by
    simp only [List.length_append, length_writeVector_uid]
    omega
  simp only [afterVersion] at huids ⊢
  rw [readUIDs, huids, hend]

/-- The tag-sized guess on a value of `UID`s: where the size does not match it reads the
`UID`s back, and where it does it reads the value as tags. -/
theorem decodeKeyServersValue_ofUIDs (tagUid : Tag → Option UID) (hsrc : 3 * src.length < 2 ^ 31)
    (hdest : dest.length < 2 ^ 31) :
    decodeKeyServersValue tagUid (keyServersValueOfUIDs src dest) =
      if MisreadAsTags src dest then
        decodeTags tagUid (afterVersion (keyServersValueOfUIDs src dest))
      else .ok (src, dest) := by
  have hlen := length_keyServersValueOfUIDs src dest
  have hne : keyServersValueOfUIDs src dest ≠ [] := List.ne_nil_of_length_pos (by omega)
  simp only [decodeKeyServersValue, hne, if_false, ofValue_keyServersValueOfUIDs, ok_bind,
    peekTagCounts_ofUIDs hsrc, MisreadAsTags, ne_eq, ite_not]
  by_cases hmis : ((keyServersValueOfUIDs src dest).length : ℤ) % 2 ^ 64 =
      (16 + src.length * 3 + misreadDestLen src dest * 3) % 2 ^ 64
  · simp only [hmis, if_true]
  · have hread := @readUIDs_ofUIDs src dest (by omega) hdest
    simp only [hmis, if_false, hread, ok_bind]
    simp only [assertEnd, afterVersion, ↓reduceIte, ok_bind, except_pure]

/-- One `UID` whose fourth to seventh bytes hold 15, then two more: `13 + 2 * 16 = 3 * 15`, so
the 64 bytes have the size of one tag and fifteen, and the decoder looks the tags up. -/
theorem decodeKeyServersValue_ofUIDs_misreads :
    decodeKeyServersValue (fun _ => none)
      (keyServersValueOfUIDs [⟨251658240, 0⟩] [⟨1, 0⟩, ⟨2, 0⟩]) = .error .assertFailed := by
  rw [decodeKeyServersValue_ofUIDs _ (by decide) (by decide)]
  decide +kernel

/-- The overload that reads the protocol version reads a value of `UID`s back. -/
theorem decodeKeyServersValueOfResult_ofUIDs (result : List (UID × Tag)) (missingIsError : Bool)
    (hsrc : src.length < 2 ^ 31) (hdest : dest.length < 2 ^ 31) :
    decodeKeyServersValueOfResult result (keyServersValueOfUIDs src dest) missingIsError =
      .ok (src, dest) := by
  have hlen := length_keyServersValueOfUIDs src dest
  have hne : keyServersValueOfUIDs src dest ≠ [] := List.ne_nil_of_length_pos (by omega)
  have hold : hasKeyServerValueV2 withKeyServerValue = false := by decide
  have hread := @readUIDs_ofUIDs src dest hsrc hdest
  simp only [decodeKeyServersValueOfResult, hne, if_false, ofValue_keyServersValueOfUIDs, ok_bind]
  simp only [afterVersion] at hread ⊢
  simp only [hold, Bool.not_false, if_true, hread, ok_bind, except_pure]

/-- The value that `decodeKeyServersValue(tag_uid, ...)` misreads is read right here. -/
theorem decodeKeyServersValueOfResult_ofUIDs_misread_value :
    decodeKeyServersValueOfResult [] (keyServersValueOfUIDs [⟨251658240, 0⟩] [⟨1, 0⟩, ⟨2, 0⟩])
      true = .ok ([⟨251658240, 0⟩], [⟨1, 0⟩, ⟨2, 0⟩]) :=
  decodeKeyServersValueOfResult_ofUIDs [] true (by decide) (by decide)

end UIDFormat

section TagFormat

@[simp] lemma length_tag_write (t : Tag) : t.write.length = 3 := by
  simp [Tag.write]

lemma readsBack_tag : ReadsBack Tag.read Tag.write fun _ => True := by
  intro t _ r rest hpos h
  have h' : r.data.drop r.pos = LittleEndian.toBytes 1 t.locality.toUInt8.toNat ++
      (LittleEndian.toBytes 2 t.id.toNat ++ rest) := by
    simpa [Tag.write] using h
  have h₁ := readBytes_of_drop hpos h'
  have h₂ := readBytes_of_drop
    (r := ⟨r.data, r.pos + (LittleEndian.toBytes 1 t.locality.toUInt8.toNat).length, r.check,
      r.protocolVersion⟩)
    (pos_add_le_of_drop hpos h') (drop_add_of_drop h')
  simp only [LittleEndian.length_toBytes, Nat.cast_ofNat, Nat.cast_one] at h₁ h₂
  have hlocality : LittleEndian.ofBytes (LittleEndian.toBytes 1 t.locality.toUInt8.toNat) =
      t.locality.toUInt8.toNat := by
    rw [LittleEndian.ofBytes_toBytes, Nat.mod_eq_of_lt (by simpa using UInt8.toNat_lt _)]
  have hid : LittleEndian.ofBytes (LittleEndian.toBytes 2 t.id.toNat) = t.id.toNat := by
    rw [LittleEndian.ofBytes_toBytes, Nat.mod_eq_of_lt (by simpa using UInt16.toNat_lt _)]
  simp only [Tag.read, bind_apply, h₁, h₂, pure_apply, hlocality, hid, UInt8.ofNat_toNat,
    UInt16.ofNat_toNat, length_tag_write, Nat.add_assoc]
  simp

variable {srcTag destTag : List Tag}

lemma length_writeVector_tag (xs : List Tag) :
    (writeVector Tag.write xs).length = 4 + 3 * xs.length := by
  simp [writeVector, writeInt, List.length_flatten, Function.comp_def, mul_comm]

lemma length_keyServersValue :
    (keyServersValue srcTag destTag).length = 16 + 3 * srcTag.length + 3 * destTag.length := by
  simp only [keyServersValue, List.length_append, length_writeVector_tag, writeUInt64,
    LittleEndian.length_toBytes]
  omega

lemma drop_keyServersValue :
    (keyServersValue srcTag destTag).drop 8 =
      writeVector Tag.write srcTag ++ writeVector Tag.write destTag := by
  rw [keyServersValue, List.append_assoc, List.drop_left' (by simp [writeUInt64])]

/-- The reader after the version of a value of tags. -/
def afterVersionV2 (value : List Byte) : BinaryReader := ⟨value, 8, none, withKeyServerValueV2⟩

lemma ofValue_keyServersValue :
    BinaryReader.ofValue (keyServersValue srcTag destTag) =
      .ok (afterVersionV2 (keyServersValue srcTag destTag)) := by
  rw [keyServersValue, List.append_assoc]
  exact ofValue_eq (by decide) (by decide) (by decide) (by decide)

lemma peekTagCounts_keyServersValue (hsrc : 3 * srcTag.length < 2 ^ 31)
    (hdest : destTag.length < 2 ^ 31) :
    peekTagCounts (afterVersionV2 (keyServersValue srcTag destTag)) =
      .ok ((srcTag.length, destTag.length), afterVersionV2 (keyServersValue srcTag destTag)) := by
  have hlen := @length_keyServersValue srcTag destTag
  have hcount : ((keyServersValue srcTag destTag).drop 8).take 4 = writeInt srcTag.length := by
    rw [drop_keyServersValue, writeVector, List.append_assoc,
      List.take_left' (by simp [writeInt])]
  have hsecond : ((keyServersValue srcTag destTag).drop (12 + 3 * srcTag.length)).take 4 =
      writeInt destTag.length := by
    have hsplit : keyServersValue srcTag destTag =
        (writeUInt64 withKeyServerValueV2 ++ writeVector Tag.write srcTag) ++
        (writeInt destTag.length ++ (destTag.map Tag.write).flatten) := by
      simp [keyServersValue, writeVector]
    have hfront : (writeUInt64 withKeyServerValueV2 ++ writeVector Tag.write srcTag).length =
        12 + 3 * srcTag.length := by
      simp only [List.length_append, length_writeVector_tag, writeUInt64,
        LittleEndian.length_toBytes]
      omega
    have hint : (writeInt destTag.length).length = 4 := LittleEndian.length_ofInt _ _
    rw [hsplit, List.drop_left' hfront, List.take_left' hint]
  have hdestLen : LittleEndian.toInt (writeInt destTag.length) = destTag.length :=
    LittleEndian.toInt_ofInt (by norm_num; omega) (by norm_num; omega)
  rw [afterVersionV2, peekTagCounts_eq hcount hsrc (by omega), hsecond, hdestLen]

lemma readTags_keyServersValue (hsrc : srcTag.length < 2 ^ 31) (hdest : destTag.length < 2 ^ 31) :
    readTags (afterVersionV2 (keyServersValue srcTag destTag)) =
      .ok ((srcTag, destTag), { afterVersionV2 (keyServersValue srcTag destTag) with
        pos := (keyServersValue srcTag destTag).length }) := by
  have hlen := @length_keyServersValue srcTag destTag
  have htags := readsBack_pair (readsBack_readVector readsBack_tag)
    (readsBack_readVector readsBack_tag) (srcTag, destTag)
    ⟨⟨hsrc, fun _ _ => trivial⟩, ⟨hdest, fun _ _ => trivial⟩⟩
    (afterVersionV2 (keyServersValue srcTag destTag)) []
    (by simp only [afterVersionV2]; omega) (by simpa [afterVersionV2] using drop_keyServersValue)
  have hend : 8 + (writeVector Tag.write srcTag ++ writeVector Tag.write destTag).length =
      (keyServersValue srcTag destTag).length := by
    simp only [List.length_append, length_writeVector_tag]
    omega
  simp only [afterVersionV2] at htags ⊢
  rw [readTags, htags, hend]

lemma mapM_findTag {tagUid : Tag → Option UID} (tagOf : UID → Tag) {uids : List UID}
    (h : ∀ u ∈ uids, tagUid (tagOf u) = some u) :
    (uids.map tagOf).mapM (findTag tagUid) = .ok uids := by
  induction uids with
  | nil => rfl
  | cons u uids ih =>
    have hrest := ih fun v hv => h v (List.mem_cons_of_mem _ hv)
    simp only [List.map_cons, List.mapM_cons, findTag, h u (List.mem_cons_self ..), hrest, ok_bind,
      except_pure]

/-- A value of tags, for servers that `tag_uid` maps their tags back to, decodes to the servers,
sorted. -/
theorem decodeKeyServersValue_keyServersValue (tagUid : Tag → Option UID) (tagOf : UID → Tag)
    (src dest : List UID) (hmap : ∀ u ∈ src ++ dest, tagUid (tagOf u) = some u)
    (hsrc : 3 * src.length < 2 ^ 31) (hdest : dest.length < 2 ^ 31) :
    decodeKeyServersValue tagUid (keyServersValue (src.map tagOf) (dest.map tagOf)) =
      .ok (sortUIDs src, sortUIDs dest) := by
  have hlen := @length_keyServersValue (src.map tagOf) (dest.map tagOf)
  have hne : keyServersValue (src.map tagOf) (dest.map tagOf) ≠ [] :=
    List.ne_nil_of_length_pos (by omega)
  have hpeek := @peekTagCounts_keyServersValue (src.map tagOf) (dest.map tagOf)
    (by simpa using hsrc) (by simpa using hdest)
  have hread := @readTags_keyServersValue (src.map tagOf) (dest.map tagOf)
    (by simp; omega) (by simpa using hdest)
  have hsize : ((keyServersValue (src.map tagOf) (dest.map tagOf)).length : ℤ) % 2 ^ 64 =
      (16 + ((src.map tagOf).length : ℤ) * 3 + ((dest.map tagOf).length : ℤ) * 3) % 2 ^ 64 := by
    rw [hlen]
    push_cast
    ring_nf
  simp only [decodeKeyServersValue, hne, if_false, ofValue_keyServersValue, ok_bind, hpeek, hsize,
    ne_eq, not_true_eq_false, decodeTags, hread]
  simp only [ok_bind, mapM_findTag tagOf fun u hu => hmap u (List.mem_append_left _ hu),
    mapM_findTag tagOf fun u hu => hmap u (List.mem_append_right _ hu), except_pure]

theorem decodeKeyServersValue_keyServersValue_sample :
    decodeKeyServersValue (fun t => some ⟨t.id.toUInt64, 0⟩) (keyServersValue [⟨0, 1⟩] [⟨0, 2⟩]) =
      .ok ([⟨1, 0⟩], [⟨2, 0⟩]) :=
  decodeKeyServersValue_keyServersValue (fun t => some ⟨t.id.toUInt64, 0⟩)
    (fun u => ⟨0, u.first.toUInt16⟩) [⟨1, 0⟩] [⟨2, 0⟩] (by decide) (by decide) (by decide)

end TagFormat

end FoundationDB.SystemData
