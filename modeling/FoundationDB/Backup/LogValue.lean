import FoundationDB.Backup.Continuity
import FoundationDB.Backup.LogRanges
import FoundationDB.Flow.Serialize
import FoundationDB.Rpc.RangeMapUpdate
import FoundationDB.RYW.WriteMap

/-! The values of the backup mutation log. `addBackupMutations` (`CommitProxyServer.actor.cpp`)
writes a commit's mutations for one destination as `MutationListRef` holds them, after the
protocol version and the list's `totalSize()`, and logs the value in parts of
`MUTATION_BLOCK_SIZE` bytes, each under the key of its part. `decodeBackupLogValue`
(`BackupAgentBase.actor.cpp`) reads the parts joined back: a header of three numbers and the
two parameters for each mutation. It keeps a mutation whose keys the `key_version` map has at
a version below the log's, and moves its keys from under `removePrefix` to under `addPrefix`.
A read past the end of the value is undefined in the source and an error here. -/

namespace FoundationDB

namespace MutationType

/-- The number of a type in `MutationRef::Type`. -/
def code : MutationType → ℕ
  | setValue => 0 | clearRange => 1 | addValue => 2 | debugKeyRange => 3 | debugKey => 4
  | noOp => 5 | and => 6 | or => 7 | xor => 8 | appendIfFits => 9 | availableForReuse => 10
  | reservedForLogProtocolMessage => 11 | max => 12 | min => 13 | setVersionstampedKey => 14
  | setVersionstampedValue => 15 | byteMin => 16 | byteMax => 17 | minV2 => 18 | andV2 => 19
  | compareAndClear => 20 | reservedForSpanContextMessage => 21 | maxAtomicOp => 22

/-- The type a number below `MAX_ATOMIC_OP` names, as `logValue.type = type` stores it. -/
def ofCode (n : ℕ) : MutationType :=
  [setValue, clearRange, addValue, debugKeyRange, debugKey, noOp, and, or, xor, appendIfFits,
    availableForReuse, reservedForLogProtocolMessage, max, min, setVersionstampedKey,
    setVersionstampedValue, byteMin, byteMax, minV2, andV2, compareAndClear,
    reservedForSpanContextMessage].getD n maxAtomicOp

@[simp] lemma ofCode_code (t : MutationType) : ofCode t.code = t := by
  cases t <;> rfl

lemma code_le (t : MutationType) : t.code ≤ 22 := by
  cases t <;> decide

end MutationType

/-- `isValidMutationType`. -/
def isValidMutationType (type : ℕ) : Bool := type < MutationType.maxAtomicOp.code

/-- `MutationRef::expectedSize()`. -/
def MutationRef.expectedSize (m : MutationRef) : ℕ := m.param1.length + m.param2.length

/-- `StringRef::removePrefix(s)`: the bytes after as many as `s` has, which the
`UNSTOPPABLE_ASSERT` requires the string to have; the bytes themselves are not compared. -/
def StringRef.removePrefix (str s : Key) : Except Backup.BackupError Key :=
  if s.length ≤ str.length then .ok (str.drop s.length) else .error .assertFailed

namespace Backup

open Flow.BinaryWriter (writeInt writeUInt64)
open RYW (allKeysEnd)

/-- `BackupAgentBase::logHeaderSize`, the bytes of a mutation's header. -/
def logHeaderSize : ℕ := 12

/-- `ProtocolVersion::withBackupMutations()`. -/
def withBackupMutations : ℕ := 0x0FDB00B062010001

/-- The newest protocol version `decodeBackupLogValue` refuses. -/
def lastIncompatibleProtocolVersion : ℕ := 0x0FDB00A200090001

/-- `normalKeys.end`, `\xff`. -/
def normalKeysEnd : Key := [255]

/-- `strinc`: the string without its trailing `\xff` bytes, its last byte then one higher; a
string of `\xff` bytes alone fails the `ASSERT`. -/
def strinc (str : Key) : Except BackupError Key :=
  match str.reverse.dropWhile (· = 255) with
  | [] => .error .assertFailed
  | b :: rest => .ok (rest.reverse ++ [b + 1])

section Writer

/-- What `MutationListRef::push_back_deep` writes of a mutation: the `Header`'s three `int`s,
the type and the two lengths, then the two parameters. -/
def serializeMutation (m : MutationRef) : List Flow.Byte :=
  writeInt m.type.code ++ writeInt m.param1.length ++ writeInt m.param2.length ++ m.param1 ++
    m.param2

/-- `totalSize()`: `push_back_deep` adds each mutation's header and parameters. -/
def totalSize (mutations : List MutationRef) : ℤ :=
  (mutations.map fun m => ((logHeaderSize + m.param1.length + m.param2.length : ℕ) : ℤ)).sum

/-- The value `addBackupMutations` builds for a mutation list: `IncludeVersion` writes the
protocol version, then come `totalSize()` and the list's blobs one after the other. -/
def backupLogValue (mutations : List MutationRef) : List Flow.Byte :=
  writeUInt64 withBackupMutations ++ writeInt (totalSize mutations) ++
    mutations.flatMap serializeMutation

variable (hashlittle : List (Fin 256) → Fin 256) (knobs : ClientKnobs)

/-- The parts of a value: the loop runs while `part * MUTATION_BLOCK_SIZE < val.size()`. -/
def partCount (val : List Flow.Byte) : ℕ :=
  (val.length + knobs.MUTATION_BLOCK_SIZE - 1) / knobs.MUTATION_BLOCK_SIZE

/-- `val.substr(part * MUTATION_BLOCK_SIZE, std::min(val.size() - part * MUTATION_BLOCK_SIZE,
MUTATION_BLOCK_SIZE))`. -/
def valuePart (val : List Flow.Byte) (part : ℕ) : List Flow.Byte :=
  (val.drop (part * knobs.MUTATION_BLOCK_SIZE)).take knobs.MUTATION_BLOCK_SIZE

/-- `addBackupMutations`: for each destination of `logRangeMutations` in key order, the
`SetValue` mutations that log the parts of its value, each under its part's key. -/
def addBackupMutations (logRangeMutations : List (Key × List MutationRef)) (commitVersion : ℤ) :
    List MutationRef :=
  logRangeMutations.flatMap fun (destination, mutations) =>
    let val := backupLogValue mutations
    (List.range (partCount knobs val)).map fun part =>
      ⟨.setValue, backupLogKey hashlittle knobs destination commitVersion part,
        valuePart knobs val part⟩

end Writer

section Reader

/-- The unsigned number of `width` bytes that `memcpy` copies from `value` at `offset`. -/
def copyUInt (value : List Flow.Byte) (offset width : ℕ) : Except BackupError ℕ :=
  if offset + width ≤ value.length then .ok (LittleEndian.ofBytes ((value.drop offset).take width))
  else .error .readPastEnd

/-- A kept key moved from under `removePrefix` to under `addPrefix`, each only for a
non-empty prefix, as `removePrefix` and `withPrefix` are called. -/
def movePrefix (removePrefix addPrefix key : Key) : Except BackupError Key := do
  let key ← if removePrefix.length ≠ 0 then StringRef.removePrefix key removePrefix else pure key
  pure (if addPrefix.length ≠ 0 then addPrefix ++ key else key)

variable (version : ℤ) (keyVersion : RangeMap Key ℤ) (removePrefix addPrefix : Key)

/-- What a logged `ClearRange` of `range` becomes: for each range of `key_version` it meets
that is not yet at `version`, the clear of their intersection; one that reaches the end of
the keys under `removePrefix` becomes the clear up to the end of those under `addPrefix`. -/
def decodeClear (range : KeyRangeRef) : Except BackupError (List MutationRef) :=
  (keyVersion.intersectingRanges ⟨range.begin, range.end⟩).filterMapM fun (r, value) => do
    if version > value ∧ value ≠ invalidVersion then
      let minKey := min r.end range.end
      let limit ← if removePrefix = [] then pure normalKeysEnd else strinc removePrefix
      if minKey = limit then
        let param1 ← movePrefix removePrefix addPrefix (max r.begin range.begin)
        let param2 ← if addPrefix = [] then pure normalKeysEnd else strinc addPrefix
        pure (some ⟨.clearRange, param1, param2⟩)
      else
        let param1 ← movePrefix removePrefix addPrefix (max r.begin range.begin)
        let param2 ← movePrefix removePrefix addPrefix minKey
        pure (some ⟨.clearRange, param1, param2⟩)
    else pure none

/-- What a logged mutation becomes: a clear is cut to the ranges of `key_version` it meets,
any other mutation is kept when the range holding its key is not yet at `version`. -/
def decodeLogMutation (m : MutationRef) : Except BackupError (List MutationRef) :=
  if m.type = .clearRange then do
    let range ← keyRange m.param1 m.param2
    decodeClear version keyVersion removePrefix addPrefix range
  else
    let ver := keyVersion.get m.param1
    if version > ver ∧ ver ≠ invalidVersion then do
      let param1 ← movePrefix removePrefix addPrefix m.param1
      pure [{ m with param1 := param1 }]
    else pure []

/-- One mutation read at `offset`: the header's type and lengths, the `ASSERT` that the
parameters fit and the type is valid, then the parameters. -/
def readMutation (value : List Flow.Byte) (offset : ℕ) :
    Except BackupError (MutationRef × ℕ × ℕ) := do
  let type ← copyUInt value offset 4
  let len1 ← copyUInt value (offset + 4) 4
  let len2 ← copyUInt value (offset + 8) 4
  let offset := offset + logHeaderSize
  if offset + len1 + len2 ≤ value.length ∧ isValidMutationType type then
    pure (⟨MutationType.ofCode type, (value.drop offset).take len1,
      (value.drop (offset + len1)).take len2⟩, len1, len2)
  else .error .assertFailed

variable (value : List Flow.Byte) (totalBytes : ℕ)

/-- The loop of `decodeBackupLogValue`: while fewer than `totalBytes` bytes are consumed, read
the mutation at `offset`, append what it logs to `result` and its sizes to `mutationSize`.
`consumed` is a `uint32_t`. Each round reads a 12-byte header inside `value`, so the rounds
`decodeBackupLogValue` allows, one per byte, never run out. -/
def decodeLoop : ℕ → (offset consumed : ℕ) → List MutationRef → ℤ →
    Except BackupError (ℕ × ℕ × List MutationRef × ℤ)
  | 0, offset, consumed, result, mutationSize =>
    if consumed < totalBytes then .error .readPastEnd else .ok (offset, consumed, result, mutationSize)
  | fuel + 1, offset, consumed, result, mutationSize =>
    if consumed < totalBytes then do
      let (m, len1, len2) ← readMutation value offset
      let logged ← decodeLogMutation version keyVersion removePrefix addPrefix m
      decodeLoop fuel (offset + logHeaderSize + len1 + len2)
        ((consumed + logHeaderSize + len1 + len2) % 2 ^ 32) (result ++ logged)
        (mutationSize + ((logged.map MutationRef.expectedSize).sum : ℕ))
    else .ok (offset, consumed, result, mutationSize)

end Reader

/-- `decodeBackupLogValue`: the mutations that `value`, logged at `version`, holds for keys
`key_version` has below it, with the sum of their `expectedSize()`; the source appends them to
`result` and adds the sum to `mutationSize`. -/
def decodeBackupLogValue (value : List Flow.Byte) (addPrefix removePrefix : Key) (version : ℤ)
    (keyVersion : RangeMap Key ℤ) : Except BackupError (List MutationRef × ℤ) := do
  let protocolVersion ← copyUInt value 0 8
  if protocolVersion ≤ lastIncompatibleProtocolVersion then throw .incompatibleProtocolVersion
  let totalBytes ← copyUInt value 8 4
  if totalBytes + 12 > value.length then throw .restoreMissingData
  let (offset, consumed, result, mutationSize) ←
    decodeLoop version keyVersion removePrefix addPrefix value totalBytes value.length 12 0 [] 0
  if consumed ≠ totalBytes then throw .assertFailed
  if value.length ≠ offset then throw .restoreCorruptedData
  pure (result, mutationSize)

section Parts

variable (knobs : ClientKnobs)

lemma flatten_valueParts (val : List Flow.Byte) (n : ℕ) :
    ((List.range n).map (valuePart knobs val)).flatten = val.take (n * knobs.MUTATION_BLOCK_SIZE) := by
  induction n with
  | zero => simp
  | succ n ih =>
    rw [List.range_succ, List.map_append, List.flatten_append, ih, Nat.succ_mul]
    simp [valuePart, List.take_add]

lemma length_le_partCount_mul (val : List Flow.Byte) :
    val.length ≤ partCount knobs val * knobs.MUTATION_BLOCK_SIZE := by
  have h := Nat.lt_div_mul_add (a := val.length + knobs.MUTATION_BLOCK_SIZE - 1)
    knobs.MUTATION_BLOCK_SIZE_pos
  rw [partCount]
  omega

lemma partCount_le_length (val : List Flow.Byte) : partCount knobs val ≤ val.length := by
  obtain ⟨b, hb⟩ : ∃ b, knobs.MUTATION_BLOCK_SIZE = b + 1 :=
    ⟨_, (Nat.succ_pred_eq_of_pos knobs.MUTATION_BLOCK_SIZE_pos).symm⟩
  rw [partCount, hb]
  rcases val.length with _ | l
  · rw [Nat.zero_add, Nat.div_eq_of_lt (by omega)]
  · refine Nat.div_le_of_le_mul ?_
    have hmul : (b + 1) * (l + 1) = b * l + b + l + 1 := by ring
    omega

lemma flatten_parts (val : List Flow.Byte) :
    ((List.range (partCount knobs val)).map (valuePart knobs val)).flatten = val := by
  rw [flatten_valueParts, List.take_of_length_le (length_le_partCount_mul knobs val)]

end Parts

section ReadBack

/-- A mutation `decodeBackupLogValue` gives back as written, under a `key_version` map below
the log's version: a type below `MAX_ATOMIC_OP`, and for a clear a nonempty range that ends
by `allKeys.end`, inside the one range the map's constructor makes. -/
def Restorable (m : MutationRef) : Prop :=
  m.type ≠ .maxAtomicOp ∧ (m.type = .clearRange → m.param1 < m.param2 ∧ m.param2 ≤ allKeysEnd)

instance (m : MutationRef) : Decidable (Restorable m) :=
  inferInstanceAs (Decidable (_ ∧ _))

@[simp] lemma length_serializeMutation (m : MutationRef) :
    (serializeMutation m).length = logHeaderSize + m.param1.length + m.param2.length := by
  simp [serializeMutation, writeInt, logHeaderSize]
  omega

lemma isValidMutationType_code {t : MutationType} (ht : t ≠ .maxAtomicOp) :
    isValidMutationType t.code = true := by
  cases t <;> first | exact absurd rfl ht | rfl

lemma copyUInt_of_drop {value bytes rest : List Flow.Byte} {offset : ℕ}
    (h : value.drop offset = bytes ++ rest) (hb : 0 < bytes.length) :
    copyUInt value offset bytes.length = .ok (LittleEndian.ofBytes bytes) := by
  have hlen : offset + bytes.length ≤ value.length := by
    have := congrArg List.length h
    simp only [List.length_drop, List.length_append] at this
    omega
  rw [copyUInt, if_pos hlen, h, List.take_left' rfl]

lemma readMutation_of_drop {value rest : List Flow.Byte} {offset : ℕ} {m : MutationRef}
    (h : value.drop offset = serializeMutation m ++ rest) (hm : m.type ≠ .maxAtomicOp)
    (h1 : m.param1.length < 2 ^ 32) (h2 : m.param2.length < 2 ^ 32) :
    readMutation value offset = .ok (m, m.param1.length, m.param2.length) := by
  -- the header's three fields, then the parameters, each past the one before
  have hT : value.drop offset = writeInt m.type.code ++
      (writeInt m.param1.length ++ (writeInt m.param2.length ++ (m.param1 ++ (m.param2 ++ rest)))) := by
    simp [h, serializeMutation]
  have h1' : value.drop (offset + 4) =
      writeInt m.param1.length ++ (writeInt m.param2.length ++ (m.param1 ++ (m.param2 ++ rest))) := by
    rw [← List.drop_drop, hT, List.drop_left' (by simp [writeInt])]
  have h2' : value.drop (offset + 8) = writeInt m.param2.length ++ (m.param1 ++ (m.param2 ++ rest)) := by
    rw [show offset + 8 = offset + 4 + 4 by omega, ← List.drop_drop, h1',
      List.drop_left' (by simp [writeInt])]
  have hp1 : value.drop (offset + logHeaderSize) = m.param1 ++ (m.param2 ++ rest) := by
    rw [logHeaderSize, show offset + 12 = offset + 8 + 4 by omega, ← List.drop_drop, h2',
      List.drop_left' (by simp [writeInt])]
  have hp2 : value.drop (offset + logHeaderSize + m.param1.length) = m.param2 ++ rest := by
    rw [← List.drop_drop, hp1, List.drop_left' rfl]
  have hfit : offset + logHeaderSize + m.param1.length + m.param2.length ≤ value.length := by
    have := congrArg List.length hT
    simp only [List.length_drop, List.length_append, writeInt, LittleEndian.length_ofInt] at this
    rw [logHeaderSize]
    omega
  have hread : ∀ n : ℕ, n < 2 ^ 32 → LittleEndian.ofBytes (writeInt n) = n := fun n hn =>
    LittleEndian.ofBytes_ofInt_natCast (by simpa using hn)
  have hcT := copyUInt_of_drop hT (by simp [writeInt])
  have hc1 := copyUInt_of_drop h1' (by simp [writeInt])
  have hc2 := copyUInt_of_drop h2' (by simp [writeInt])
  rw [hread _ (by have := m.type.code_le; omega)] at hcT
  rw [hread _ h1] at hc1
  rw [hread _ h2] at hc2
  simp only [writeInt, LittleEndian.length_ofInt] at hcT hc1 hc2
  simp only [readMutation, hcT, hc1, hc2, Flow.ok_bind, hfit, isValidMutationType_code hm,
    and_self, if_true, hp1, hp2, List.take_left' rfl, MutationType.ofCode_code, Flow.except_pure]

@[simp] lemma movePrefix_nil (key : Key) : movePrefix [] [] key = .ok key := rfl

lemma default_le (key : Key) : (default : Key) ≤ key :=
  not_lt.mp (List.not_lt_nil key)

variable {v0 c : ℤ}

lemma decodeLogMutation_init (hv0 : 0 ≤ v0) (hc : v0 < c) {m : MutationRef} (hm : Restorable m) :
    decodeLogMutation c (RangeMap.init allKeysEnd v0) [] [] m = .ok [m] := by
  have hkeep : ∀ ver, (ver = v0 ∨ ver = 0) → c > ver ∧ ver ≠ invalidVersion := by
    rintro ver (rfl | rfl) <;> exact ⟨by omega, by rw [invalidVersion]; omega⟩
  by_cases hclear : m.type = .clearRange
  · obtain ⟨hlt, hle⟩ := hm.2 hclear
    -- the clear meets the constructor's one range, which ends at `allKeys.end`
    have hr := RangeMap.init_intersectingRanges v0 (default_le m.param1) hlt hle
    have hmin : min allKeysEnd m.param2 = m.param2 := min_eq_right hle
    have hmax : max (default : Key) m.param1 = m.param1 := max_eq_right (default_le m.param1)
    obtain ⟨t, p1, p2⟩ := m
    simp only at hclear hlt hle hr hmin hmax
    subst hclear
    simp only [decodeLogMutation, if_true, keyRange, dif_pos hlt.le, Flow.ok_bind, decodeClear, hr,
      List.filterMapM_cons, List.filterMapM_nil, if_pos (hkeep v0 (.inl rfl)), hmin, hmax]
    -- a clear up to `normalKeys.end` is rebuilt with that end, any other with its own
    by_cases hend : p2 = normalKeysEnd
    · subst hend
      simp
    · simp [hend]
  · have hver : (RangeMap.init allKeysEnd v0).get m.param1 = v0 ∨
        (RangeMap.init allKeysEnd v0).get m.param1 = 0 := by
      rcases lt_or_ge m.param1 allKeysEnd with h | h
      · exact .inl (RangeMap.init_get v0 (default_le _) h)
      · exact .inr (RangeMap.init_get_of_le v0 (by decide) h)
    simp only [decodeLogMutation, hclear, if_false, if_pos (hkeep _ hver), movePrefix_nil,
      Flow.ok_bind, Flow.except_pure]

lemma decodeLoop_flatMap (hv0 : 0 ≤ v0) (hc : v0 < c) (value : List Flow.Byte) {totalBytes : ℕ}
    (hTotal : totalBytes < 2 ^ 32) (rest : List MutationRef) :
    ∀ (fuel offset consumed : ℕ) (result : List MutationRef) (mutationSize : ℤ),
      (∀ m ∈ rest, Restorable m) → value.drop offset = rest.flatMap serializeMutation →
      rest.length ≤ fuel → consumed + (rest.flatMap serializeMutation).length = totalBytes →
      decodeLoop c (RangeMap.init allKeysEnd v0) [] [] value totalBytes fuel offset consumed
          result mutationSize =
        .ok (offset + (rest.flatMap serializeMutation).length, totalBytes, result ++ rest,
          mutationSize + ((rest.map MutationRef.expectedSize).sum : ℕ)) := by
  induction rest with
  | nil =>
    intro fuel offset consumed result mutationSize _ _ _ hcons
    simp only [List.flatMap_nil, List.length_nil, add_zero] at hcons ⊢
    subst hcons
    cases fuel <;> simp [decodeLoop]
  | cons m rest ih =>
    intro fuel offset consumed result mutationSize hall hdrop hfuel hcons
    obtain ⟨fuel, rfl⟩ : ∃ f, fuel = f + 1 := ⟨fuel - 1, by simp at hfuel; omega⟩
    have hm := hall m (List.mem_cons_self ..)
    rw [List.flatMap_cons] at hdrop
    simp only [List.flatMap_cons, List.length_append, length_serializeMutation] at hcons
    have hread := readMutation_of_drop hdrop hm.1 (by rw [logHeaderSize] at hcons; omega)
      (by rw [logHeaderSize] at hcons; omega)
    -- the next mutation starts where this one's parameters end
    have hnext : value.drop (offset + logHeaderSize + m.param1.length + m.param2.length) =
        rest.flatMap serializeMutation := by
      rw [show offset + logHeaderSize + m.param1.length + m.param2.length =
          offset + (serializeMutation m).length by simp; omega, ← List.drop_drop, hdrop,
        List.drop_left' rfl]
    have hconsumed : (consumed + logHeaderSize + m.param1.length + m.param2.length) % 2 ^ 32 =
        consumed + logHeaderSize + m.param1.length + m.param2.length :=
      Nat.mod_eq_of_lt (by omega)
    have hlt : consumed < totalBytes := by rw [logHeaderSize] at hcons; omega
    simp only [decodeLoop, if_pos hlt, hread, Flow.ok_bind, decodeLogMutation_init hv0 hc hm]
    rw [hconsumed, ih fuel _ _ _ _ (fun m' hm' => hall m' (List.mem_cons_of_mem m hm')) hnext
      (by simpa using hfuel) (by omega)]
    simp only [List.flatMap_cons, List.length_append, length_serializeMutation, List.append_assoc,
      List.singleton_append, List.map_cons, List.sum_cons, List.map_nil, List.sum_nil, add_zero,
      Nat.cast_add]
    congr 2
    · omega
    · rw [add_assoc]

lemma totalSize_eq_length (mutations : List MutationRef) :
    totalSize mutations = ((mutations.flatMap serializeMutation).length : ℤ) := by
  induction mutations with
  | nil => rfl
  | cons m ms ih =>
    rw [totalSize, List.map_cons, List.sum_cons, ← totalSize, ih, List.flatMap_cons,
      List.length_append, length_serializeMutation]
    push_cast
    rfl

lemma length_le_length_flatMap (mutations : List MutationRef) :
    mutations.length ≤ (mutations.flatMap serializeMutation).length := by
  induction mutations with
  | nil => rfl
  | cons m ms ih =>
    simp only [List.length_cons, List.flatMap_cons, List.length_append, length_serializeMutation,
      logHeaderSize]
    omega

lemma length_backupLogValue (mutations : List MutationRef) :
    (backupLogValue mutations).length = 12 + (mutations.flatMap serializeMutation).length := by
  simp only [backupLogValue, List.length_append, writeUInt64, writeInt,
    LittleEndian.length_toBytes, LittleEndian.length_ofInt]

lemma decodeBackupLogValue_backupLogValue (hv0 : 0 ≤ v0) (hc : v0 < c) {mutations : List MutationRef}
    (hM : ∀ m ∈ mutations, Restorable m) (hsize : totalSize mutations < 2 ^ 31) :
    decodeBackupLogValue (backupLogValue mutations) [] [] c (RangeMap.init allKeysEnd v0) =
      .ok (mutations, ((mutations.map MutationRef.expectedSize).sum : ℕ)) := by
  set n := (mutations.flatMap serializeMutation).length with hn
  have hn31 : n < 2 ^ 31 := by rw [totalSize_eq_length] at hsize; omega
  have hlen : (backupLogValue mutations).length = 12 + n := length_backupLogValue mutations
  -- the protocol version, then the size, then the mutations' bytes
  have hversion : copyUInt (backupLogValue mutations) 0 8 = .ok withBackupMutations := by
    have h := @copyUInt_of_drop (backupLogValue mutations) (writeUInt64 withBackupMutations) _ 0
      (by rw [List.drop_zero, backupLogValue, List.append_assoc]) (by simp [writeUInt64])
    rw [writeUInt64, LittleEndian.length_toBytes, LittleEndian.ofBytes_toBytes] at h
    exact h
  have htotal : copyUInt (backupLogValue mutations) 8 4 = .ok n := by
    have h := @copyUInt_of_drop (backupLogValue mutations) (writeInt (totalSize mutations)) _ 8
      (by rw [backupLogValue, List.append_assoc, List.drop_left' (by simp [writeUInt64])])
      (by simp [writeInt])
    rw [totalSize_eq_length, writeInt, LittleEndian.length_ofInt,
      LittleEndian.ofBytes_ofInt_natCast (by omega)] at h
    exact h
  have hdrop : (backupLogValue mutations).drop 12 = mutations.flatMap serializeMutation := by
    rw [backupLogValue, List.drop_left' (by simp [writeUInt64, writeInt])]
  have hloop := @decodeLoop_flatMap _ _ hv0 hc (backupLogValue mutations) n (by omega) mutations
    (backupLogValue mutations).length 12 0 [] 0 hM hdrop
    (by rw [hlen]; have := length_le_length_flatMap mutations; omega) (by omega)
  have hnew : ¬ withBackupMutations ≤ lastIncompatibleProtocolVersion := by decide
  have hpresent : ¬ n + 12 > 12 + n := by omega
  rw [hlen] at hloop
  simp only [decodeBackupLogValue, hversion, htotal, Flow.ok_bind, hnew, if_false, hpresent, hlen,
    hloop, ← hn]
  simp

end ReadBack

section Log

variable (hashlittle : List (Fin 256) → Fin 256) (knobs : ClientKnobs)

lemma addBackupMutations_singleton (destination : Key) (mutations : List MutationRef)
    (commitVersion : ℤ) :
    addBackupMutations hashlittle knobs [(destination, mutations)] commitVersion =
      (List.range (partCount knobs (backupLogValue mutations))).map fun part =>
        ⟨.setValue, backupLogKey hashlittle knobs destination commitVersion part,
          valuePart knobs (backupLogValue mutations) part⟩ := by
  simp [addBackupMutations]

lemma flatten_addBackupMutations (destination : Key) (mutations : List MutationRef)
    (commitVersion : ℤ) :
    ((addBackupMutations hashlittle knobs [(destination, mutations)] commitVersion).map
      (·.param2)).flatten = backupLogValue mutations := by
  rw [addBackupMutations_singleton, List.map_map]
  exact flatten_parts knobs _

/-- A commit's backup log read back. Each key `addBackupMutations` logs a commit's mutations
under, for a destination `backupLogKeys.begin ++ destUid`, lies in exactly one of the ranges
`getLogRanges` gives for versions from `beginVersion` to `endVersion` when the commit's
version is among them and in none otherwise, and decodes to the version and its part; the
values, joined, decode to the mutations. -/
theorem addBackupMutations_readBack {destUidValue : Key} (hlen : destUidValue.length = 16)
    {c : ℤ} (hc : 0 ≤ c) (hc' : c < 2 ^ 63) {mutations : List MutationRef}
    (hM : ∀ m ∈ mutations, Restorable m) (hsize : totalSize mutations < 2 ^ 31)
    {beginVersion endVersion blockSize : ℤ} (hb : 0 ≤ beginVersion) (hbe : beginVersion ≤ endVersion)
    (he : endVersion + blockSize ≤ 2 ^ 63) (hbs : 0 < blockSize)
    (hdvd : blockSize ∣ knobs.LOG_RANGE_BLOCK_SIZE) {v0 : ℤ} (hv0 : 0 ≤ v0) (hv0c : v0 < c) :
    let logged := addBackupMutations hashlittle knobs [(backupLogKeysBegin ++ destUidValue, mutations)] c
    (∀ j (hj : j < logged.length),
      (∃ rs, getLogRanges hashlittle knobs beginVersion endVersion destUidValue blockSize = .ok rs ∧
        rs.countP (fun r => decide (r.contains logged[j].param1)) =
          if beginVersion ≤ c ∧ c < endVersion then 1 else 0) ∧
      decodeBKMutationLogKey logged[j].param1 = (c, j)) ∧
    decodeBackupLogValue (logged.map (·.param2)).flatten [] [] c (RangeMap.init allKeysEnd v0) =
      .ok (mutations, ((mutations.map MutationRef.expectedSize).sum : ℕ)) := by
  intro logged
  refine ⟨fun j hj => ?_, ?_⟩
  · -- the `j`-th logged mutation is part `j`, under part `j`'s key
    have hkey : logged[j].param1 = backupLogKey hashlittle knobs (backupLogKeysBegin ++ destUidValue) c j := by
      simp [logged, addBackupMutations_singleton]
    have hparts : j < partCount knobs (backupLogValue mutations) := by
      simpa [logged, addBackupMutations_singleton] using hj
    have hpart : j < 2 ^ 32 := by
      have hcount := partCount_le_length knobs (backupLogValue mutations)
      rw [length_backupLogValue] at hcount
      rw [totalSize_eq_length] at hsize
      omega
    rw [hkey]
    -- below the bound the code's int64 arithmetic does not overflow (getLogRanges_in_int64)
    have he' : endVersion < 2 ^ 63 := by omega
    exact ⟨getLogRanges_countP hashlittle knobs hb hbe he' hbs hdvd hc hc' destUidValue j,
      decodeBKMutationLogKey_backupLogKey hashlittle knobs hlen hc hc' hpart⟩
  · rw [flatten_addBackupMutations]
    exact decodeBackupLogValue_backupLogValue hv0 hv0c hM hsize

theorem addBackupMutations_readBack_sample :
    let logged := addBackupMutations (fun _ => 0) ClientKnobs.defaults
      [(backupLogKeysBegin ++ List.replicate 16 0, [⟨.setValue, [1], [2]⟩])] 5
    (∀ j (hj : j < logged.length),
      (∃ rs, getLogRanges (fun _ => 0) ClientKnobs.defaults 0 10 (List.replicate 16 0) 1000000 =
          .ok rs ∧ rs.countP (fun r => decide (r.contains logged[j].param1)) =
            if (0 : ℤ) ≤ 5 ∧ (5 : ℤ) < 10 then 1 else 0) ∧
        decodeBKMutationLogKey logged[j].param1 = (5, j)) ∧
      decodeBackupLogValue (logged.map (·.param2)).flatten [] [] 5 (RangeMap.init allKeysEnd 1) =
        .ok ([⟨.setValue, [1], [2]⟩], 2) :=
  addBackupMutations_readBack (fun _ => 0) ClientKnobs.defaults (by decide) (by decide) (by decide)
    (by decide) (by decide) (by decide) (by decide) (by decide) (by decide) (by decide) (by decide)
    (by decide)

/-- At version `0` the map may hold `invalidVersion`, a version below it on all keys, and then
nothing logged is restored. -/
theorem decodeBackupLogValue_at_invalidVersion :
    invalidVersion < 0 ∧
      decodeBackupLogValue ((addBackupMutations (fun _ => 0) ClientKnobs.defaults
          [(backupLogKeysBegin ++ List.replicate 16 0, [⟨.setValue, [1], [2]⟩])] 0).map
            (·.param2)).flatten [] [] 0 (RangeMap.init allKeysEnd invalidVersion) = .ok ([], 0) := by
  refine ⟨by decide, ?_⟩
  rw [flatten_addBackupMutations]
  decide

end Log

end Backup

end FoundationDB
