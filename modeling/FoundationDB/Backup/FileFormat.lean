import FoundationDB.Client.CommitTransaction
import FoundationDB.Library.BigEndian
import FoundationDB.Library.LittleEndian
import FoundationDB.Library.Blocks

/-! The block formats of backup range and log files (`FileBackupAgent.actor.cpp`). Both are
cut into blocks of `blockSize` bytes so that a restore can read them in parallel, from any
block boundary. A block starts with a 4-byte file version; keys and values follow, each as a
big-endian 32-bit length and its bytes (`appendStringRefWithLen`); `0xFF` bytes pad the block
to its end.

A range block starts with the key its range begins at; every block after the first repeats
the last key and pair of the block before it, so the last pair of a block only marks where its
range ends. The range ends at the last key of the block. A log block holds pairs only.

The files are byte lists; a writer's file is what it has appended so far, and the decoders
read from the list. `decodeRangeFileBlock` and `decodeLogFileBlock` loop until they see the end
of a block; the model bounds the turns by the length of the block, which each turn eats into. -/

namespace FoundationDB.Backup

/-- The errors the writers and the decoders throw. -/
inductive FileError
  | backupBadBlockSize
  | restoreBadRead
  | restoreUnsupportedFileVersion
  | endOfStream
  | restoreCorruptedData
  | restoreCorruptedDataPadding
deriving DecidableEq, Repr

/-- `BACKUP_AGENT_MLOG_VERSION`. -/
def backupAgentMlogVersion : ℕ := 2001

/-- `BACKUP_AGENT_SNAPSHOT_FILE_VERSION`. -/
def backupAgentSnapshotFileVersion : ℕ := 1001

/-- `makePadding(size)`: `size` bytes `0xFF`. -/
def makePadding (size : ℕ) : List (Fin 256) := List.replicate size 0xFF

/-- What `appendStringRefWithLen(s)` appends: `(uint32_t)s.size()` big-endian, then `s`. -/
def appendStringRefWithLen (s : List (Fin 256)) : List (Fin 256) :=
  BigEndian.toBytes 4 s.length ++ s

/-! ### The writers -/

/-- `RangeFileWriter`; `fileVersion` is always `BACKUP_AGENT_SNAPSHOT_FILE_VERSION`. -/
structure RangeFileWriter where
  file : List (Fin 256)
  blockSize : ℕ
  blockEnd : ℕ
  lastKey : Key
  lastValue : Value

namespace RangeFileWriter

/-- `RangeFileWriter(file, blockSize)` on an empty file. -/
def init (blockSize : ℕ) : RangeFileWriter := ⟨[], blockSize, 0, [], []⟩

/-- `newBlock(self, bytesNeeded, final)`: pad the block to its end; unless `final`, start the
next one with the header and, after the first block, the last key twice and the last value. -/
def newBlock (self : RangeFileWriter) (bytesNeeded : ℕ) (final : Bool) :
    Except FileError RangeFileWriter :=
  -- `bytesLeft` is not positive once the block is full: nothing is padded then
  let file := self.file ++ makePadding (self.blockEnd - self.file.length)
  if final then .ok { self with file } else
  let blockEnd := self.blockEnd + self.blockSize
  let file := file ++ LittleEndian.toBytes 4 backupAgentSnapshotFileVersion
  let file := if blockEnd > self.blockSize then
      file ++ appendStringRefWithLen self.lastKey ++ appendStringRefWithLen self.lastKey ++
        appendStringRefWithLen self.lastValue
    else file
  if file.length + bytesNeeded > blockEnd then .error .backupBadBlockSize
  else .ok { self with file, blockEnd }

/-- `padEnd()`, used in simulation: pad the last block to a whole block. -/
def padEnd (self : RangeFileWriter) : Except FileError RangeFileWriter :=
  if self.file.length > 0 then self.newBlock 0 true else .ok self

def newBlockIfNeeded (self : RangeFileWriter) (bytesNeeded : ℕ) :
    Except FileError RangeFileWriter :=
  if self.file.length + bytesNeeded > self.blockEnd then self.newBlock bytesNeeded false
  else .ok self

/-- `writeKV(k, v)`. -/
def writeKV (self : RangeFileWriter) (k : Key) (v : Value) : Except FileError RangeFileWriter := do
  let toWrite := 4 + k.length + 4 + v.length
  let self ← self.newBlockIfNeeded toWrite
  return { self with
    file := self.file ++ appendStringRefWithLen k ++ appendStringRefWithLen v
    lastKey := k
    lastValue := v }

/-- `writeKey(k)`: the begin or the end key of the file's range. -/
def writeKey (self : RangeFileWriter) (k : Key) : Except FileError RangeFileWriter := do
  let self ← self.newBlockIfNeeded (4 + k.length)
  return { self with file := self.file ++ appendStringRefWithLen k }

end RangeFileWriter

/-- The writes of the backup range task into one range file: the begin key, the pairs read,
the end key, and in simulation (`BUGGIFY`) the padding of the last block. -/
def writeRangeFile (blockSize : ℕ) (beginKey : Key) (kvs : List (Key × Value)) (endKey : Key)
    (pad : Bool) : Except FileError (List (Fin 256)) := do
  let w ← (RangeFileWriter.init blockSize).writeKey beginKey
  let w ← kvs.foldlM (fun w kv => w.writeKV kv.1 kv.2) w
  let w ← w.writeKey endKey
  let w ← if pad then w.padEnd else pure w
  return w.file

/-- `LogFileWriter`. -/
structure LogFileWriter where
  file : List (Fin 256)
  blockSize : ℕ
  blockEnd : ℕ

namespace LogFileWriter

def init (blockSize : ℕ) : LogFileWriter := ⟨[], blockSize, 0⟩

/-- `writeKV(k, v)`: a pair that does not fit ends the block and starts the next one with
its header. -/
def writeKV (self : LogFileWriter) (k : Key) (v : Value) : Except FileError LogFileWriter :=
  let toWrite := 4 + k.length + 4 + v.length
  let (file, blockEnd) := if self.file.length + toWrite > self.blockEnd then
      (self.file ++ makePadding (self.blockEnd - self.file.length) ++
        LittleEndian.toBytes 4 backupAgentMlogVersion, self.blockEnd + self.blockSize)
    else (self.file, self.blockEnd)
  let file := file ++ appendStringRefWithLen k ++ appendStringRefWithLen v
  if file.length > blockEnd then .error .backupBadBlockSize
  else .ok { self with file, blockEnd }

end LogFileWriter

/-- The log writer's file after the pairs of one log task. -/
def writeLogFile (blockSize : ℕ) (kvs : List (Key × Value)) : Except FileError (List (Fin 256)) := do
  let w ← kvs.foldlM (fun w kv => w.writeKV kv.1 kv.2) (LogFileWriter.init blockSize)
  return w.file

/-! ### The decoders -/

/-- `StringRefReader`: the bytes from `rptr` to `end`, and the error it throws when a read
goes past the end. -/
structure StringRefReader where
  rest : List (Fin 256)
  failureError : FileError

abbrev ReadM := StateT StringRefReader (Except FileError)

namespace StringRefReader

/-- `consume(len)`. -/
def consume (len : ℕ) : ReadM (List (Fin 256)) := fun r =>
  if r.rest = [] ∧ len ≠ 0 then .error .endOfStream
  else if r.rest.length < len then .error r.failureError
  else .ok (r.rest.take len, { r with rest := r.rest.drop len })

/-- `consume<int32_t>()` on a little-endian host. -/
def consumeInt32 : ReadM ℤ := do return LittleEndian.toInt (← consume 4)

def consumeNetworkUInt32 : ReadM ℕ := do return BigEndian.ofBytes (← consume 4)

/-- `reader.eof() || *reader.rptr == 0xFF`: where the decoders see the end of a block. -/
def atBlockEnd : ReadM Bool := fun r =>
  .ok (match r.rest with
    | [] => true
    | b :: _ => b == 0xFF, r)

def remainder : ReadM (List (Fin 256)) := fun r => .ok (r.rest, r)

end StringRefReader

open StringRefReader

/-- The loop of `decodeRangeFileBlock`: a key, then either the end of the block or its value;
after a value, the end of the block or the next key. -/
def readRangeKVs : ℕ → List (Key × Value) → ReadM (List (Key × Value))
  -- each turn consumes a length, so more turns than a quarter of the bytes left change
  -- nothing (`readRangeKVs_fuel_add`)
  | 0, _ => throw .restoreCorruptedData
  | fuel + 1, results => do
    let kLen ← consumeNetworkUInt32
    let k ← consume kLen
    if ← atBlockEnd then return results ++ [(k, [])]
    let vLen ← consumeNetworkUInt32
    let v ← consume vLen
    if ← atBlockEnd then return results ++ [(k, v)]
    readRangeKVs fuel (results ++ [(k, v)])

/-- The body of `decodeRangeFileBlock`'s `try`: the header, the begin key, the pairs and the
end key, then the padding. -/
def readRangeFileBlock (fuel : ℕ) : ReadM (List (Key × Value)) := do
  if (← consumeInt32) ≠ (backupAgentSnapshotFileVersion : ℤ) then
    throw .restoreUnsupportedFileVersion
  let kLen ← consumeNetworkUInt32
  let k ← consume kLen
  let results ← readRangeKVs fuel [(k, [])]
  if (← remainder).all (· == 0xFF) then return results
  throw .restoreCorruptedDataPadding

/-- `decodeRangeFileBlock(file, offset, len)`. -/
def decodeRangeFileBlock (file : List (Fin 256)) (offset len : ℕ) :
    Except FileError (List (Key × Value)) := do
  let buf := (file.drop offset).take len
  if buf.length ≠ len then throw .restoreBadRead
  let (results, _) ← (readRangeFileBlock len).run ⟨buf, .restoreCorruptedData⟩
  return results

/-- The loop of `decodeLogFileBlock`: pairs until the end of the block. -/
def readLogKVs : ℕ → List (Key × Value) → ReadM (List (Key × Value))
  -- as for `readRangeKVs` (`readLogKVs_fuel_add`)
  | 0, _ => throw .restoreCorruptedData
  | fuel + 1, results => do
    if ← atBlockEnd then return results
    let kLen ← consumeNetworkUInt32
    let k ← consume kLen
    let vLen ← consumeNetworkUInt32
    let v ← consume vLen
    readLogKVs fuel (results ++ [(k, v)])

def readLogFileBlock (fuel : ℕ) : ReadM (List (Key × Value)) := do
  if (← consumeInt32) ≠ (backupAgentMlogVersion : ℤ) then throw .restoreUnsupportedFileVersion
  let results ← readLogKVs fuel []
  if (← remainder).all (· == 0xFF) then return results
  throw .restoreCorruptedDataPadding

/-- `decodeLogFileBlock(file, offset, len)`. -/
def decodeLogFileBlock (file : List (Fin 256)) (offset len : ℕ) :
    Except FileError (List (Key × Value)) := do
  let buf := (file.drop offset).take len
  if buf.length ≠ len then throw .restoreBadRead
  let (results, _) ← (readLogFileBlock (len + 1)).run ⟨buf, .restoreCorruptedData⟩
  return results

/-! ### Reading what the writers append -/

namespace StringRefReader

variable {α β : Type}

lemma run_bind_of_ok {x : ReadM α} {f : α → ReadM β} {r r' : StringRefReader} {a : α}
    (h : x.run r = .ok (a, r')) : (x >>= f).run r = (f a).run r' := by
  rw [StateT.run_bind, h]
  rfl

@[simp] lemma run_pure (a : α) (r : StringRefReader) : (pure a : ReadM α).run r = .ok (a, r) := rfl

@[simp] lemma pure_eq_ok (a : α) : (pure a : Except FileError α) = .ok a := rfl

@[simp] lemma ok_bind (a : α) (f : α → Except FileError β) : (Except.ok a >>= f) = f a := rfl

lemma remainder_run (r : StringRefReader) : remainder.run r = .ok (r.rest, r) := rfl

@[simp] lemma run_throw (e : FileError) (r : StringRefReader) :
    (throw e : ReadM α).run r = .error e := rfl

lemma consume_append (l rest : List (Fin 256)) (e : FileError) :
    (consume l.length).run ⟨l ++ rest, e⟩ = .ok (l, ⟨rest, e⟩) := by
  cases l with
  | nil => simp [consume, StateT.run]
  | cons b l => simp [consume, StateT.run]

lemma consumeNetworkUInt32_append {n : ℕ} (hn : n < 2 ^ 32) (rest : List (Fin 256))
    (e : FileError) :
    consumeNetworkUInt32.run ⟨BigEndian.toBytes 4 n ++ rest, e⟩ = .ok (n, ⟨rest, e⟩) := by
  have h := consume_append (BigEndian.toBytes 4 n) rest e
  rw [BigEndian.length_toBytes] at h
  rw [consumeNetworkUInt32, run_bind_of_ok h, run_pure, BigEndian.ofBytes_toBytes,
    Nat.mod_eq_of_lt (by simpa using hn)]

lemma read_appendStringRefWithLen {s : List (Fin 256)} (hs : s.length < 2 ^ 32)
    (rest : List (Fin 256)) (e : FileError) (f : List (Fin 256) → ReadM β) :
    (consumeNetworkUInt32 >>= fun len => consume len >>= f).run
        ⟨appendStringRefWithLen s ++ rest, e⟩ = (f s).run ⟨rest, e⟩ := by
  rw [appendStringRefWithLen, List.append_assoc,
    run_bind_of_ok (consumeNetworkUInt32_append hs _ e), run_bind_of_ok (consume_append s rest e)]

lemma atBlockEnd_appendStringRefWithLen {s : List (Fin 256)} (hs : s.length < 2 ^ 31)
    (rest : List (Fin 256)) (e : FileError) :
    atBlockEnd.run ⟨appendStringRefWithLen s ++ rest, e⟩ =
      .ok (false, ⟨appendStringRefWithLen s ++ rest, e⟩) := by
  have hfirst : s.length / 16777216 % 256 ≠ 255 := by omega
  simp [atBlockEnd, StateT.run, appendStringRefWithLen, BigEndian.toBytes, Fin.ext_iff, hfirst]

lemma atBlockEnd_makePadding (p : ℕ) (e : FileError) :
    atBlockEnd.run ⟨makePadding p, e⟩ = .ok (true, ⟨makePadding p, e⟩) := by
  cases p <;> rfl

lemma consumeInt32_header {v : ℕ} (hv : v < 2 ^ 31) (rest : List (Fin 256)) (e : FileError) :
    consumeInt32.run ⟨LittleEndian.toBytes 4 v ++ rest, e⟩ = .ok (v, ⟨rest, e⟩) := by
  have h := consume_append (LittleEndian.toBytes 4 v) rest e
  rw [LittleEndian.length_toBytes] at h
  have hval : LittleEndian.toInt (LittleEndian.toBytes 4 v) = v := by
    rw [LittleEndian.toInt, LittleEndian.ofBytes_toBytes, LittleEndian.length_toBytes,
      Nat.mod_eq_of_lt (by omega)]
    exact Int.bmod_eq_of_le (by omega) (by omega)
  rw [consumeInt32, run_bind_of_ok h, run_pure, hval]

lemma run_bind_congr {x : ReadM α} {f g : α → ReadM β} {r : StringRefReader}
    (h : ∀ a r', x.run r = .ok (a, r') → (f a).run r' = (g a).run r') :
    (x >>= f).run r = (x >>= g).run r := by
  rw [StateT.run_bind, StateT.run_bind]
  rcases hx : x.run r with e | ⟨a, r'⟩
  · rfl
  · exact h a r' hx

lemma length_rest_consume {n : ℕ} {r r' : StringRefReader} {a : List (Fin 256)}
    (h : (consume n).run r = .ok (a, r')) : r'.rest.length + n = r.rest.length := by
  simp only [consume, StateT.run] at h
  split_ifs at h with h₁ h₂
  cases h
  simp only [List.length_drop]
  omega

lemma length_rest_consumeNetworkUInt32 {r r' : StringRefReader} {a : ℕ}
    (h : consumeNetworkUInt32.run r = .ok (a, r')) : r'.rest.length + 4 = r.rest.length := by
  rw [consumeNetworkUInt32, StateT.run_bind] at h
  rcases hc : (consume 4).run r with e | ⟨b, r₁⟩
  · rw [hc] at h
    cases h
  · rw [hc] at h
    cases h
    exact length_rest_consume hc

lemma atBlockEnd_state {r r' : StringRefReader} {b : Bool} (h : atBlockEnd.run r = .ok (b, r')) :
    r' = r := by
  simp only [atBlockEnd, StateT.run, Except.ok.injEq, Prod.mk.injEq] at h
  exact h.2.symm

end StringRefReader

open StringRefReader in
lemma readRangeKVs_succ : ∀ (fuel : ℕ) (results : List (Key × Value)) (r : StringRefReader),
    r.rest.length < 4 * fuel →
      (readRangeKVs (fuel + 1) results).run r = (readRangeKVs fuel results).run r
  | 0, _, _, h => absurd h (by omega)
  | n + 1, results, r, h => by
    rw [readRangeKVs, readRangeKVs]
    refine run_bind_congr fun _ r₁ h₁ => run_bind_congr fun k r₂ h₂ =>
      run_bind_congr fun b r₃ h₃ => ?_
    split
    · rfl
    refine run_bind_congr fun _ r₄ h₄ => run_bind_congr fun v r₅ h₅ =>
      run_bind_congr fun b' r₆ h₆ => ?_
    split
    · rfl
    -- the turn consumed the key's and the value's lengths
    have hlen := length_rest_consumeNetworkUInt32 h₁
    have hlen₂ := length_rest_consume h₂
    have hlen₄ := length_rest_consumeNetworkUInt32 h₄
    have hlen₅ := length_rest_consume h₅
    rw [atBlockEnd_state h₃] at hlen₄
    rw [atBlockEnd_state h₆]
    exact readRangeKVs_succ n _ r₅ (by omega)

lemma readRangeKVs_fuel_add {fuel : ℕ} {r : StringRefReader} (h : r.rest.length < 4 * fuel)
    (results : List (Key × Value)) :
    ∀ m, (readRangeKVs (fuel + m) results).run r = (readRangeKVs fuel results).run r
  | 0 => rfl
  | m + 1 => by
    rw [← Nat.add_assoc, readRangeKVs_succ _ _ _ (by omega), readRangeKVs_fuel_add h results m]

open StringRefReader in
lemma readLogKVs_succ : ∀ (fuel : ℕ) (results : List (Key × Value)) (r : StringRefReader),
    r.rest.length < 4 * fuel →
      (readLogKVs (fuel + 1) results).run r = (readLogKVs fuel results).run r
  | 0, _, _, h => absurd h (by omega)
  | n + 1, results, r, h => by
    rw [readLogKVs, readLogKVs]
    refine run_bind_congr fun b r₀ h₀ => ?_
    split
    · rfl
    refine run_bind_congr fun _ r₁ h₁ => run_bind_congr fun k r₂ h₂ =>
      run_bind_congr fun _ r₃ h₃ => run_bind_congr fun v r₄ h₄ => ?_
    have hlen := length_rest_consumeNetworkUInt32 h₁
    have hlen₂ := length_rest_consume h₂
    have hlen₃ := length_rest_consumeNetworkUInt32 h₃
    have hlen₄ := length_rest_consume h₄
    rw [atBlockEnd_state h₀] at hlen
    exact readLogKVs_succ n _ r₄ (by omega)

lemma readLogKVs_fuel_add {fuel : ℕ} {r : StringRefReader} (h : r.rest.length < 4 * fuel)
    (results : List (Key × Value)) :
    ∀ m, (readLogKVs (fuel + m) results).run r = (readLogKVs fuel results).run r
  | 0 => rfl
  | m + 1 => by
    rw [← Nat.add_assoc, readLogKVs_succ _ _ _ (by omega), readLogKVs_fuel_add h results m]

lemma decodeRangeFileBlock_piece (file : List (Fin 256)) (offset len : ℕ) :
    decodeRangeFileBlock file offset len =
      decodeRangeFileBlock ((file.drop offset).take len) 0 len := by
  simp [decodeRangeFileBlock, List.take_take]

lemma decodeLogFileBlock_piece (file : List (Fin 256)) (offset len : ℕ) :
    decodeLogFileBlock file offset len = decodeLogFileBlock ((file.drop offset).take len) 0 len := by
  simp [decodeLogFileBlock, List.take_take]

/-! ### Range blocks as the writer lays them out

A range block is its header, its begin key, its pairs, its end key if it holds it, and its
padding. It decodes to its begin key, its pairs and its end key, as long as it holds a pair
or the end key and every length in it fits an `int`. -/

/-- A pair as the writers append it. -/
def encodeKV (kv : Key × Value) : List (Fin 256) :=
  appendStringRefWithLen kv.1 ++ appendStringRefWithLen kv.2

/-- The bytes of a range block after its begin key: its pairs, then its end key. -/
def rangeBody (kvs : List (Key × Value)) (endKey : Option Key) : List (Fin 256) :=
  kvs.flatMap encodeKV ++ (endKey.map appendStringRefWithLen).getD []

@[simp] lemma rangeBody_nil_none : rangeBody [] none = [] := rfl

@[simp] lemma rangeBody_nil_some (k : Key) : rangeBody [] (some k) = appendStringRefWithLen k := by
  simp [rangeBody]

lemma rangeBody_cons (k : Key) (v : Value) (kvs : List (Key × Value)) (endKey : Option Key) :
    rangeBody ((k, v) :: kvs) endKey =
      appendStringRefWithLen k ++ (appendStringRefWithLen v ++ rangeBody kvs endKey) := by
  simp [rangeBody, encodeKV]

/-- Every length a block holds fits an `int`. -/
def ShortKVs (kvs : List (Key × Value)) : Prop :=
  ∀ kv ∈ kvs, kv.1.length < 2 ^ 31 ∧ kv.2.length < 2 ^ 31

structure RangeBlock where
  beginKey : Key
  kvs : List (Key × Value)
  endKey : Option Key
  padding : ℕ

namespace RangeBlock

def bytes (B : RangeBlock) : List (Fin 256) :=
  LittleEndian.toBytes 4 backupAgentSnapshotFileVersion ++
    (appendStringRefWithLen B.beginKey ++ (rangeBody B.kvs B.endKey ++ makePadding B.padding))

/-- What the block decodes to. -/
def entries (B : RangeBlock) : List (Key × Value) :=
  (B.beginKey, []) :: (B.kvs ++ B.endKey.toList.map fun k => (k, []))

/-- The block can be decoded: it holds a pair or the end key, and its lengths fit an `int`. -/
structure Decodable (B : RangeBlock) : Prop where
  nonempty : B.kvs ≠ [] ∨ B.endKey.isSome
  beginKey : B.beginKey.length < 2 ^ 31
  kvs : ShortKVs B.kvs
  endKey : ∀ k ∈ B.endKey, k.length < 2 ^ 31

/-- The key the block's range ends at: its end key, or else the key of its last pair. -/
def rangeEnd (B : RangeBlock) : Key := ((B.kvs ++ B.endKey.toList.map fun k => (k, [])).getLastD (B.beginKey, [])).1

lemma rangeEnd_of_endKey {B : RangeBlock} {k : Key} (h : B.endKey = some k) : B.rangeEnd = k := by
  simp [rangeEnd, h]

lemma rangeEnd_of_getLast? {B : RangeBlock} {kv : Key × Value} (h : B.endKey = none)
    (hkv : B.kvs.getLast? = some kv) : B.rangeEnd = kv.1 := by
  simp [rangeEnd, h, List.getLastD_eq_getLast?, hkv]

section Append

variable {B : RangeBlock} (hpad : B.padding = 0)
include hpad

lemma bytes_push (hend : B.endKey = none) (k : Key) (v : Value) :
    B.bytes ++ appendStringRefWithLen k ++ appendStringRefWithLen v =
      { B with kvs := B.kvs ++ [(k, v)] }.bytes := by
  simp [bytes, rangeBody, hend, hpad, makePadding, encodeKV]

lemma bytes_close (hend : B.endKey = none) (k : Key) :
    B.bytes ++ appendStringRefWithLen k = { B with endKey := some k }.bytes := by
  simp [bytes, rangeBody, hend, hpad, makePadding]

lemma bytes_pad (p : ℕ) : B.bytes ++ makePadding p = { B with padding := p }.bytes := by
  simp [bytes, hpad, makePadding]

end Append

lemma length_bytes (B : RangeBlock) :
    B.bytes.length = 8 + B.beginKey.length + (rangeBody B.kvs B.endKey).length + B.padding := by
  simp [bytes, appendStringRefWithLen, makePadding]
  omega

end RangeBlock

open StringRefReader

lemma atBlockEnd_rangeBody {kvs : List (Key × Value)} {endKey : Option Key}
    (hkvs : ShortKVs kvs) (hend : ∀ k ∈ endKey, k.length < 2 ^ 31)
    (hne : kvs ≠ [] ∨ endKey.isSome) (rest : List (Fin 256)) (e : FileError) :
    atBlockEnd.run ⟨rangeBody kvs endKey ++ rest, e⟩ =
      .ok (false, ⟨rangeBody kvs endKey ++ rest, e⟩) := by
  match kvs, endKey, hne with
  | (k, v) :: kvs, _, _ =>
    rw [rangeBody_cons, List.append_assoc]
    exact atBlockEnd_appendStringRefWithLen (hkvs (k, v) List.mem_cons_self).1 _ e
  | [], some k, _ =>
    rw [rangeBody_nil_some]
    exact atBlockEnd_appendStringRefWithLen (hend k rfl) _ e

lemma readRangeKVs_rangeBody (e : FileError) (p : ℕ) {endKey : Option Key}
    (hend : ∀ k ∈ endKey, k.length < 2 ^ 31) :
    ∀ (kvs : List (Key × Value)) (fuel : ℕ) (results : List (Key × Value)), ShortKVs kvs →
      kvs.length < fuel → (kvs ≠ [] ∨ endKey.isSome) →
      (readRangeKVs fuel results).run ⟨rangeBody kvs endKey ++ makePadding p, e⟩ =
        .ok (results ++ (kvs ++ endKey.toList.map fun k => (k, [])), ⟨makePadding p, e⟩)
  | [], fuel + 1, results, _, _, hne => by
    -- only the end key is left
    obtain ⟨k, rfl⟩ := Option.isSome_iff_exists.mp (hne.resolve_left (by simp))
    rw [readRangeKVs, rangeBody_nil_some,
      read_appendStringRefWithLen (by have := hend k rfl; omega),
      run_bind_of_ok (atBlockEnd_makePadding p e)]
    simp
  | (k, v) :: kvs, fuel + 1, results, hshort, hlen, _ => by
    have hk : k.length < 2 ^ 31 ∧ v.length < 2 ^ 31 := hshort (k, v) List.mem_cons_self
    have hkvs : ShortKVs kvs := fun kv hkv => hshort kv (List.mem_cons_of_mem _ hkv)
    rw [readRangeKVs, rangeBody_cons, List.append_assoc, read_appendStringRefWithLen (by omega),
      List.append_assoc, run_bind_of_ok (atBlockEnd_appendStringRefWithLen hk.2 _ e)]
    simp only [Bool.false_eq_true, if_false]
    rw [read_appendStringRefWithLen (by omega)]
    by_cases hlast : kvs = [] ∧ endKey = none
    · -- the pair was the block's last
      obtain ⟨rfl, rfl⟩ := hlast
      rw [rangeBody_nil_none, List.nil_append, run_bind_of_ok (atBlockEnd_makePadding p e)]
      simp
    · have hne : kvs ≠ [] ∨ endKey.isSome := by
        rcases endKey with _ | k' <;> simp_all
      rw [run_bind_of_ok (atBlockEnd_rangeBody hkvs hend hne _ e)]
      simp only [Bool.false_eq_true, if_false]
      rw [readRangeKVs_rangeBody e p hend kvs fuel _ hkvs (by simpa using hlen) hne]
      simp

lemma length_le_length_rangeBody (kvs : List (Key × Value)) (endKey : Option Key) :
    kvs.length ≤ (rangeBody kvs endKey).length := by
  induction kvs with
  | nil => simp
  | cons kv kvs ih =>
    rw [show kv = (kv.1, kv.2) from rfl, rangeBody_cons]
    simp only [List.length_cons, List.length_append, appendStringRefWithLen,
      BigEndian.length_toBytes]
    omega

/-- `KeyRangeRef(blockData.front().key, blockData.back().key)`: the range a decoded range block
covers, as the restore task reads it. -/
def blockRange (blockData : List (Key × Value)) : Key × Key :=
  ((blockData.headD ([], [])).1, (blockData.getLastD ([], [])).1)

/-- `blockData.slice(1, blockData.size() - 1)`: the pairs a decoded range block restores. -/
def blockPairs (blockData : List (Key × Value)) : List (Key × Value) := (blockData.drop 1).dropLast

namespace RangeBlock

@[simp] lemma blockRange_entries (B : RangeBlock) :
    blockRange B.entries = (B.beginKey, B.rangeEnd) := by
  simp only [blockRange, entries, rangeEnd, List.headD_cons, List.getLastD_cons]

lemma readRangeFileBlock_bytes {B : RangeBlock} (hB : B.Decodable) {fuel : ℕ}
    (hfuel : B.kvs.length < fuel) (e : FileError) :
    (readRangeFileBlock fuel).run ⟨B.bytes, e⟩ = .ok (B.entries, ⟨makePadding B.padding, e⟩) := by
  rw [readRangeFileBlock, bytes, run_bind_of_ok (consumeInt32_header (by decide) _ e)]
  simp only [backupAgentSnapshotFileVersion, ne_eq, not_true_eq_false, if_false]
  rw [read_appendStringRefWithLen (by have := hB.beginKey; omega),
    run_bind_of_ok (readRangeKVs_rangeBody e B.padding hB.endKey B.kvs fuel _ hB.kvs hfuel hB.nonempty)]
  rw [run_bind_of_ok (remainder_run _)]
  simp [makePadding, entries]

/-- A block as the range writer lays it out decodes to its begin key, pairs and end key. -/
theorem decodeRangeFileBlock_bytes {B : RangeBlock} (hB : B.Decodable) :
    decodeRangeFileBlock B.bytes 0 B.bytes.length = .ok B.entries := by
  have hfuel : B.kvs.length < B.bytes.length := by
    have := length_le_length_rangeBody B.kvs B.endKey
    simp only [bytes, List.length_append, LittleEndian.length_toBytes]
    omega
  simp [decodeRangeFileBlock, readRangeFileBlock_bytes hB hfuel]

end RangeBlock

/-! ### The range writer -/

namespace RangeFileWriter

/-- The block `newBlock` starts after the first: the last key, then the last pair again. -/
def nextBlock (w : RangeFileWriter) : RangeBlock := ⟨w.lastKey, [(w.lastKey, w.lastValue)], none, 0⟩

lemma newBlockIfNeeded_of_le {w : RangeFileWriter} {n : ℕ} (h : w.file.length + n ≤ w.blockEnd) :
    w.newBlockIfNeeded n = .ok w := by
  simp [newBlockIfNeeded, Nat.not_lt.mpr h]

lemma newBlockIfNeeded_of_lt {w : RangeFileWriter} {n : ℕ} (h : w.blockEnd < w.file.length + n) :
    w.newBlockIfNeeded n = w.newBlock n false := by
  simp [newBlockIfNeeded, h]

lemma newBlock_of_pos {w : RangeFileWriter} {n : ℕ} (hpos : 0 < w.blockEnd)
    (hfile : w.file.length ≤ w.blockEnd) (hfits : w.nextBlock.bytes.length + n ≤ w.blockSize) :
    w.newBlock n false = .ok { w with
      file := w.file ++ makePadding (w.blockEnd - w.file.length) ++ w.nextBlock.bytes
      blockEnd := w.blockEnd + w.blockSize } := by
  have hbytes : w.nextBlock.bytes = LittleEndian.toBytes 4 backupAgentSnapshotFileVersion ++
      appendStringRefWithLen w.lastKey ++ appendStringRefWithLen w.lastKey ++
      appendStringRefWithLen w.lastValue := by
    simp [nextBlock, RangeBlock.bytes, rangeBody, encodeKV, makePadding]
  have hlen : ¬(w.file ++ makePadding (w.blockEnd - w.file.length) ++ w.nextBlock.bytes).length + n >
      w.blockEnd + w.blockSize := by
    simp only [List.length_append, makePadding, List.length_replicate]
    omega
  rw [hbytes] at hlen ⊢
  simp only [newBlock, Bool.false_eq_true, if_false, show w.blockEnd + w.blockSize > w.blockSize by omega,
    if_true, List.append_assoc] at hlen ⊢
  rw [if_neg hlen]

lemma init_writeKey {blockSize : ℕ} {k : Key} (h : 8 + k.length ≤ blockSize) :
    (init blockSize).writeKey k =
      .ok ⟨(RangeBlock.mk k [] none 0).bytes, blockSize, blockSize, [], []⟩ := by
  have hfits : ¬blockSize < 4 + (4 + k.length) := by omega
  simp [writeKey, newBlockIfNeeded, newBlock, init, makePadding, RangeBlock.bytes, rangeBody,
    LittleEndian.length_toBytes, hfits]

end RangeFileWriter

/-! ### The range writer's file between writes

The file is a run of closed blocks, each filled to the block size, and the open block the
writer appends to. Each closed block holds a pair; the next block begins at the key of its last
pair; the pairs written so far are those of the closed blocks but their last, then those of
the open block. -/

/-- What every block of a range file keeps: pairs in key order from its begin key on, all
among the pairs written, and lengths within `K` for keys and `V` for values. -/
structure BlockKeys (K V : ℕ) (written : List (Key × Value)) (B : RangeBlock) : Prop where
  sorted : (B.kvs.map Prod.fst).Pairwise (· < ·)
  beginKey_le : ∀ kv ∈ B.kvs, B.beginKey ≤ kv.1
  mem_written : ∀ kv ∈ B.kvs, kv ∈ written
  length_beginKey : B.beginKey.length ≤ K
  length_kvs : ∀ kv ∈ B.kvs, kv.1.length ≤ K ∧ kv.2.length ≤ V
  length_endKey : ∀ k ∈ B.endKey, k.length ≤ K

structure Layout (K V : ℕ) (beginKey : Key) (written : List (Key × Value)) (w : RangeFileWriter)
    (closed : List RangeBlock) (cur : RangeBlock) : Prop where
  file_eq : w.file = (closed.map RangeBlock.bytes).flatten ++ cur.bytes
  blockEnd_eq : w.blockEnd = (closed.length + 1) * w.blockSize
  cur_le : cur.bytes.length ≤ w.blockSize
  closed_full : ∀ B ∈ closed, B.bytes.length = w.blockSize ∧ B.endKey = none ∧ B.kvs ≠ []
  first : (closed ++ [cur]).head?.map RangeBlock.beginKey = some beginKey
  linked : closed.IsChain fun B B' => B.rangeEnd = B'.beginKey
  linked_cur : ∀ B ∈ closed.getLast?, B.rangeEnd = cur.beginKey
  last_eq : cur.kvs.getLast? = some (w.lastKey, w.lastValue) ∨ cur.kvs = [] ∧ closed = []
  written_eq : written = (closed.map fun B => B.kvs.dropLast).flatten ++ cur.kvs
  keys : ∀ B ∈ closed ++ [cur], BlockKeys K V written B

section Layout

variable {K V : ℕ} {beginKey : Key} {written : List (Key × Value)} {w : RangeFileWriter}
  {closed : List RangeBlock} {cur : RangeBlock}

lemma BlockKeys.mono {B : RangeBlock} (h : BlockKeys K V written B)
    {written' : List (Key × Value)} (hsub : ∀ kv ∈ written, kv ∈ written') :
    BlockKeys K V written' B :=
  { h with mem_written := fun kv hkv => hsub kv (h.mem_written kv hkv) }

lemma BlockKeys.push {B : RangeBlock} (h : BlockKeys K V written B) {k : Key} {v : Value}
    (hbegin : B.beginKey ≤ k) (hlt : ∀ kv ∈ written, kv.1 < k) (hk : k.length ≤ K)
    (hv : v.length ≤ V) : BlockKeys K V (written ++ [(k, v)]) { B with kvs := B.kvs ++ [(k, v)] } where
  sorted := by
    simp only [List.map_append, List.map_cons, List.map_nil, List.pairwise_append,
      List.pairwise_singleton, List.mem_singleton, List.mem_map, forall_exists_index, and_imp]
    exact ⟨h.sorted, trivial, fun _ kv hkv hfst _ hk' => hfst ▸ hk' ▸ hlt kv (h.mem_written kv hkv)⟩
  beginKey_le kv hkv := by
    rcases List.mem_append.mp hkv with hkv | hkv
    · exact h.beginKey_le kv hkv
    · rw [List.mem_singleton.mp hkv]
      exact hbegin
  mem_written kv hkv := by
    rcases List.mem_append.mp hkv with hkv | hkv
    · exact List.mem_append_left _ (h.mem_written kv hkv)
    · exact List.mem_append_right _ hkv
  length_beginKey := h.length_beginKey
  length_kvs kv hkv := by
    rcases List.mem_append.mp hkv with hkv | hkv
    · exact h.length_kvs kv hkv
    · rw [List.mem_singleton.mp hkv]
      exact ⟨hk, hv⟩
  length_endKey := h.length_endKey

lemma map_head?_append_singleton (l : List RangeBlock) (B : RangeBlock) {B' : RangeBlock}
    (h : B'.beginKey = B.beginKey) :
    (l ++ [B']).head?.map RangeBlock.beginKey = (l ++ [B]).head?.map RangeBlock.beginKey := by
  cases l <;> simp [h]

namespace Layout

lemma length_file (hL : Layout K V beginKey written w closed cur) :
    w.file.length = closed.length * w.blockSize + cur.bytes.length := by
  have hclosed : ((closed.map RangeBlock.bytes).flatten).length = closed.length * w.blockSize := by
    rw [Blocks.length_flatten_of_forall _ fun X hX => ?_, List.length_map]
    obtain ⟨B, hB, rfl⟩ := List.mem_map.mp hX
    exact (hL.closed_full B hB).1
  rw [hL.file_eq, List.length_append, hclosed]

lemma keys_cur (hL : Layout K V beginKey written w closed cur) : BlockKeys K V written cur :=
  hL.keys cur (List.mem_append_right _ (List.mem_singleton_self cur))

lemma beginKey_le (hL : Layout K V beginKey written w closed cur) {k : Key}
    (hlt : ∀ kv ∈ written, kv.1 < k) (hbegin : beginKey ≤ k) : cur.beginKey ≤ k := by
  cases hlast : cur.kvs.getLast? with
  | some kv =>
    have hkv : kv ∈ cur.kvs := List.mem_of_getLast? hlast
    exact (hL.keys_cur.beginKey_le kv hkv).trans (hlt kv (hL.keys_cur.mem_written kv hkv)).le
  | none =>
    -- no pair written yet: the open block is the first
    obtain ⟨-, rfl⟩ := hL.last_eq.resolve_left (by simp [hlast])
    have hfirst := hL.first
    simp only [List.nil_append, List.head?_cons, Option.map_some, Option.some.injEq] at hfirst
    exact hfirst ▸ hbegin

lemma push (hL : Layout K V beginKey written w closed cur) (hend : cur.endKey = none)
    (hpad : cur.padding = 0) {k : Key} {v : Value}
    (hfits : cur.bytes.length + (4 + k.length + 4 + v.length) ≤ w.blockSize) (hk : k.length ≤ K)
    (hv : v.length ≤ V) (hlt : ∀ kv ∈ written, kv.1 < k) (hbegin : beginKey ≤ k) :
    Layout K V beginKey (written ++ [(k, v)])
      { w with
        file := w.file ++ appendStringRefWithLen k ++ appendStringRefWithLen v
        lastKey := k
        lastValue := v }
      closed { cur with kvs := cur.kvs ++ [(k, v)] } where
  file_eq := by
    rw [hL.file_eq, ← RangeBlock.bytes_push hpad hend]
    simp only [List.append_assoc]
  blockEnd_eq := hL.blockEnd_eq
  cur_le := by
    have hlen := congrArg List.length (RangeBlock.bytes_push hpad hend k v)
    simp only [List.length_append, appendStringRefWithLen, BigEndian.length_toBytes] at hlen
    simp only
    omega
  closed_full := hL.closed_full
  first := by rw [map_head?_append_singleton closed cur (by rfl)]; exact hL.first
  linked := hL.linked
  linked_cur := hL.linked_cur
  last_eq := .inl List.getLast?_concat
  written_eq := by
    rw [hL.written_eq]
    simp
  keys B hB := by
    rcases List.mem_append.mp hB with hB | hB
    · exact (hL.keys B (List.mem_append_left _ hB)).mono fun kv hkv => List.mem_append_left _ hkv
    · rw [List.mem_singleton.mp hB]
      exact hL.keys_cur.push (hL.beginKey_le hlt hbegin) hlt hk hv

lemma close (hL : Layout K V beginKey written w closed cur) (hend : cur.endKey = none)
    (hpad : cur.padding = 0) {k : Key} (hfits : cur.bytes.length + (4 + k.length) ≤ w.blockSize)
    (hk : k.length ≤ K) :
    Layout K V beginKey written { w with file := w.file ++ appendStringRefWithLen k } closed
      { cur with endKey := some k } where
  file_eq := by
    rw [hL.file_eq, ← RangeBlock.bytes_close hpad hend]
    simp only [List.append_assoc]
  blockEnd_eq := hL.blockEnd_eq
  cur_le := by
    have hlen := congrArg List.length (RangeBlock.bytes_close hpad hend k)
    simp only [List.length_append, appendStringRefWithLen, BigEndian.length_toBytes] at hlen
    simp only
    omega
  closed_full := hL.closed_full
  first := by rw [map_head?_append_singleton closed cur (by rfl)]; exact hL.first
  linked := hL.linked
  linked_cur := hL.linked_cur
  last_eq := hL.last_eq
  written_eq := hL.written_eq
  keys B hB := by
    rcases List.mem_append.mp hB with hB | hB
    · exact hL.keys B (List.mem_append_left _ hB)
    · rw [List.mem_singleton.mp hB]
      exact { hL.keys_cur with length_endKey := fun k' hk' => Option.mem_some_iff.mp hk' ▸ hk }

lemma startBlock (hL : Layout K V beginKey written w closed cur) (hend : cur.endKey = none)
    (hpad : cur.padding = 0) {kv : Key × Value} (hlast : cur.kvs.getLast? = some kv)
    (hkv : kv = (w.lastKey, w.lastValue)) (hnext : w.nextBlock.bytes.length ≤ w.blockSize) :
    Layout K V beginKey written
      { w with
        file := w.file ++ makePadding (w.blockEnd - w.file.length) ++ w.nextBlock.bytes
        blockEnd := w.blockEnd + w.blockSize }
      (closed ++ [{ cur with padding := w.blockSize - cur.bytes.length }]) w.nextBlock := by
  subst hkv
  have hleft : w.blockEnd - w.file.length = w.blockSize - cur.bytes.length := by
    rw [hL.blockEnd_eq, hL.length_file, Nat.succ_mul]
    omega
  have hcp : ({ cur with padding := w.blockSize - cur.bytes.length } : RangeBlock).bytes.length =
      w.blockSize := by
    have hlen := congrArg List.length (RangeBlock.bytes_pad hpad (w.blockSize - cur.bytes.length))
    simp only [List.length_append, makePadding, List.length_replicate] at hlen
    have := hL.cur_le
    omega
  have hmem : (w.lastKey, w.lastValue) ∈ cur.kvs := List.mem_of_getLast? hlast
  obtain ⟨ys, hys⟩ := List.getLast?_eq_some_iff.mp hlast
  have hcur := hL.keys_cur
  refine ⟨?_, ?_, hnext, ?_, ?_, ?_, ?_, .inl rfl, ?_, ?_⟩
  · -- the padding completes the open block
    show w.file ++ makePadding (w.blockEnd - w.file.length) ++ w.nextBlock.bytes = _
    rw [hleft, hL.file_eq, List.append_assoc _ cur.bytes, RangeBlock.bytes_pad hpad]
    simp
  · simp only [List.length_append, List.length_singleton, hL.blockEnd_eq]
    rw [Nat.succ_mul (closed.length + 1)]
  · intro B hB
    rcases List.mem_append.mp hB with hB | hB
    · exact hL.closed_full B hB
    · rw [List.mem_singleton.mp hB]
      exact ⟨hcp, hend, by simp [hys]⟩
  · have hfirst := hL.first
    rw [List.head?_append] at hfirst ⊢
    cases closed <;> simpa using hfirst
  · exact List.IsChain.append hL.linked (List.isChain_singleton _) fun B hB B' hB' => by
      simp only [List.head?_cons, Option.mem_some_iff] at hB'
      subst hB'
      exact hL.linked_cur B hB
  · intro B hB
    simp only [List.getLast?_append, List.getLast?_singleton, Option.some_or,
      Option.mem_some_iff] at hB
    subst hB
    exact RangeBlock.rangeEnd_of_getLast? hend hlast
  · rw [hL.written_eq, hys]
    simp [RangeFileWriter.nextBlock]
  · intro B hB
    simp only [List.mem_append, List.mem_singleton] at hB
    rcases hB with (hB | rfl) | rfl
    · exact hL.keys B (List.mem_append_left _ hB)
    · -- the closed block keeps the open block's pairs
      exact ⟨hcur.sorted, hcur.beginKey_le, hcur.mem_written, hcur.length_beginKey,
        hcur.length_kvs, hcur.length_endKey⟩
    · exact
        { sorted := by simp [RangeFileWriter.nextBlock]
          beginKey_le := by simp [RangeFileWriter.nextBlock]
          mem_written := by simpa [RangeFileWriter.nextBlock] using hcur.mem_written _ hmem
          length_beginKey := (hcur.length_kvs _ hmem).1
          length_kvs := by simpa [RangeFileWriter.nextBlock] using hcur.length_kvs _ hmem
          length_endKey := by simp [RangeFileWriter.nextBlock] }

lemma init {k : Key} {blockSize : ℕ} (hk : k.length ≤ K) (h : 8 + k.length ≤ blockSize) :
    Layout K V k [] ⟨(RangeBlock.mk k [] none 0).bytes, blockSize, blockSize, [], []⟩ []
      ⟨k, [], none, 0⟩ where
  file_eq := by simp
  blockEnd_eq := by simp
  cur_le := by
    rw [RangeBlock.length_bytes]
    simp only [rangeBody_nil_none, List.length_nil]
    omega
  closed_full := by simp
  first := rfl
  linked := List.isChain_nil
  linked_cur := by simp
  last_eq := .inr ⟨rfl, rfl⟩
  written_eq := rfl
  keys B hB := by
    rw [List.nil_append, List.mem_singleton] at hB
    subst hB
    exact ⟨by simp, by simp, by simp, hk, by simp, by simp⟩

lemma newBlockIfNeeded (hL : Layout K V beginKey written w closed cur) (hend : cur.endKey = none)
    (hpad : cur.padding = 0) (hbs : 4 + 3 * (4 + K) + 2 * (4 + V) ≤ w.blockSize) {n : ℕ}
    (hn : n ≤ 4 + K + 4 + V) :
    ∃ w₁ closed₁ cur₁, w.newBlockIfNeeded n = .ok w₁ ∧ Layout K V beginKey written w₁ closed₁ cur₁ ∧
      cur₁.endKey = none ∧ cur₁.padding = 0 ∧ cur₁.bytes.length + n ≤ w₁.blockSize ∧
      w₁.blockSize = w.blockSize := by
  have hfile := hL.length_file
  have hblockEnd := hL.blockEnd_eq
  have hcurle := hL.cur_le
  rw [Nat.succ_mul] at hblockEnd
  by_cases hfits : w.file.length + n ≤ w.blockEnd
  · exact ⟨w, closed, cur, RangeFileWriter.newBlockIfNeeded_of_le hfits, hL, hend, hpad,
      by omega, rfl⟩
  · -- a block that is full holds a pair: the first one has room for the begin key and a pair
    obtain ⟨kv, hlast⟩ : ∃ kv, cur.kvs.getLast? = some kv := by
      rcases hL.last_eq with h | ⟨hnil, rfl⟩
      · exact ⟨_, h⟩
      · refine absurd ?_ hfits
        have hlen : cur.bytes.length = 8 + cur.beginKey.length := by
          rw [RangeBlock.length_bytes, hnil, hend, hpad]
          simp
        have := hL.keys_cur.length_beginKey
        simp only [List.length_nil, Nat.zero_mul, Nat.zero_add] at hfile hblockEnd
        omega
    have hkv : kv = (w.lastKey, w.lastValue) := by
      rcases hL.last_eq with h | ⟨hnil, -⟩
      · exact Option.some.inj (hlast.symm.trans h)
      · simp [hnil] at hlast
    have hlk : w.lastKey.length ≤ K ∧ w.lastValue.length ≤ V :=
      hL.keys_cur.length_kvs _ (hkv ▸ List.mem_of_getLast? hlast)
    have hnext : w.nextBlock.bytes.length = 16 + 2 * w.lastKey.length + w.lastValue.length := by
      simp [RangeFileWriter.nextBlock, RangeBlock.length_bytes, rangeBody, encodeKV,
        appendStringRefWithLen]
      omega
    refine ⟨_, _, w.nextBlock, ?_, hL.startBlock hend hpad hlast hkv (by omega), rfl, rfl,
      by simp only; omega, rfl⟩
    rw [RangeFileWriter.newBlockIfNeeded_of_lt (by omega),
      RangeFileWriter.newBlock_of_pos (by omega) (by omega) (by omega)]

lemma padEnd (hL : Layout K V beginKey written w closed cur) (hpad : cur.padding = 0) :
    ∃ w' cur', w.padEnd = .ok w' ∧ Layout K V beginKey written w' closed cur' ∧
      cur'.endKey = cur.endKey ∧ w'.blockSize = w.blockSize := by
  have hfile := hL.length_file
  have hblockEnd := hL.blockEnd_eq
  rw [Nat.succ_mul] at hblockEnd
  have hpos : 0 < w.file.length := by
    rw [hfile, RangeBlock.length_bytes]
    omega
  have hcur := hL.keys_cur
  refine ⟨{ w with file := w.file ++ makePadding (w.blockSize - cur.bytes.length) },
    { cur with padding := w.blockSize - cur.bytes.length }, ?_, ⟨?_, hL.blockEnd_eq, ?_,
    hL.closed_full, ?_, hL.linked, hL.linked_cur, hL.last_eq, hL.written_eq, ?_⟩, rfl, rfl⟩
  · have hleft : w.blockEnd - w.file.length = w.blockSize - cur.bytes.length := by omega
    simp only [RangeFileWriter.padEnd, hpos, if_true, RangeFileWriter.newBlock, hleft]
  · rw [hL.file_eq, List.append_assoc, RangeBlock.bytes_pad hpad]
  · have hlen := congrArg List.length (RangeBlock.bytes_pad hpad (w.blockSize - cur.bytes.length))
    simp only [List.length_append, makePadding, List.length_replicate] at hlen
    have := hL.cur_le
    show _ ≤ w.blockSize
    omega
  · rw [map_head?_append_singleton closed cur (by rfl)]
    exact hL.first
  · intro B hB
    rcases List.mem_append.mp hB with hB | hB
    · exact hL.keys B (List.mem_append_left _ hB)
    · rw [List.mem_singleton.mp hB]
      exact ⟨hcur.sorted, hcur.beginKey_le, hcur.mem_written, hcur.length_beginKey,
        hcur.length_kvs, hcur.length_endKey⟩

lemma writeKV (hL : Layout K V beginKey written w closed cur) (hend : cur.endKey = none)
    (hpad : cur.padding = 0) (hbs : 4 + 3 * (4 + K) + 2 * (4 + V) ≤ w.blockSize) {k : Key}
    {v : Value} (hk : k.length ≤ K) (hv : v.length ≤ V) (hlt : ∀ kv ∈ written, kv.1 < k)
    (hbegin : beginKey ≤ k) :
    ∃ w' closed' cur', w.writeKV k v = .ok w' ∧
      Layout K V beginKey (written ++ [(k, v)]) w' closed' cur' ∧ cur'.endKey = none ∧
      cur'.padding = 0 ∧ w'.blockSize = w.blockSize := by
  obtain ⟨w₁, closed₁, cur₁, hnb, hL₁, hend₁, hpad₁, hfits, hbs₁⟩ :=
    hL.newBlockIfNeeded hend hpad hbs (show 4 + k.length + 4 + v.length ≤ 4 + K + 4 + V by omega)
  refine ⟨_, closed₁, _, ?_, hL₁.push hend₁ hpad₁ hfits hk hv hlt hbegin, hend₁, hpad₁, hbs₁⟩
  rw [RangeFileWriter.writeKV, hnb]
  rfl

lemma writeKey (hL : Layout K V beginKey written w closed cur) (hend : cur.endKey = none)
    (hpad : cur.padding = 0) (hbs : 4 + 3 * (4 + K) + 2 * (4 + V) ≤ w.blockSize) {k : Key}
    (hk : k.length ≤ K) :
    ∃ w' closed' cur', w.writeKey k = .ok w' ∧ Layout K V beginKey written w' closed' cur' ∧
      cur'.endKey = some k ∧ cur'.padding = 0 ∧ w'.blockSize = w.blockSize := by
  obtain ⟨w₁, closed₁, cur₁, hnb, hL₁, hend₁, hpad₁, hfits, hbs₁⟩ :=
    hL.newBlockIfNeeded hend hpad hbs (show 4 + k.length ≤ 4 + K + 4 + V by omega)
  refine ⟨_, closed₁, _, ?_, hL₁.close hend₁ hpad₁ hfits hk, rfl, hpad₁, hbs₁⟩
  rw [RangeFileWriter.writeKey, hnb]
  rfl

lemma foldlM_writeKV :
    ∀ (kvs : List (Key × Value)) {written : List (Key × Value)} {w : RangeFileWriter}
      {closed : List RangeBlock} {cur : RangeBlock},
      Layout K V beginKey written w closed cur → cur.endKey = none → cur.padding = 0 →
      4 + 3 * (4 + K) + 2 * (4 + V) ≤ w.blockSize →
      (∀ kv ∈ kvs, kv.1.length ≤ K ∧ kv.2.length ≤ V) →
      ((written ++ kvs).map Prod.fst).Pairwise (· < ·) → (∀ kv ∈ kvs, beginKey ≤ kv.1) →
      ∃ w' closed' cur', kvs.foldlM (fun w kv => w.writeKV kv.1 kv.2) w = .ok w' ∧
        Layout K V beginKey (written ++ kvs) w' closed' cur' ∧ cur'.endKey = none ∧
        cur'.padding = 0 ∧ w'.blockSize = w.blockSize
  | [], written, w, closed, cur, hL, hend, hpad, _, _, _, _ =>
    ⟨w, closed, cur, rfl, by simpa using hL, hend, hpad, rfl⟩
  | (k, v) :: kvs, written, w, closed, cur, hL, hend, hpad, hbs, hkvs, hsorted, hbegin => by
    have hlt : ∀ kv ∈ written, kv.1 < k := by
      simp only [List.map_append, List.map_cons, List.pairwise_append, List.mem_map,
        List.mem_cons] at hsorted
      exact fun kv hkv => hsorted.2.2 _ ⟨kv, hkv, rfl⟩ _ (.inl rfl)
    obtain ⟨w₁, closed₁, cur₁, hw₁, hL₁, hend₁, hpad₁, hbs₁⟩ :=
      hL.writeKV hend hpad hbs (hkvs (k, v) List.mem_cons_self).1
        (hkvs (k, v) List.mem_cons_self).2 hlt (hbegin (k, v) List.mem_cons_self)
    obtain ⟨w', closed', cur', hw', hL', hend', hpad', hbs'⟩ :=
      foldlM_writeKV kvs hL₁ hend₁ hpad₁ (hbs₁ ▸ hbs)
        (fun kv hkv => hkvs kv (List.mem_cons_of_mem _ hkv)) (by simpa using hsorted)
        (fun kv hkv => hbegin kv (List.mem_cons_of_mem _ hkv))
    refine ⟨w', closed', cur', ?_, by simpa using hL', hend', hpad', hbs'.trans hbs₁⟩
    rw [List.foldlM_cons, hw₁]
    exact hw'

/-! The finished file: the end key is in the open block. -/

section Finished

variable {endKey : Key} (hL : Layout K V beginKey written w closed cur)
  (hend : cur.endKey = some endKey)
include hL hend

lemma decodable (hK : K < 2 ^ 31) (hV : V < 2 ^ 31) : ∀ B ∈ closed ++ [cur], B.Decodable := by
  intro B hB
  have hkeys := hL.keys B hB
  refine ⟨?_, by have := hkeys.length_beginKey; omega, fun kv hkv => ?_, fun k hk => ?_⟩
  · rcases List.mem_append.mp hB with hB | hB
    · exact .inl (hL.closed_full B hB).2.2
    · rw [List.mem_singleton.mp hB, hend]
      exact .inr rfl
  · have := hkeys.length_kvs kv hkv
    omega
  · have := hkeys.length_endKey k hk
    omega

lemma mapM_decodeRangeFileBlock (hK : K < 2 ^ 31) (hV : V < 2 ^ 31) (hbs : 0 < w.blockSize) :
    (Blocks.reads w.blockSize w.file.length).mapM (fun r => decodeRangeFileBlock w.file r.1 r.2) =
      .ok ((closed ++ [cur]).map RangeBlock.entries) := by
  have hfile : w.file = ((closed ++ [cur]).map RangeBlock.bytes).flatten := by
    rw [hL.file_eq]
    simp
  have hfull : Blocks.Full w.blockSize ((closed ++ [cur]).map RangeBlock.bytes) := by
    rw [List.map_append, List.map_singleton]
    refine Blocks.full_append_singleton _ _ (fun X hX => ?_) ?_ hL.cur_le
    · obtain ⟨B, hB, rfl⟩ := List.mem_map.mp hX
      exact (hL.closed_full B hB).1
    · rw [RangeBlock.length_bytes]
      omega
  rw [hfile, Blocks.mapM_reads_flatten hbs _ hfull _ decodeRangeFileBlock_piece, List.mapM_map]
  refine Blocks.mapM_eq_pure_map _ fun B hB => ?_
  rw [Function.comp_apply, RangeBlock.decodeRangeFileBlock_bytes (hL.decodable hend hK hV B hB)]
  rfl

lemma two_le_length_entries : ∀ B ∈ closed ++ [cur], 2 ≤ B.entries.length := by
  intro B hB
  rcases List.mem_append.mp hB with hB | hB
  · have hne := (hL.closed_full B hB).2.2
    have : 0 < B.kvs.length := List.length_pos_iff.mpr hne
    simp [RangeBlock.entries]
    omega
  · rw [List.mem_singleton.mp hB]
    simp [RangeBlock.entries, hend]

lemma tiles :
    beginKey :: (closed ++ [cur]).map RangeBlock.rangeEnd =
      (closed ++ [cur]).map RangeBlock.beginKey ++ [endKey] := by
  refine Blocks.cons_map_eq_map_append_of_isChain _ _ _ ?_ hL.first ?_
  · exact List.IsChain.append hL.linked (List.isChain_singleton cur) fun B hB B' hB' => by
      simp only [List.head?_cons, Option.mem_some_iff] at hB'
      subst hB'
      exact hL.linked_cur B hB
  · simp [RangeBlock.rangeEnd_of_endKey hend]

lemma flatten_blockPairs :
    ((closed ++ [cur]).map fun B => blockPairs B.entries).flatten = written := by
  have hclosed : closed.map (fun B => blockPairs B.entries) = closed.map fun B => B.kvs.dropLast :=
    List.map_congr_left fun B hB => by
      simp [blockPairs, RangeBlock.entries, (hL.closed_full B hB).2.1]
  rw [List.map_append, hclosed, hL.written_eq]
  simp [blockPairs, RangeBlock.entries, hend]

lemma mem_blockRange (hlt : ∀ kv ∈ written, kv.1 < endKey) :
    ∀ B ∈ closed ++ [cur], ∀ kv ∈ blockPairs B.entries, B.beginKey ≤ kv.1 ∧ kv.1 < B.rangeEnd := by
  intro B hB kv hkv
  have hkeys := hL.keys B hB
  rcases List.mem_append.mp hB with hB | hB
  · -- a closed block restores all its pairs but the last, whose key ends its range
    have hnone := (hL.closed_full B hB).2.1
    obtain ⟨last, hlast⟩ := Option.ne_none_iff_exists'.mp
      (List.getLast?_eq_none_iff.not.mpr (hL.closed_full B hB).2.2)
    obtain ⟨ys, hys⟩ := List.getLast?_eq_some_iff.mp hlast
    have hkv' : kv ∈ ys := by simpa [blockPairs, RangeBlock.entries, hnone, hys] using hkv
    refine ⟨hkeys.beginKey_le kv (hys ▸ List.mem_append_left _ hkv'), ?_⟩
    rw [RangeBlock.rangeEnd_of_getLast? hnone hlast]
    have hsorted := hkeys.sorted
    rw [hys, List.map_append, List.pairwise_append] at hsorted
    exact hsorted.2.2 _ (List.mem_map_of_mem hkv') _ (by simp)
  · rw [List.mem_singleton.mp hB] at hkv hkeys ⊢
    have hkv' : kv ∈ cur.kvs := by simpa [blockPairs, RangeBlock.entries, hend] using hkv
    rw [RangeBlock.rangeEnd_of_endKey hend]
    exact ⟨hkeys.beginKey_le kv hkv', hlt kv (hkeys.mem_written kv hkv')⟩

lemma beginKey_le_rangeEnd (hlt : ∀ kv ∈ written, kv.1 < endKey) (hbegin : beginKey ≤ endKey) :
    ∀ B ∈ closed ++ [cur], B.beginKey ≤ B.rangeEnd := by
  intro B hB
  rcases List.mem_append.mp hB with hB' | hB'
  · -- a closed block ends at the key of its last pair
    obtain ⟨last, hlast⟩ := Option.ne_none_iff_exists'.mp
      (List.getLast?_eq_none_iff.not.mpr (hL.closed_full B hB').2.2)
    rw [RangeBlock.rangeEnd_of_getLast? (hL.closed_full B hB').2.1 hlast]
    exact (hL.keys B hB).beginKey_le last (List.mem_of_getLast? hlast)
  · rw [List.mem_singleton.mp hB', RangeBlock.rangeEnd_of_endKey hend]
    exact hL.beginKey_le hlt hbegin

end Finished

end Layout

end Layout

lemma writeRangeFile_layout {blockSize K V : ℕ} {beginKey endKey : Key} {kvs : List (Key × Value)}
    (pad : Bool) (hbs : 4 + 3 * (4 + K) + 2 * (4 + V) ≤ blockSize) (hb : beginKey.length ≤ K)
    (he : endKey.length ≤ K) (hkvs : ∀ kv ∈ kvs, kv.1.length ≤ K ∧ kv.2.length ≤ V)
    (hsorted : (kvs.map Prod.fst).Pairwise (· < ·)) (hbegin : ∀ kv ∈ kvs, beginKey ≤ kv.1) :
    ∃ w closed cur, writeRangeFile blockSize beginKey kvs endKey pad = .ok w.file ∧
      Layout K V beginKey kvs w closed cur ∧ cur.endKey = some endKey ∧
      w.blockSize = blockSize := by
  have hL₀ : Layout K V beginKey [] _ [] _ := Layout.init hb (show 8 + beginKey.length ≤ blockSize by omega)
  obtain ⟨w₁, closed₁, cur₁, hw₁, hL₁, hend₁, hpad₁, hbs₁⟩ :=
    Layout.foldlM_writeKV kvs hL₀ rfl rfl hbs hkvs (by simpa using hsorted) hbegin
  obtain ⟨w₂, closed₂, cur₂, hw₂, hL₂, hend₂, hpad₂, hbs₂⟩ :=
    hL₁.writeKey hend₁ hpad₁ (hbs₁ ▸ hbs) he
  have hinit := RangeFileWriter.init_writeKey (show 8 + beginKey.length ≤ blockSize by omega)
  cases pad with
  | false =>
    refine ⟨w₂, closed₂, cur₂, ?_, by simpa using hL₂, hend₂, hbs₂.trans hbs₁⟩
    simp [writeRangeFile, hinit, hw₁, hw₂]
  | true =>
    -- in simulation the last block is padded as well
    obtain ⟨w₃, cur₃, hw₃, hL₃, hend₃, hbs₃⟩ := hL₂.padEnd hpad₂
    refine ⟨w₃, closed₂, cur₃, ?_, by simpa using hL₃, hend₃.trans hend₂,
      hbs₃.trans (hbs₂.trans hbs₁)⟩
    simp [writeRangeFile, hinit, hw₁, hw₂, hw₃]

/-! ### Log files

A log block is its header, its pairs and its padding; it decodes to its pairs. The log writer
starts a block whenever a pair does not fit in the current one. -/

structure LogBlock where
  kvs : List (Key × Value)
  padding : ℕ

namespace LogBlock

def bytes (B : LogBlock) : List (Fin 256) :=
  LittleEndian.toBytes 4 backupAgentMlogVersion ++ (B.kvs.flatMap encodeKV ++ makePadding B.padding)

lemma bytes_push {B : LogBlock} (hpad : B.padding = 0) (k : Key) (v : Value) :
    B.bytes ++ appendStringRefWithLen k ++ appendStringRefWithLen v =
      { B with kvs := B.kvs ++ [(k, v)] }.bytes := by
  simp [bytes, hpad, makePadding, encodeKV]

lemma bytes_pad {B : LogBlock} (hpad : B.padding = 0) (p : ℕ) :
    B.bytes ++ makePadding p = { B with padding := p }.bytes := by
  simp [bytes, hpad, makePadding]

lemma bytes_single (k : Key) (v : Value) :
    (LogBlock.mk [(k, v)] 0).bytes = LittleEndian.toBytes 4 backupAgentMlogVersion ++
      appendStringRefWithLen k ++ appendStringRefWithLen v := by
  simp [bytes, makePadding, encodeKV]

lemma length_bytes (B : LogBlock) :
    B.bytes.length = 4 + (B.kvs.flatMap encodeKV).length + B.padding := by
  simp [bytes, makePadding]
  omega

end LogBlock

lemma readLogKVs_flatMap (e : FileError) (p : ℕ) :
    ∀ (kvs : List (Key × Value)) (fuel : ℕ) (results : List (Key × Value)), ShortKVs kvs →
      kvs.length < fuel →
      (readLogKVs fuel results).run ⟨kvs.flatMap encodeKV ++ makePadding p, e⟩ =
        .ok (results ++ kvs, ⟨makePadding p, e⟩)
  | [], fuel + 1, results, _, _ => by
    rw [readLogKVs, List.flatMap_nil, List.nil_append, run_bind_of_ok (atBlockEnd_makePadding p e)]
    simp
  | (k, v) :: kvs, fuel + 1, results, hshort, hlen => by
    have hk : k.length < 2 ^ 31 ∧ v.length < 2 ^ 31 := hshort (k, v) List.mem_cons_self
    have hkvs : ShortKVs kvs := fun kv hkv => hshort kv (List.mem_cons_of_mem _ hkv)
    rw [readLogKVs, List.flatMap_cons, encodeKV, List.append_assoc, List.append_assoc,
      run_bind_of_ok (atBlockEnd_appendStringRefWithLen hk.1 _ e)]
    simp only [Bool.false_eq_true, if_false]
    rw [read_appendStringRefWithLen (by omega), read_appendStringRefWithLen (by omega),
      readLogKVs_flatMap e p kvs fuel _ hkvs (by simpa using hlen)]
    simp

lemma LogBlock.readLogFileBlock_bytes {B : LogBlock} (hB : ShortKVs B.kvs) {fuel : ℕ}
    (hfuel : B.kvs.length < fuel) (e : FileError) :
    (readLogFileBlock fuel).run ⟨B.bytes, e⟩ = .ok (B.kvs, ⟨makePadding B.padding, e⟩) := by
  rw [readLogFileBlock, LogBlock.bytes, run_bind_of_ok (consumeInt32_header (by decide) _ e)]
  simp only [backupAgentMlogVersion, ne_eq, not_true_eq_false, if_false]
  rw [run_bind_of_ok (readLogKVs_flatMap e B.padding B.kvs fuel [] hB hfuel),
    run_bind_of_ok (remainder_run _)]
  simp [makePadding]

/-- A block as the log writer lays it out decodes to its pairs. -/
theorem LogBlock.decodeLogFileBlock_bytes {B : LogBlock} (hB : ShortKVs B.kvs) :
    decodeLogFileBlock B.bytes 0 B.bytes.length = .ok B.kvs := by
  have hfuel : B.kvs.length < B.bytes.length + 1 := by
    have := length_le_length_rangeBody B.kvs none
    simp only [rangeBody, Option.map_none, Option.getD_none, List.append_nil] at this
    rw [LogBlock.length_bytes]
    omega
  simp [decodeLogFileBlock, LogBlock.readLogFileBlock_bytes hB hfuel]

namespace LogFileWriter

lemma writeKV_of_le {w : LogFileWriter} {k : Key} {v : Value}
    (hfits : w.file.length + (4 + k.length + 4 + v.length) ≤ w.blockEnd) :
    w.writeKV k v =
      .ok { w with file := w.file ++ appendStringRefWithLen k ++ appendStringRefWithLen v } := by
  have hlen : ¬(w.file ++ appendStringRefWithLen k ++ appendStringRefWithLen v).length > w.blockEnd := by
    simp only [List.length_append, appendStringRefWithLen, BigEndian.length_toBytes]
    omega
  simp only [writeKV, gt_iff_lt, Nat.not_lt.mpr hfits, if_false]
  rw [if_neg hlen]

lemma writeKV_of_lt {w : LogFileWriter} {k : Key} {v : Value}
    (h : w.blockEnd < w.file.length + (4 + k.length + 4 + v.length))
    (hfile : w.file.length ≤ w.blockEnd) (hfits : 4 + (4 + k.length + 4 + v.length) ≤ w.blockSize) :
    w.writeKV k v = .ok { w with
      file := w.file ++ makePadding (w.blockEnd - w.file.length) ++ (LogBlock.mk [(k, v)] 0).bytes
      blockEnd := w.blockEnd + w.blockSize } := by
  have hlen : ¬(w.file ++ makePadding (w.blockEnd - w.file.length) ++
      LittleEndian.toBytes 4 backupAgentMlogVersion ++ appendStringRefWithLen k ++
      appendStringRefWithLen v).length > w.blockEnd + w.blockSize := by
    simp only [List.length_append, makePadding, List.length_replicate, appendStringRefWithLen,
      BigEndian.length_toBytes, LittleEndian.length_toBytes]
    omega
  simp only [writeKV, gt_iff_lt, h, if_true]
  rw [if_neg hlen, LogBlock.bytes_single]
  simp only [List.append_assoc]

end LogFileWriter

/-- How the log writer's file stands after its first pair: full closed blocks, then the open
block; every block holds a pair, and the blocks' pairs are those written. -/
structure LogLayout (written : List (Key × Value)) (w : LogFileWriter) (closed : List LogBlock)
    (cur : LogBlock) : Prop where
  file_eq : w.file = (closed.map LogBlock.bytes).flatten ++ cur.bytes
  blockEnd_eq : w.blockEnd = (closed.length + 1) * w.blockSize
  cur_le : cur.bytes.length ≤ w.blockSize
  cur_pad : cur.padding = 0
  closed_full : ∀ B ∈ closed, B.bytes.length = w.blockSize
  nonempty : ∀ B ∈ closed ++ [cur], B.kvs ≠ []
  written_eq : written = ((closed ++ [cur]).map LogBlock.kvs).flatten

namespace LogLayout

variable {written : List (Key × Value)} {w : LogFileWriter} {closed : List LogBlock} {cur : LogBlock}

lemma length_file (hL : LogLayout written w closed cur) :
    w.file.length = closed.length * w.blockSize + cur.bytes.length := by
  have hclosed : ((closed.map LogBlock.bytes).flatten).length = closed.length * w.blockSize := by
    rw [Blocks.length_flatten_of_forall _ fun X hX => ?_, List.length_map]
    obtain ⟨B, hB, rfl⟩ := List.mem_map.mp hX
    exact hL.closed_full B hB
  rw [hL.file_eq, List.length_append, hclosed]

lemma first {blockSize : ℕ} {k : Key} {v : Value}
    (hfits : 4 + (4 + k.length + 4 + v.length) ≤ blockSize) :
    ∃ w, (LogFileWriter.init blockSize).writeKV k v = .ok w ∧
      LogLayout [(k, v)] w [] (LogBlock.mk [(k, v)] 0) ∧ w.blockSize = blockSize := by
  have hwrite := LogFileWriter.writeKV_of_lt (w := LogFileWriter.init blockSize) (k := k) (v := v)
    (by simp [LogFileWriter.init]) (by simp [LogFileWriter.init]) hfits
  refine ⟨_, hwrite, ⟨by simp [LogFileWriter.init, makePadding], by simp [LogFileWriter.init], ?_, rfl,
    by simp, by simp, by simp⟩, rfl⟩
  rw [LogBlock.bytes_single]
  simp only [List.length_append, LittleEndian.length_toBytes, appendStringRefWithLen,
    BigEndian.length_toBytes]
  simp only [LogFileWriter.init]
  omega

lemma writeKV (hL : LogLayout written w closed cur) {k : Key} {v : Value}
    (hfits : 4 + (4 + k.length + 4 + v.length) ≤ w.blockSize) :
    ∃ w' closed' cur', w.writeKV k v = .ok w' ∧ LogLayout (written ++ [(k, v)]) w' closed' cur' ∧
      w'.blockSize = w.blockSize := by
  have hfile := hL.length_file
  have hblockEnd := hL.blockEnd_eq
  have hcurle := hL.cur_le
  rw [Nat.succ_mul] at hblockEnd
  by_cases hle : w.file.length + (4 + k.length + 4 + v.length) ≤ w.blockEnd
  · refine ⟨_, closed, { cur with kvs := cur.kvs ++ [(k, v)] }, LogFileWriter.writeKV_of_le hle,
      ⟨?_, hL.blockEnd_eq, ?_, hL.cur_pad, hL.closed_full, ?_, ?_⟩, rfl⟩
    · rw [hL.file_eq, ← LogBlock.bytes_push hL.cur_pad]
      simp only [List.append_assoc]
    · have hlen := congrArg List.length (LogBlock.bytes_push hL.cur_pad k v)
      simp only [List.length_append, appendStringRefWithLen, BigEndian.length_toBytes] at hlen
      show _ ≤ w.blockSize
      omega
    · intro B hB
      rcases List.mem_append.mp hB with hB | hB
      · exact hL.nonempty B (List.mem_append_left _ hB)
      · rw [List.mem_singleton.mp hB]
        simp
    · rw [hL.written_eq]
      simp
  · -- the pair starts the next block; the open block is padded to the block size
    have hleft : w.blockEnd - w.file.length = w.blockSize - cur.bytes.length := by omega
    refine ⟨_, closed ++ [{ cur with padding := w.blockSize - cur.bytes.length }],
      LogBlock.mk [(k, v)] 0, LogFileWriter.writeKV_of_lt (by omega) (by omega) hfits,
      ⟨?_, ?_, ?_, rfl, ?_, ?_, ?_⟩, rfl⟩
    · show w.file ++ makePadding (w.blockEnd - w.file.length) ++ _ = _
      rw [hleft, hL.file_eq, List.append_assoc _ cur.bytes, LogBlock.bytes_pad hL.cur_pad]
      simp
    · simp only [List.length_append, List.length_singleton, hL.blockEnd_eq]
      rw [Nat.succ_mul (closed.length + 1)]
    · rw [LogBlock.bytes_single]
      simp only [List.length_append, LittleEndian.length_toBytes, appendStringRefWithLen,
        BigEndian.length_toBytes]
      omega
    · intro B hB
      rcases List.mem_append.mp hB with hB | hB
      · exact hL.closed_full B hB
      · rw [List.mem_singleton.mp hB]
        have hlen := congrArg List.length
          (LogBlock.bytes_pad hL.cur_pad (w.blockSize - cur.bytes.length))
        simp only [List.length_append, makePadding, List.length_replicate] at hlen
        show _ = w.blockSize
        omega
    · intro B hB
      simp only [List.mem_append, List.mem_singleton] at hB
      rcases hB with (hB | rfl) | rfl
      · exact hL.nonempty B (List.mem_append_left _ hB)
      · exact hL.nonempty cur (List.mem_append_right _ (List.mem_singleton_self cur))
      · simp
    · rw [hL.written_eq]
      simp

lemma foldlM_writeKV :
    ∀ (kvs : List (Key × Value)) {written : List (Key × Value)} {w : LogFileWriter}
      {closed : List LogBlock} {cur : LogBlock}, LogLayout written w closed cur →
      (∀ kv ∈ kvs, 4 + (4 + kv.1.length + 4 + kv.2.length) ≤ w.blockSize) →
      ∃ w' closed' cur', kvs.foldlM (fun w kv => w.writeKV kv.1 kv.2) w = .ok w' ∧
        LogLayout (written ++ kvs) w' closed' cur' ∧ w'.blockSize = w.blockSize
  | [], written, w, closed, cur, hL, _ => ⟨w, closed, cur, rfl, by simpa using hL, rfl⟩
  | (k, v) :: kvs, written, w, closed, cur, hL, hfits => by
    obtain ⟨w₁, closed₁, cur₁, hw₁, hL₁, hbs₁⟩ := hL.writeKV (hfits (k, v) List.mem_cons_self)
    obtain ⟨w', closed', cur', hw', hL', hbs'⟩ := foldlM_writeKV kvs hL₁
      fun kv hkv => hbs₁ ▸ hfits kv (List.mem_cons_of_mem _ hkv)
    refine ⟨w', closed', cur', ?_, by simpa using hL', hbs'.trans hbs₁⟩
    rw [List.foldlM_cons, hw₁]
    exact hw'

lemma mapM_decodeLogFileBlock (hL : LogLayout written w closed cur) (hshort : ShortKVs written)
    (hbs : 0 < w.blockSize) :
    (Blocks.reads w.blockSize w.file.length).mapM (fun r => decodeLogFileBlock w.file r.1 r.2) =
      .ok ((closed ++ [cur]).map LogBlock.kvs) := by
  have hfile : w.file = ((closed ++ [cur]).map LogBlock.bytes).flatten := by
    rw [hL.file_eq]
    simp
  have hfull : Blocks.Full w.blockSize ((closed ++ [cur]).map LogBlock.bytes) := by
    rw [List.map_append, List.map_singleton]
    refine Blocks.full_append_singleton _ _ (fun X hX => ?_) ?_ hL.cur_le
    · obtain ⟨B, hB, rfl⟩ := List.mem_map.mp hX
      exact hL.closed_full B hB
    · rw [LogBlock.length_bytes]
      omega
  rw [hfile, Blocks.mapM_reads_flatten hbs _ hfull _ decodeLogFileBlock_piece, List.mapM_map]
  refine Blocks.mapM_eq_pure_map _ fun B hB => ?_
  have hB' : ShortKVs B.kvs := fun kv hkv =>
    hshort kv (hL.written_eq ▸ List.mem_flatten_of_mem (List.mem_map_of_mem hB) hkv)
  rw [Function.comp_apply, LogBlock.decodeLogFileBlock_bytes hB']
  rfl

end LogLayout

/-! ### Round trips -/

section RoundTrip

variable {blockSize K V : ℕ}

lemma rangeFile_decodes (hbs : 4 + 3 * (4 + K) + 2 * (4 + V) ≤ blockSize)
    (hint : blockSize < 2 ^ 31) {beginKey endKey : Key} {kvs : List (Key × Value)} (pad : Bool)
    (hb : beginKey.length ≤ K) (he : endKey.length ≤ K)
    (hkvs : ∀ kv ∈ kvs, kv.1.length ≤ K ∧ kv.2.length ≤ V)
    (hsorted : (kvs.map Prod.fst).Pairwise (· < ·))
    (hrange : ∀ kv ∈ kvs, beginKey ≤ kv.1 ∧ kv.1 < endKey) :
    ∃ file Ds, writeRangeFile blockSize beginKey kvs endKey pad = .ok file ∧
      (Blocks.reads blockSize file.length).mapM (fun r => decodeRangeFileBlock file r.1 r.2) =
        .ok Ds ∧
      Ds ≠ [] ∧ (∀ D ∈ Ds, 2 ≤ D.length) ∧
      beginKey :: Ds.map (fun D => (blockRange D).2) = Ds.map (fun D => (blockRange D).1) ++ [endKey] ∧
      (Ds.map blockPairs).flatten = kvs ∧
      ∀ D ∈ Ds, ∀ kv ∈ blockPairs D, (blockRange D).1 ≤ kv.1 ∧ kv.1 < (blockRange D).2 := by
  obtain ⟨w, closed, cur, hw, hL, hend, hbs'⟩ := writeRangeFile_layout pad hbs hb he hkvs hsorted
    fun kv hkv => (hrange kv hkv).1
  subst hbs'
  refine ⟨w.file, (closed ++ [cur]).map RangeBlock.entries, hw,
    hL.mapM_decodeRangeFileBlock hend (by omega) (by omega) (by omega), by simp, ?_, ?_, ?_, ?_⟩
  · intro D hD
    obtain ⟨B, hB, rfl⟩ := List.mem_map.mp hD
    exact hL.two_le_length_entries hend B hB
  · simpa [Function.comp_def] using hL.tiles hend
  · simpa [Function.comp_def] using hL.flatten_blockPairs hend
  · intro D hD kv hkv
    obtain ⟨B, hB, rfl⟩ := List.mem_map.mp hD
    simpa using hL.mem_blockRange hend (fun kv hkv => (hrange kv hkv).2) B hB kv hkv

lemma blockRange_le_of_rangeFile (hbs : 4 + 3 * (4 + K) + 2 * (4 + V) ≤ blockSize)
    (hint : blockSize < 2 ^ 31) {beginKey endKey : Key} {kvs : List (Key × Value)} {pad : Bool}
    (hb : beginKey.length ≤ K) (he : endKey.length ≤ K)
    (hkvs : ∀ kv ∈ kvs, kv.1.length ≤ K ∧ kv.2.length ≤ V)
    (hsorted : (kvs.map Prod.fst).Pairwise (· < ·))
    (hrange : ∀ kv ∈ kvs, beginKey ≤ kv.1 ∧ kv.1 < endKey) (hbe : beginKey ≤ endKey)
    {file : List (Fin 256)} {Ds : List (List (Key × Value))}
    (hfile : writeRangeFile blockSize beginKey kvs endKey pad = .ok file)
    (hDs : (Blocks.reads blockSize file.length).mapM
      (fun r => decodeRangeFileBlock file r.1 r.2) = .ok Ds) :
    ∀ D ∈ Ds, (blockRange D).1 ≤ (blockRange D).2 := by
  obtain ⟨w, closed, cur, hw, hL, hend, hbs'⟩ := writeRangeFile_layout pad hbs hb he hkvs hsorted
    fun kv hkv => (hrange kv hkv).1
  subst hbs'
  obtain rfl : file = w.file := Except.ok.inj (hfile.symm.trans hw)
  obtain rfl : Ds = (closed ++ [cur]).map RangeBlock.entries := Except.ok.inj
    (hDs.symm.trans (hL.mapM_decodeRangeFileBlock hend (by omega) (by omega) (by omega)))
  intro D hD
  obtain ⟨B, hB, rfl⟩ := List.mem_map.mp hD
  simpa using hL.beginKey_le_rangeEnd hend (fun kv hkv => (hrange kv hkv).2) hbe B hB

lemma logFile_decodes (hint : blockSize < 2 ^ 31) {kvs : List (Key × Value)}
    (hfits : ∀ kv ∈ kvs, 4 + (4 + kv.1.length + 4 + kv.2.length) ≤ blockSize) :
    ∃ file Ds, writeLogFile blockSize kvs = .ok file ∧
      (Blocks.reads blockSize file.length).mapM (fun r => decodeLogFileBlock file r.1 r.2) =
        .ok Ds ∧
      (∀ D ∈ Ds, D ≠ []) ∧ Ds.flatten = kvs := by
  have hshort : ShortKVs kvs := fun kv hkv => by
    have := hfits kv hkv
    omega
  cases kvs with
  | nil => exact ⟨[], [], rfl, by simp [Blocks.reads_zero], by simp, rfl⟩
  | cons kv kvs =>
    obtain ⟨w₁, hw₁, hL₁, hbs₁⟩ := LogLayout.first (hfits kv List.mem_cons_self)
    obtain ⟨w, closed, cur, hw, hL, hbs⟩ := LogLayout.foldlM_writeKV kvs hL₁
      fun kv' hkv' => hbs₁ ▸ hfits kv' (List.mem_cons_of_mem _ hkv')
    have hsize : w.blockSize = blockSize := hbs.trans hbs₁
    subst hsize
    refine ⟨w.file, (closed ++ [cur]).map LogBlock.kvs, ?_, ?_, ?_, ?_⟩
    · simp [writeLogFile, List.foldlM_cons, hw₁, hw]
    · exact hL.mapM_decodeLogFileBlock (by simpa using hshort) (by have := hfits kv List.mem_cons_self; omega)
    · intro D hD
      obtain ⟨B, hB, rfl⟩ := List.mem_map.mp hD
      exact hL.nonempty B hB
    · rw [← hL.written_eq]
      rfl

end RoundTrip

/-- Backup range and log files decode block by block to exactly what was written. -/
theorem backupFiles_roundTrip (blockSize K V : ℕ) (hbs : 4 + 3 * (4 + K) + 2 * (4 + V) ≤ blockSize)
    (hint : blockSize < 2 ^ 31) :
    (∀ (beginKey endKey : Key) (kvs : List (Key × Value)) (pad : Bool),
      beginKey.length ≤ K → endKey.length ≤ K → (∀ kv ∈ kvs, kv.1.length ≤ K ∧ kv.2.length ≤ V) →
      (kvs.map Prod.fst).Pairwise (· < ·) → (∀ kv ∈ kvs, beginKey ≤ kv.1 ∧ kv.1 < endKey) →
      ∃ file Ds, writeRangeFile blockSize beginKey kvs endKey pad = .ok file ∧
        (Blocks.reads blockSize file.length).mapM (fun r => decodeRangeFileBlock file r.1 r.2) =
          .ok Ds ∧
        Ds ≠ [] ∧ (∀ D ∈ Ds, 2 ≤ D.length) ∧
        beginKey :: Ds.map (fun D => (blockRange D).2) =
          Ds.map (fun D => (blockRange D).1) ++ [endKey] ∧
        (Ds.map blockPairs).flatten = kvs ∧
        ∀ D ∈ Ds, ∀ kv ∈ blockPairs D, (blockRange D).1 ≤ kv.1 ∧ kv.1 < (blockRange D).2) ∧
    ∀ kvs : List (Key × Value), (∀ kv ∈ kvs, 4 + (4 + kv.1.length + 4 + kv.2.length) ≤ blockSize) →
      ∃ file Ds, writeLogFile blockSize kvs = .ok file ∧
        (Blocks.reads blockSize file.length).mapM (fun r => decodeLogFileBlock file r.1 r.2) =
          .ok Ds ∧
        (∀ D ∈ Ds, D ≠ []) ∧ Ds.flatten = kvs :=
  ⟨fun _ _ _ pad hb he hkvs hsorted hrange => rangeFile_decodes hbs hint pad hb he hkvs hsorted hrange,
    fun _ hfits => logFile_decodes hint hfits⟩

/-- With 64-byte blocks and keys and values of at most 4 bytes, a range file of two pairs
restores them. -/
theorem backupFiles_roundTrip_sample :
    ∃ file Ds, writeRangeFile 64 [1] [([3], [7, 7]), ([5], [8])] [9] false = .ok file ∧
      List.flatten (List.map blockPairs Ds) = [([3], [7, 7]), ([5], [8])] := by
  obtain ⟨file, Ds, hfile, -, -, -, -, hpairs, -⟩ :=
    (backupFiles_roundTrip 64 4 4 (by norm_num) (by norm_num)).1 [1] [9]
      ([([3], [7, 7]), ([5], [8])]) false (by decide) (by decide) (by decide) (by decide) (by decide)
  exact ⟨file, Ds, hfile, hpairs⟩

end FoundationDB.Backup
