import FoundationDB.Library.LittleEndian

/-! `BinaryWriter` and `BinaryReader` (`flow/serialize.h`) on a little-endian host. A number
is the bytes it has in memory, a `std::vector` its `int` count and then its elements, a
`UID` its two `uint64_t` parts. `IncludeVersion()` puts the protocol version first, and the
reader refuses one that is too old or too new. The reader keeps its position (`begin`) and a
checkpoint that it can rewind to.

A version with the object serializer flag sends the reads of vectors to the flatbuffers
reader, which is not modelled: reading such a version stops with `notModelled`. -/

namespace FoundationDB.Flow

abbrev Byte := Fin 256

inductive SerializeError
  /-- `serialization_failed()`: a read past the end. -/
  | serializationFailed
  | incompatibleProtocolVersion
  /-- `std::vector::reserve` of a negative count throws `std::length_error`. -/
  | lengthError
  | assertFailed
  /-- A read before the start of the buffer, or one the object serializer would make. -/
  | notModelled
deriving DecidableEq, Repr

def versionFlagMask : ℕ := 0x0FFFFFFFFFFFFFFF
def objectSerializerFlag : ℕ := 0x1000000000000000
def minValidProtocolVersion : ℕ := 0x0FDB00A200060001
def minInvalidProtocolVersion : ℕ := 0x0FDB00B072000000

structure BinaryReader where
  data : List Byte
  /-- `begin`. -/
  pos : ℕ
  check : Option ℕ
  protocolVersion : ℕ

abbrev ReadM := StateT BinaryReader (Except SerializeError)

namespace BinaryReader

/-- `readBytes(bytes)`: the reader moves by `bytes`, which may be negative. -/
def readBytes (bytes : ℤ) : ReadM (List Byte) := fun r =>
  let e : ℤ := r.pos + bytes
  if (r.data.length : ℤ) < e then .error .serializationFailed
  else if e < 0 then .error .notModelled
  else .ok ((r.data.drop r.pos).take bytes.toNat, { r with pos := e.toNat })

def checkpoint : ReadM Unit := fun r => .ok ((), { r with check := some r.pos })

def rewind : ReadM Unit := fun r =>
  match r.check with
  | some c => .ok ((), { r with pos := c, check := none })
  | none => .error .assertFailed

def assertEnd : ReadM Unit := fun r =>
  if r.pos = r.data.length then .ok ((), r) else .error .assertFailed

def readInt : ReadM ℤ := do return LittleEndian.toInt (← readBytes 4)

def readUInt64 : ReadM ℕ := do return LittleEndian.ofBytes (← readBytes 8)

/-- `s` elements, one after another. -/
def readList {α : Type} (read : ReadM α) : ℕ → ReadM (List α)
  | 0 => pure []
  | n + 1 => do
    let x ← read
    let xs ← readList read n
    return x :: xs

/-- `load(ar, std::vector<T>&)`. -/
def readVector {α : Type} (read : ReadM α) : ReadM (List α) := do
  let s ← readInt
  if s < 0 then throw .lengthError
  readList read s.toNat

/-- `IncludeVersion().read(ar)`. -/
def readVersion : ReadM Unit := do
  let v ← readUInt64
  let version := v &&& versionFlagMask
  if version < minValidProtocolVersion then throw .incompatibleProtocolVersion
  if minInvalidProtocolVersion ≤ version then throw .incompatibleProtocolVersion
  if v &&& objectSerializerFlag ≠ 0 then throw .notModelled
  modify fun r => { r with protocolVersion := v }

/-- `BinaryReader(value, IncludeVersion())`. -/
def ofValue (value : List Byte) : Except SerializeError BinaryReader :=
  (readVersion.run ⟨value, 0, none, 0⟩).map Prod.snd

end BinaryReader

namespace BinaryWriter

def writeInt (x : ℤ) : List Byte := LittleEndian.ofInt 4 x

def writeUInt64 (x : ℕ) : List Byte := LittleEndian.toBytes 8 x

/-- `save(ar, std::vector<T>)`: the count cast to `int`, then the elements. -/
def writeVector {α : Type} (write : α → List Byte) (xs : List α) : List Byte :=
  writeInt xs.length ++ (xs.map write).flatten

end BinaryWriter

/-- `UID`: its two 64-bit parts. -/
structure UID where
  first : UInt64
  second : UInt64
deriving DecidableEq, Inhabited

namespace UID

/-- `operator<`: by the first part, then the second. -/
def le (a b : UID) : Prop := a.first < b.first ∨ a.first = b.first ∧ a.second ≤ b.second

instance : DecidableRel le := fun _ _ => inferInstanceAs (Decidable (_ ∨ _))

def write (u : UID) : List Byte :=
  BinaryWriter.writeUInt64 u.first.toNat ++ BinaryWriter.writeUInt64 u.second.toNat

def read : ReadM UID := do
  let first ← BinaryReader.readUInt64
  let second ← BinaryReader.readUInt64
  return ⟨UInt64.ofNat first, UInt64.ofNat second⟩

end UID

section ReadsBack

open BinaryReader BinaryWriter

variable {α : Type}

/-- `read` gives back what `write` wrote, wherever in the buffer the reader stands, for every
value that `ok` admits. -/
def ReadsBack (read : ReadM α) (write : α → List Byte) (ok : α → Prop) : Prop :=
  ∀ x, ok x → ∀ (r : BinaryReader) (rest : List Byte), r.pos ≤ r.data.length →
    r.data.drop r.pos = write x ++ rest →
    read r = .ok (x, { r with pos := r.pos + (write x).length })

-- stated as rewrites rather than by `rfl`: the kernel then need not unfold the bound value
@[simp] lemma ok_bind {ε β : Type} (a : α) (f : α → Except ε β) : (Except.ok a >>= f) = f a := by
  simp only [bind, Except.bind]

@[simp] lemma error_bind {ε β : Type} (e : ε) (f : α → Except ε β) :
    (Except.error e >>= f) = Except.error e := by
  simp only [bind, Except.bind]

@[simp] lemma except_pure {ε : Type} (a : α) : (pure a : Except ε α) = .ok a := rfl

@[simp] lemma pure_apply (a : α) (r : BinaryReader) : (pure a : ReadM α) r = .ok (a, r) := rfl

@[simp] lemma bind_apply {β : Type} (x : ReadM α) (f : α → ReadM β) (r : BinaryReader) :
    (x >>= f) r = match x r with
      | .ok (a, r') => f a r'
      | .error e => .error e := by
  show (do let (a, s) ← x r; f a s) = _
  cases x r <;> rfl

lemma readBytes_of_le {r : BinaryReader} (n : ℕ) (h : r.pos + n ≤ r.data.length) :
    readBytes n r = .ok ((r.data.drop r.pos).take n, { r with pos := r.pos + n }) := by
  simp only [readBytes, Int.toNat_natCast]
  rw [if_neg (by omega), if_neg (by omega)]
  congr

lemma readInt_of_le {r : BinaryReader} (h : r.pos + 4 ≤ r.data.length) :
    readInt r = .ok (LittleEndian.toInt ((r.data.drop r.pos).take 4), { r with pos := r.pos + 4 }) := by
  have hread := readBytes_of_le 4 h
  simp only [Nat.cast_ofNat] at hread
  simp only [readInt, bind_apply, hread, pure_apply]

lemma readBytes_of_drop {r : BinaryReader} {bs rest : List Byte} (hpos : r.pos ≤ r.data.length)
    (h : r.data.drop r.pos = bs ++ rest) :
    readBytes bs.length r = .ok (bs, { r with pos := r.pos + bs.length }) := by
  have hlen : r.pos + bs.length ≤ r.data.length := by
    have := congrArg List.length h
    simp only [List.length_drop, List.length_append] at this
    omega
  rw [readBytes_of_le _ hlen, h, List.take_left]

lemma drop_add_of_drop {r : BinaryReader} {w rest : List Byte}
    (h : r.data.drop r.pos = w ++ rest) : r.data.drop (r.pos + w.length) = rest := by
  rw [← List.drop_drop, h, List.drop_left]

lemma pos_add_le_of_drop {r : BinaryReader} {w rest : List Byte} (hpos : r.pos ≤ r.data.length)
    (h : r.data.drop r.pos = w ++ rest) : r.pos + w.length ≤ r.data.length := by
  have := congrArg List.length h
  simp only [List.length_drop, List.length_append] at this
  omega

lemma readsBack_readInt :
    ReadsBack readInt writeInt fun x => -2 ^ 31 ≤ x ∧ x < 2 ^ 31 := by
  intro x ⟨hlo, hhi⟩ r rest hpos h
  have hread := readBytes_of_drop hpos h
  simp only [writeInt, LittleEndian.length_ofInt, Nat.cast_ofNat] at hread ⊢
  have hval : LittleEndian.toInt (LittleEndian.ofInt 4 x) = x :=
    LittleEndian.toInt_ofInt (by norm_num; omega) (by norm_num; omega)
  simp only [readInt, bind_apply, hread, pure_apply, hval]

lemma readsBack_readUInt64 : ReadsBack readUInt64 writeUInt64 fun x => x < 2 ^ 64 := by
  intro x hx r rest hpos h
  have hread := readBytes_of_drop hpos h
  simp only [writeUInt64, LittleEndian.length_toBytes, Nat.cast_ofNat] at hread ⊢
  have hval : LittleEndian.ofBytes (LittleEndian.toBytes 8 x) = x := by
    rw [LittleEndian.ofBytes_toBytes, Nat.mod_eq_of_lt (by norm_num; omega)]
  simp only [readUInt64, bind_apply, hread, pure_apply, hval]

lemma readsBack_uid : ReadsBack UID.read UID.write fun _ => True := by
  intro u _ r rest hpos h
  have h' : r.data.drop r.pos =
      writeUInt64 u.first.toNat ++ (writeUInt64 u.second.toNat ++ rest) := by
    simpa [UID.write] using h
  have h₁ := readsBack_readUInt64 _ (UInt64.toNat_lt _) r _ hpos h'
  have h₂ := readsBack_readUInt64 _ (UInt64.toNat_lt _) { r with pos := _ } rest
    (pos_add_le_of_drop hpos h') (drop_add_of_drop h')
  simp only [UID.read, bind_apply, h₁, h₂, pure_apply, UInt64.ofNat_toNat, UID.write,
    List.length_append, Nat.add_assoc]

lemma readsBack_readList {read : ReadM α} {write : α → List Byte} {ok : α → Prop}
    (h : ReadsBack read write ok) (n : ℕ) :
    ReadsBack (readList read n) (fun xs => (xs.map write).flatten)
      (fun xs => xs.length = n ∧ ∀ x ∈ xs, ok x) := by
  induction n with
  | zero =>
    rintro xs ⟨hlen, -⟩ r rest - -
    obtain rfl := List.eq_nil_of_length_eq_zero hlen
    simp [readList]
  | succ n ih =>
    rintro (_ | ⟨x, xs⟩) ⟨hlen, hok⟩ r rest hpos hdrop
    · cases hlen
    have hdrop' : r.data.drop r.pos = write x ++ ((xs.map write).flatten ++ rest) := by
      simpa using hdrop
    have hx := h x (hok x (List.mem_cons_self ..)) r _ hpos hdrop'
    have hxs := ih xs ⟨by simpa using hlen, fun y hy => hok y (List.mem_cons_of_mem _ hy)⟩
      { r with pos := _ } rest (pos_add_le_of_drop hpos hdrop') (drop_add_of_drop hdrop')
    simp only [readList, bind_apply, hx, hxs, pure_apply, List.map_cons, List.flatten_cons,
      List.length_append, Nat.add_assoc]

lemma readsBack_readVector {read : ReadM α} {write : α → List Byte} {ok : α → Prop}
    (h : ReadsBack read write ok) :
    ReadsBack (readVector read) (writeVector write)
      (fun xs => xs.length < 2 ^ 31 ∧ ∀ x ∈ xs, ok x) := by
  intro xs ⟨hlen, hok⟩ r rest hpos hdrop
  have hdrop' : r.data.drop r.pos = writeInt xs.length ++ ((xs.map write).flatten ++ rest) := by
    simpa [writeVector] using hdrop
  have hcount := readsBack_readInt xs.length ⟨by omega, by exact_mod_cast hlen⟩ r _ hpos hdrop'
  have hitems := readsBack_readList h xs.length xs ⟨rfl, hok⟩ { r with pos := _ } rest
    (pos_add_le_of_drop hpos hdrop') (drop_add_of_drop hdrop')
  have hnonneg : ¬((xs.length : ℤ) < 0) := by omega
  simp only [readVector, bind_apply, hcount, hnonneg, if_false, Int.toNat_natCast,
    hitems, writeVector, List.length_append, Nat.add_assoc]

lemma readsBack_pair {β : Type} {read₁ : ReadM α} {read₂ : ReadM β} {write₁ : α → List Byte}
    {write₂ : β → List Byte} {ok₁ : α → Prop} {ok₂ : β → Prop}
    (h₁ : ReadsBack read₁ write₁ ok₁) (h₂ : ReadsBack read₂ write₂ ok₂) :
    ReadsBack (do let a ← read₁; let b ← read₂; return (a, b))
      (fun p => write₁ p.1 ++ write₂ p.2) (fun p => ok₁ p.1 ∧ ok₂ p.2) := by
  rintro ⟨a, b⟩ ⟨ha, hb⟩ r rest hpos hdrop
  have hdrop' : r.data.drop r.pos = write₁ a ++ (write₂ b ++ rest) := by simpa using hdrop
  have ha' := h₁ a ha r _ hpos hdrop'
  have hb' := h₂ b hb { r with pos := _ } rest (pos_add_le_of_drop hpos hdrop')
    (drop_add_of_drop hdrop')
  simp only [bind_apply, ha', hb', pure_apply, List.length_append, Nat.add_assoc]

lemma ofValue_eq {v : ℕ} {rest : List Byte} (hv : v < 2 ^ 64)
    (hvalid : minValidProtocolVersion ≤ v &&& versionFlagMask)
    (hnew : v &&& versionFlagMask < minInvalidProtocolVersion)
    (hflag : v &&& objectSerializerFlag = 0) :
    ofValue (writeUInt64 v ++ rest) = .ok ⟨writeUInt64 v ++ rest, 8, none, v⟩ := by
  have hread := readsBack_readUInt64 v hv ⟨writeUInt64 v ++ rest, 0, none, 0⟩ rest (by simp)
    (by simp)
  have hlen : (writeUInt64 v).length = 8 := LittleEndian.length_toBytes _ _
  rw [hlen, zero_add] at hread
  simp only [ofValue, readVersion, StateT.run, bind_apply, hread, not_lt.mpr hvalid,
    not_le.mpr hnew, hflag, if_false, ne_eq, not_true_eq_false]
  rfl

end ReadsBack

end FoundationDB.Flow
