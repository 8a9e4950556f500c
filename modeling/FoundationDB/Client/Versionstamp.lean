import FoundationDB.Client.CommitTransaction
import FoundationDB.Library.BigEndian
import FoundationDB.Library.LittleEndian

/-! Versionstamps (`Atomic.h`). A versionstamped key or value carries in its last four bytes
the little-endian offset at which the commit proxy writes ten bytes: the commit version, then
the transaction's number in its batch, both big-endian. Each function checks the offset by
adding `10` to it in 32-bit `int` arithmetic (`intAdd`); a write the check lets through that
leaves its buffer is the fault `writeOutOfBounds` here, undefined behaviour in the source. -/

namespace FoundationDB

inductive VersionstampFault
  | clientInvalidOperation
  | invertedRange
  | writeOutOfBounds
deriving DecidableEq, Repr

/-- `a + b` on two `int`s: two's complement on 32 bits. -/
def intAdd (a b : ℤ) : ℤ := Int.bmod (a + b) (2 ^ 32)

/-- A `memcpy` or `memset` of `bytes` at offset `pos` of a buffer. -/
def writeAt (buf : List (Fin 256)) (pos : ℤ) (bytes : List (Fin 256)) :
    Except VersionstampFault (List (Fin 256)) :=
  if 0 ≤ pos ∧ pos + bytes.length ≤ buf.length then
    .ok (buf.take pos.toNat ++ bytes ++ buf.drop (pos.toNat + bytes.length))
  else .error .writeOutOfBounds

/-- `bigEndian64(version)` then `bigEndian16(transactionNumber)`. -/
def versionstamp (version : ℤ) (transactionNumber : ℕ) : List (Fin 256) :=
  BigEndian.toBytes 8 (version % 2 ^ 64).toNat ++ BigEndian.toBytes 2 transactionNumber

def placeVersionstamp (destination : List (Fin 256)) (pos version : ℤ) (transactionNumber : ℕ) :
    Except VersionstampFault (List (Fin 256)) :=
  writeAt destination pos (versionstamp version transactionNumber)

/-- The `int32_t` in the last four bytes, little-endian. -/
def versionstampOffset (key : List (Fin 256)) : ℤ :=
  LittleEndian.toInt (key.drop (key.length - 4))

def getVersionstampKeyRange (key : Key) (minVersion : ℤ) (maxKey : Key) :
    Except VersionstampFault KeyRangeRef :=
  if key.length < 4 then .error .clientInvalidOperation else
  let pos := versionstampOffset key
  let begin := key.take (key.length - 4)
  -- one byte longer than `begin`, that byte zeroed
  let «end» := (key.take (key.length - 3)).set (key.length - 4) 0
  if pos < 0 ∨ (begin.length : ℤ) < intAdd pos 10 then .error .clientInvalidOperation else
  do
    let begin ← placeVersionstamp begin pos minVersion 0
    let «end» ← writeAt «end» pos (List.replicate 10 255)
    if h : begin ≤ min «end» maxKey then pure ⟨begin, min «end» maxKey, h⟩
    else throw .invertedRange

def transformVersionstampKey (key : List (Fin 256)) (version : ℤ) (transactionNumber : ℕ) :
    Except VersionstampFault (List (Fin 256)) :=
  if key.length < 4 then .error .clientInvalidOperation else
  let pos := versionstampOffset key
  if pos < 0 ∨ (key.length : ℤ) < intAdd pos 10 then .error .clientInvalidOperation
  else placeVersionstamp key pos version transactionNumber

/-- The member `transformVersionstampMutation` is pointed at (`StringRef MutationRef::*`). -/
inductive MutationParam
  | param1 | param2
deriving DecidableEq

def MutationParam.get : MutationParam → MutationRef → List (Fin 256)
  | .param1, m => m.param1
  | .param2, m => m.param2

def MutationParam.set : MutationParam → MutationRef → List (Fin 256) → MutationRef
  | .param1, m, p => { m with param1 := p }
  | .param2, m, p => { m with param2 := p }

/-- The body of `transformVersionstampMutation` on the bytes of the parameter. -/
def transformVersionstampParam (p : List (Fin 256)) (version : ℤ) (transactionNumber : ℕ) :
    Except VersionstampFault (List (Fin 256)) :=
  if 4 ≤ p.length then
    let pos := versionstampOffset p
    let p := p.take (p.length - 4)
    if 0 ≤ pos ∧ intAdd pos 10 ≤ p.length then placeVersionstamp p pos version transactionNumber
    else .ok p
  else .ok p

def transformVersionstampMutation (mutation : MutationRef) (param : MutationParam)
    (version : ℤ) (transactionNumber : ℕ) : Except VersionstampFault MutationRef :=
  (transformVersionstampParam (param.get mutation) version transactionNumber).map
    fun p => { param.set mutation p with type := .setValue }

section Arithmetic

lemma intAdd_of_lt {a b : ℤ} (hlo : -2 ^ 31 ≤ a + b) (hhi : a + b < 2 ^ 31) :
    intAdd a b = a + b :=
  Int.bmod_eq_of_le (by norm_num; omega) (by norm_num; omega)

lemma intAdd_of_le {a b : ℤ} (hlo : 2 ^ 31 ≤ a + b) (hhi : a + b < 2 ^ 31 + 2 ^ 32) :
    intAdd a b = a + b - 2 ^ 32 := by
  rw [intAdd, ← Int.sub_bmod_right]
  exact Int.bmod_eq_of_le (by norm_num; omega) (by norm_num; omega)

lemma intAdd_ten_le_iff {pos s : ℤ} (h0 : 0 ≤ pos) (hpos : pos < 2 ^ 31) (hs : 0 ≤ s) :
    intAdd pos 10 ≤ s ↔ pos + 10 ≤ s ∨ 2 ^ 31 - 10 ≤ pos := by
  rcases lt_or_ge (pos + 10) (2 ^ 31) with hlt | hge
  · rw [intAdd_of_lt (by omega) hlt]
    omega
  · rw [intAdd_of_le hge (by omega)]
    omega

lemma versionstampOffset_lt {p : List (Fin 256)} (h : 4 ≤ p.length) :
    versionstampOffset p < 2 ^ 31 := by
  have hlen : (p.drop (p.length - 4)).length = 4 := by
    rw [List.length_drop]
    omega
  have hlt := Int.bmod_lt (x := LittleEndian.ofBytes (p.drop (p.length - 4))) (m := 256 ^ 4)
    (by norm_num)
  simpa [versionstampOffset, LittleEndian.toInt, hlen] using hlt

end Arithmetic

section Write

variable {buf bytes : List (Fin 256)} {pos : ℤ}

lemma writeAt_of_le (h0 : 0 ≤ pos) (h : pos + bytes.length ≤ buf.length) :
    writeAt buf pos bytes =
      .ok (buf.take pos.toNat ++ bytes ++ buf.drop (pos.toNat + bytes.length)) :=
  if_pos ⟨h0, h⟩

lemma writeAt_of_lt (h : (buf.length : ℤ) < pos + bytes.length) :
    writeAt buf pos bytes = .error .writeOutOfBounds :=
  if_neg (by omega)

lemma writeAt_eq_ok {buf' : List (Fin 256)} (h : writeAt buf pos bytes = .ok buf') :
    0 ≤ pos ∧ pos + bytes.length ≤ buf.length ∧
      buf' = buf.take pos.toNat ++ bytes ++ buf.drop (pos.toNat + bytes.length) := by
  unfold writeAt at h
  split_ifs at h with hin
  · cases h
    exact ⟨hin.1, hin.2, rfl⟩

@[simp] lemma length_versionstamp (version : ℤ) (transactionNumber : ℕ) :
    (versionstamp version transactionNumber).length = 10 := by
  simp [versionstamp]

end Write

section KeyRange

variable {key maxKey : Key} {minVersion : ℤ} {r : KeyRangeRef}

lemma getVersionstampKeyRange_eq_ok (h : getVersionstampKeyRange key minVersion maxKey = .ok r) :
    4 ≤ key.length ∧ 0 ≤ versionstampOffset key ∧
      versionstampOffset key + 10 ≤ key.length - 4 ∧
      r.begin = (key.take (key.length - 4)).take (versionstampOffset key).toNat ++
        versionstamp minVersion 0 ++
        (key.take (key.length - 4)).drop ((versionstampOffset key).toNat + 10) ∧
      r.end = min (((key.take (key.length - 3)).set (key.length - 4) 0).take
          (versionstampOffset key).toNat ++ List.replicate 10 255 ++
        ((key.take (key.length - 3)).set (key.length - 4) 0).drop
          ((versionstampOffset key).toNat + 10)) maxKey := by
  unfold getVersionstampKeyRange at h
  dsimp only at h
  split_ifs at h with hshort hrej
  cases hb : placeVersionstamp (key.take (key.length - 4)) (versionstampOffset key) minVersion 0 with
  | error f => simp only [hb, bind, Except.bind, reduceCtorEq] at h
  | ok b =>
    cases he : writeAt ((key.take (key.length - 3)).set (key.length - 4) 0) (versionstampOffset key)
        (List.replicate 10 255) with
    | error f => simp only [hb, he, bind, Except.bind, reduceCtorEq] at h
    | ok e =>
      simp only [hb, he, bind, Except.bind] at h
      split at h
      · cases h
        obtain ⟨h0, hfit, rfl⟩ := writeAt_eq_ok hb
        obtain ⟨-, -, rfl⟩ := writeAt_eq_ok he
        simp only [length_versionstamp, List.length_take] at hfit
        exact ⟨by omega, h0, by omega, rfl, rfl⟩
      · cases h

lemma versionstamp_append_lt {version : ℤ} (h0 : 0 ≤ version) (hv : version < 2 ^ 63)
    (transactionNumber : ℕ) (r₁ r₂ : List (Fin 256)) :
    versionstamp version transactionNumber ++ r₁ < List.replicate 10 255 ++ r₂ := by
  have hmod : (version % 2 ^ 64).toNat = version.toNat := by
    rw [Int.emod_eq_of_lt h0 (by omega)]
  simp only [versionstamp, hmod, BigEndian.toBytes, List.replicate_succ, List.cons_append]
  apply List.cons_lt_cons_iff.mpr (.inl _)
  rw [Fin.lt_def]
  simp only [Fin.isValue]
  omega

lemma versionstamp_le_versionstamp {minVersion version : ℤ} (hmin : 0 ≤ minVersion)
    (hle : minVersion ≤ version) (hv : version < 2 ^ 63) (transactionNumber : ℕ) :
    versionstamp minVersion 0 ≤ versionstamp version transactionNumber := by
  have hmod : ∀ x : ℤ, 0 ≤ x → x < 2 ^ 63 → (x % 2 ^ 64).toNat = x.toNat := fun x h0 h => by
    rw [Int.emod_eq_of_lt h0 (by omega)]
  rw [versionstamp, versionstamp, hmod _ hmin (by omega), hmod _ (by omega) hv]
  rcases hle.lt_or_eq with hlt | rfl
  · -- a later version: the eight version bytes decide
    refine (List.append_lt_append_of_length_eq _ _ (by simp) ?_).le
    exact (BigEndian.toBytes_lt_toBytes (by norm_num; omega) (by norm_num; omega)).mpr (by omega)
  · -- the same version: the transaction number decides, and the minimum's is zero
    refine List.append_le_append_left _ ?_
    rw [← not_lt, BigEndian.lt_iff_ofBytes_lt (by simp)]
    simp [BigEndian.ofBytes_toBytes]

end KeyRange

section Mutation

variable {p : List (Fin 256)} {version : ℤ} {transactionNumber : ℕ}

lemma transformVersionstampParam_of_length_lt (h : p.length < 4) :
    transformVersionstampParam p version transactionNumber = .ok p :=
  if_neg (by omega)

lemma transformVersionstampParam_of_fits (h4 : 4 ≤ p.length) (h0 : 0 ≤ versionstampOffset p)
    (hfit : versionstampOffset p + 10 ≤ p.length - 4) :
    transformVersionstampParam p version transactionNumber =
      .ok ((p.take (p.length - 4)).take (versionstampOffset p).toNat ++
        versionstamp version transactionNumber ++
        (p.take (p.length - 4)).drop ((versionstampOffset p).toNat + 10)) := by
  have hlen : ((p.take (p.length - 4)).length : ℤ) = p.length - 4 := by
    rw [List.length_take]
    omega
  have hcheck : 0 ≤ versionstampOffset p ∧ intAdd (versionstampOffset p) 10 ≤
      (p.take (p.length - 4)).length := by
    refine ⟨h0, ?_⟩
    rw [intAdd_ten_le_iff h0 (versionstampOffset_lt h4) (by omega)]
    omega
  rw [transformVersionstampParam, if_pos h4]
  dsimp only
  rw [if_pos hcheck, placeVersionstamp, writeAt_of_le h0 (by simp; omega), length_versionstamp]

lemma transformVersionstampParam_of_rejected (h4 : 4 ≤ p.length)
    (hrej : versionstampOffset p < 0 ∨
      ((p.length : ℤ) - 4 < versionstampOffset p + 10 ∧ versionstampOffset p < 2 ^ 31 - 10)) :
    transformVersionstampParam p version transactionNumber = .ok (p.take (p.length - 4)) := by
  have hlen : ((p.take (p.length - 4)).length : ℤ) = p.length - 4 := by
    rw [List.length_take]
    omega
  have hcheck : ¬(0 ≤ versionstampOffset p ∧ intAdd (versionstampOffset p) 10 ≤
      (p.take (p.length - 4)).length) := by
    rintro ⟨h0, hle⟩
    rw [intAdd_ten_le_iff h0 (versionstampOffset_lt h4) (by omega)] at hle
    omega
  rw [transformVersionstampParam, if_pos h4]
  dsimp only
  rw [if_neg hcheck]

lemma transformVersionstampParam_of_wraps (h4 : 4 ≤ p.length)
    (hwrap : 2 ^ 31 - 10 ≤ versionstampOffset p)
    (hpast : (p.length : ℤ) - 4 < versionstampOffset p + 10) :
    transformVersionstampParam p version transactionNumber = .error .writeOutOfBounds := by
  have hlen : ((p.take (p.length - 4)).length : ℤ) = p.length - 4 := by
    rw [List.length_take]
    omega
  have hcheck : 0 ≤ versionstampOffset p ∧ intAdd (versionstampOffset p) 10 ≤
      (p.take (p.length - 4)).length := by
    refine ⟨by omega, ?_⟩
    rw [intAdd_ten_le_iff (by omega) (versionstampOffset_lt h4) (by omega)]
    omega
  rw [transformVersionstampParam, if_pos h4]
  dsimp only
  rw [if_pos hcheck, placeVersionstamp, writeAt_of_lt (by simp; omega)]

theorem transformVersionstampMutation_writeOutOfBounds_iff (mutation : MutationRef)
    (param : MutationParam) (version : ℤ) (transactionNumber : ℕ) :
    transformVersionstampMutation mutation param version transactionNumber =
        .error .writeOutOfBounds ↔
      4 ≤ (param.get mutation).length ∧ 2 ^ 31 - 10 ≤ versionstampOffset (param.get mutation) ∧
        ((param.get mutation).length : ℤ) - 4 < versionstampOffset (param.get mutation) + 10 := by
  -- the map to the mutation keeps the fault and sends every bytes result to `.ok`
  have hmap : transformVersionstampMutation mutation param version transactionNumber =
        .error .writeOutOfBounds ↔
      transformVersionstampParam (param.get mutation) version transactionNumber =
        .error .writeOutOfBounds := by
    cases h : transformVersionstampParam (param.get mutation) version transactionNumber <;>
      simp [transformVersionstampMutation, h, Except.map]
  rw [hmap]
  generalize param.get mutation = p
  rcases lt_or_ge p.length 4 with hshort | h4
  · simp only [transformVersionstampParam_of_length_lt hshort, reduceCtorEq, false_iff]
    omega
  by_cases h0 : 0 ≤ versionstampOffset p
  · by_cases hfit : versionstampOffset p + 10 ≤ p.length - 4
    · simp only [transformVersionstampParam_of_fits h4 h0 hfit, reduceCtorEq, false_iff]
      omega
    · rcases lt_or_ge (versionstampOffset p) (2 ^ 31 - 10) with hsmall | hbig
      · simp only [transformVersionstampParam_of_rejected h4 (.inr ⟨by omega, hsmall⟩),
          reduceCtorEq, false_iff]
        omega
      · simp only [transformVersionstampParam_of_wraps h4 hbig (by omega), true_iff]
        omega
  · simp only [transformVersionstampParam_of_rejected h4 (.inl (by omega)), reduceCtorEq,
      false_iff]
    omega

/-- A four-byte parameter holding the offset `2 ^ 31 - 1`: nothing is left once the suffix is
dropped, yet the stamp is written `2 ^ 31 - 1` bytes past the start. -/
theorem transformVersionstampMutation_offset_near_int_max :
    versionstampOffset [255, 255, 255, 127] = 2 ^ 31 - 1 ∧
      transformVersionstampMutation ⟨.setVersionstampedKey, [255, 255, 255, 127], []⟩ .param1 7 0 =
        .error .writeOutOfBounds :=
  ⟨by decide, (transformVersionstampMutation_writeOutOfBounds_iff _ _ _ _).mpr (by decide)⟩

theorem transformVersionstampMutation_mem_getVersionstampKeyRange {key maxKey : Key}
    {minVersion version : ℤ} {r : KeyRangeRef}
    (hr : getVersionstampKeyRange key minVersion maxKey = .ok r) (hmin : 0 ≤ minVersion)
    (hle : minVersion ≤ version) (hv : version < 2 ^ 63) (operand : Value)
    (transactionNumber : ℕ) :
    ∃ m, transformVersionstampMutation ⟨.setVersionstampedKey, key, operand⟩ .param1 version
        transactionNumber = .ok m ∧ (m.param1 < maxKey → r.contains m.param1) := by
  obtain ⟨h4, h0, hfit, hbegin, hend⟩ := getVersionstampKeyRange_eq_ok hr
  have hok : transformVersionstampMutation ⟨.setVersionstampedKey, key, operand⟩ .param1 version
      transactionNumber = .ok ⟨.setValue,
        (key.take (key.length - 4)).take (versionstampOffset key).toNat ++
          versionstamp version transactionNumber ++
          (key.take (key.length - 4)).drop ((versionstampOffset key).toNat + 10), operand⟩ := by
    rw [transformVersionstampMutation, MutationParam.get,
      transformVersionstampParam_of_fits h4 h0 hfit]
    rfl
  refine ⟨_, hok, fun hmax => ⟨?_, ?_⟩⟩
  · -- the same bytes around the stamp, and the minimum stamp below the commit's
    rw [hbegin, List.append_assoc, List.append_assoc]
    exact List.append_le_append_left _
      (List.append_le_append_of_length_eq _ (by simp) (versionstamp_le_versionstamp hmin hle hv _))
  · -- `end` agrees with the key before the stamp, and has `\xff`s where the stamp is
    have htake : ((key.take (key.length - 3)).set (key.length - 4) 0).take
        (versionstampOffset key).toNat =
        (key.take (key.length - 4)).take (versionstampOffset key).toNat := by
      rw [List.take_set_of_le (by omega), List.take_take, List.take_take,
        Nat.min_eq_left (by omega), Nat.min_eq_left (by omega)]
    rw [hend]
    refine lt_min ?_ hmax
    rw [htake, List.append_assoc, List.append_assoc]
    exact List.append_left_lt (versionstamp_append_lt (by omega) hv _ _ _)

/-- A key with the offset `1` in its suffix, stamped at minimum version `5` and committed at
version `7`. -/
theorem transformVersionstampMutation_mem_getVersionstampKeyRange_sample :
    ∃ r, getVersionstampKeyRange [1, 0, 0, 0, 0, 0, 0, 0, 0, 0, 0, 1, 0, 0, 0] 5 [255] = .ok r ∧
      ∃ m, transformVersionstampMutation
          ⟨.setVersionstampedKey, [1, 0, 0, 0, 0, 0, 0, 0, 0, 0, 0, 1, 0, 0, 0], []⟩ .param1 7 3 =
          .ok m ∧ (m.param1 < [255] → r.contains m.param1) := by
  cases h : getVersionstampKeyRange [1, 0, 0, 0, 0, 0, 0, 0, 0, 0, 0, 1, 0, 0, 0] 5 [255] with
  | error e =>
    have hok : (getVersionstampKeyRange [1, 0, 0, 0, 0, 0, 0, 0, 0, 0, 0, 1, 0, 0, 0] 5
      [255]).isOk = true := by decide
    rw [h] at hok
    cases hok
  | ok r =>
    exact ⟨r, rfl, transformVersionstampMutation_mem_getVersionstampKeyRange h (by decide)
      (by decide) (by decide) [] 3⟩

end Mutation

end FoundationDB
