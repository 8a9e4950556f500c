import FoundationDB.Client.CommitTransaction
import FoundationDB.Library.BigEndian
import FoundationDB.Library.LittleEndian

/-! The keys of the backup mutation log (`BackupAgentBase.actor.cpp`, `addBackupMutations` of
`CommitProxyServer.actor.cpp`). A commit's mutations are logged under a destination prefix,
then one byte hashed from the block of `LOG_RANGE_BLOCK_SIZE` versions its version is in, then
the version and a part number, big-endian. A reader asks `getLogRanges` for the key ranges that
hold a range of versions, cut into blocks of its own size. The hash is a parameter: writer and
reader hash the four bytes of the same 32-bit block number, whatever the function. -/

namespace FoundationDB.Backup

structure ClientKnobs where
  LOG_RANGE_BLOCK_SIZE : ℤ
  MUTATION_BLOCK_SIZE : ℕ
  LOG_RANGE_BLOCK_SIZE_pos : 0 < LOG_RANGE_BLOCK_SIZE
  MUTATION_BLOCK_SIZE_pos : 0 < MUTATION_BLOCK_SIZE

/-- The values `Knobs.cpp` gives them. -/
def ClientKnobs.defaults : ClientKnobs :=
  ⟨1000000, 10000, Int.natCast_pos.mpr (Nat.succ_pos 999999), Nat.succ_pos 9999⟩

inductive BackupError
  | invertedRange
  | incompatibleProtocolVersion
  | restoreMissingData
  | restoreCorruptedData
  /-- A failed `ASSERT`. -/
  | assertFailed
  /-- A `memcpy` from past the end of the value: undefined behaviour in the source. -/
  | readPastEnd
deriving DecidableEq, Repr

/-- `backupLogKeys.begin`, `\xff\x02/blog/`. -/
def backupLogKeysBegin : Key := [255, 2, 47, 98, 108, 111, 103, 47]

def backupLogPrefixBytes : ℕ := 8

/-- `KeyRangeRef(begin, end)`. -/
def keyRange (b e : Key) : Except BackupError KeyRangeRef :=
  if h : b ≤ e then .ok ⟨b, e, h⟩ else .error .invertedRange

-- `hashlittle` stands for `(uint8_t)hashlittle(p, 4, 0)` of the four bytes at `p`
variable (hashlittle : List (Fin 256) → Fin 256) (knobs : ClientKnobs)

/-- The key of part `part` of what a commit at `commitVersion` logs under `destination`: the
`int32_t` block number is hashed, the version and the part follow big-endian. -/
def backupLogKey (destination : Key) (commitVersion : ℤ) (part : ℕ) : Key :=
  destination ++ [hashlittle (LittleEndian.ofInt 4 (commitVersion.tdiv knobs.LOG_RANGE_BLOCK_SIZE))] ++
    BigEndian.toBytes 8 (commitVersion % 2 ^ 64).toNat ++ BigEndian.toBytes 4 part

/-- The range `getLogRanges` gives block `vblock`: the block's prefix, then the versions
`max(beginVersion, vblock * blockSize)` and `min(endVersion, (vblock + 1) * blockSize)`. -/
def logRangeOf (beginVersion endVersion : ℤ) (destUidValue : Key) (blockSize vblock : ℤ) :
    Key × Key :=
  let tb := (vblock * blockSize).tdiv knobs.LOG_RANGE_BLOCK_SIZE
  let bv := BigEndian.toBytes 8 (max beginVersion (vblock * blockSize) % 2 ^ 64).toNat
  let ev := BigEndian.toBytes 8 (min endVersion ((vblock + 1) * blockSize) % 2 ^ 64).toNat
  let vblockPrefix := backupLogKeysBegin ++ destUidValue ++ [hashlittle (LittleEndian.ofInt 4 tb)]
  (vblockPrefix ++ bv, vblockPrefix ++ ev)

def getLogRanges (beginVersion endVersion : ℤ) (destUidValue : Key) (blockSize : ℤ) :
    Except BackupError (List KeyRangeRef) :=
  let first := beginVersion.tdiv blockSize
  ((List.range ((endVersion + blockSize - 1).tdiv blockSize - first).toNat).map
      fun i : ℕ => first + i).mapM fun vblock =>
    let r := logRangeOf hashlittle knobs beginVersion endVersion destUidValue blockSize vblock
    keyRange r.1 r.2

def getLogKeyVersion (key : Key) : ℤ :=
  Int.bmod (BigEndian.ofBytes ((key.drop (backupLogPrefixBytes + 16 + 1)).take 8)) (2 ^ 64)

/-- The version and the part of a log key, read at their offsets past the prefix, the
16-byte UID and the hash byte. -/
def decodeBKMutationLogKey (key : Key) : ℤ × ℕ :=
  (getLogKeyVersion key, BigEndian.ofBytes ((key.drop (backupLogPrefixBytes + 16 + 1 + 8)).take 4))

section Order

open BigEndian

lemma toBytes_le_toBytes {lo c : ℕ} (hlo : lo < 2 ^ 64) (hc : c < 2 ^ 64) (h : lo ≤ c) :
    toBytes 8 lo ≤ toBytes 8 c :=
  not_lt.mp fun hlt => absurd ((toBytes_lt_toBytes (by simpa using hc) (by simpa using hlo)).mp hlt)
    (by omega)

lemma toBytes_le_append_iff {lo c : ℕ} (hlo : lo < 2 ^ 64) (hc : c < 2 ^ 64) (x : List (Fin 256)) :
    toBytes 8 lo ≤ toBytes 8 c ++ x ↔ lo ≤ c := by
  constructor
  · intro h
    by_contra hlt
    have hbytes : toBytes 8 c < toBytes 8 lo :=
      (toBytes_lt_toBytes (by simpa using hc) (by simpa using hlo)).mpr (by omega)
    have hgt := List.append_lt_append_of_length_eq x [] (by simp) hbytes
    rw [List.append_nil] at hgt
    exact absurd h (not_le.mpr hgt)
  · intro h
    exact (toBytes_le_toBytes hlo hc h).trans (List.self_le_append _ x)

lemma append_lt_toBytes_iff {c hi : ℕ} (hc : c < 2 ^ 64) (hhi : hi < 2 ^ 64) (x : List (Fin 256)) :
    toBytes 8 c ++ x < toBytes 8 hi ↔ c < hi := by
  constructor
  · intro h
    by_contra hle
    exact absurd h (not_lt.mpr ((toBytes_le_append_iff hhi hc x).mpr (by omega)))
  · intro h
    have hlt := List.append_lt_append_of_length_eq x [] (by simp)
      ((toBytes_lt_toBytes (n := 8) (by simpa using hc) (by simpa using hhi)).mpr h)
    rwa [List.append_nil] at hlt

lemma logKey_mem_iff {P : Key} {hv hc : Fin 256} {lo hi c : ℕ} (hlo : lo < 2 ^ 64)
    (hhi : hi < 2 ^ 64) (hc' : c < 2 ^ 64) (x : List (Fin 256)) :
    (P ++ [hv] ++ toBytes 8 lo ≤ P ++ [hc] ++ toBytes 8 c ++ x ∧
        P ++ [hc] ++ toBytes 8 c ++ x < P ++ [hv] ++ toBytes 8 hi) ↔
      hv = hc ∧ lo ≤ c ∧ c < hi := by
  have hk : P ++ [hc] ++ toBytes 8 c ++ x = P ++ ([hc] ++ (toBytes 8 c ++ x)) := by simp
  rw [List.append_assoc P [hv], List.append_assoc P [hv], hk]
  refine (and_congr (List.append_le_append_left_iff P) (List.append_lt_append_left_iff P)).trans ?_
  rcases lt_trichotomy hv hc with hlt | rfl | hgt
  · -- the key's hash byte is above the block's: the key lies past the range's end
    refine iff_of_false (fun h => ?_) (fun h => hlt.ne h.1)
    rcases List.cons_lt_cons_iff.mp h.2 with h | ⟨h, -⟩
    · exact lt_asymm h hlt
    · exact hlt.ne' h
  · exact (and_congr ((List.append_le_append_left_iff [hv]).trans (toBytes_le_append_iff hlo hc' x))
      ((List.append_lt_append_left_iff [hv]).trans (append_lt_toBytes_iff hc' hhi x))).trans
      (by simp)
  · -- below: the key lies before the range's beginning
    exact iff_of_false (fun h => absurd (List.cons_lt_cons_iff.mpr (.inl hgt)) (not_lt.mpr h.1))
      (fun h => hgt.ne' h.1)

end Order

section Blocks

variable {b e bs c : ℤ}

lemma tdiv_blockStart (hc : 0 ≤ c) (hbs : 0 < bs) (hdvd : bs ∣ knobs.LOG_RANGE_BLOCK_SIZE) :
    (c / bs * bs).tdiv knobs.LOG_RANGE_BLOCK_SIZE = c.tdiv knobs.LOG_RANGE_BLOCK_SIZE := by
  obtain ⟨k, hk⟩ := hdvd
  have hk0 : 0 < k := by
    have := knobs.LOG_RANGE_BLOCK_SIZE_pos
    rw [hk] at this
    exact pos_of_mul_pos_right this hbs.le
  rw [Int.tdiv_eq_ediv_of_nonneg (mul_nonneg (Int.ediv_nonneg hc hbs.le) hbs.le),
    Int.tdiv_eq_ediv_of_nonneg hc, hk, mul_comm (c / bs), Int.mul_ediv_mul_of_pos _ _ hbs,
    Int.ediv_ediv_of_nonneg hbs.le]

lemma logRange_versions (hb : 0 ≤ b) (hbe : b ≤ e) (he : e < 2 ^ 63) (hbs : 0 < bs) {v : ℤ}
    (hv₁ : b / bs ≤ v) (hv₂ : v < (e + bs - 1) / bs) :
    0 ≤ max b (v * bs) ∧ max b (v * bs) ≤ min e ((v + 1) * bs) ∧ min e ((v + 1) * bs) < 2 ^ 63 := by
  have hb' : b < (b / bs + 1) * bs := Int.lt_ediv_add_one_mul_self b hbs
  have hstep : (b / bs + 1) * bs ≤ (v + 1) * bs := mul_le_mul_of_nonneg_right (by omega) hbs.le
  have hend : (v + 1) * bs ≤ e + bs - 1 :=
    (mul_le_mul_of_nonneg_right (by omega : v + 1 ≤ (e + bs - 1) / bs) hbs.le).trans
      (Int.ediv_mul_le _ hbs.ne')
  have hvb : v * bs ≤ (v + 1) * bs := mul_le_mul_of_nonneg_right (by omega) hbs.le
  refine ⟨le_max_of_le_left hb, max_le (le_min hbe (by omega)) (le_min ?_ hvb), min_lt_of_left_lt he⟩
  rw [add_mul, one_mul] at hend
  omega

lemma logRange_mem_iff (he : e < 2 ^ 63) (hbs : 0 < bs)
    (hdvd : bs ∣ knobs.LOG_RANGE_BLOCK_SIZE) (hc : 0 ≤ c) (hc' : c < 2 ^ 63) {v : ℤ}
    (hv : 0 ≤ max b (v * bs) ∧ max b (v * bs) ≤ min e ((v + 1) * bs) ∧
      min e ((v + 1) * bs) < 2 ^ 63) (destUidValue : Key) (part : ℕ) :
    ((logRangeOf hashlittle knobs b e destUidValue bs v).1 ≤
        backupLogKey hashlittle knobs (backupLogKeysBegin ++ destUidValue) c part ∧
      backupLogKey hashlittle knobs (backupLogKeysBegin ++ destUidValue) c part <
        (logRangeOf hashlittle knobs b e destUidValue bs v).2) ↔ v = c / bs ∧ b ≤ c ∧ c < e := by
  obtain ⟨hlo, hlohi, hhi⟩ := hv
  have hmod : ∀ x : ℤ, 0 ≤ x → x < 2 ^ 63 → (x % 2 ^ 64).toNat = x.toNat := fun x h0 h => by
    rw [Int.emod_eq_of_lt h0 (by omega)]
  simp only [logRangeOf, backupLogKey, hmod _ hlo (by omega), hmod _ (by omega) hhi, hmod _ hc hc']
  rw [logKey_mem_iff (by omega) (by omega) (by omega)]
  constructor
  · rintro ⟨-, hle, hlt⟩
    have hle' : max b (v * bs) ≤ c := by omega
    have hlt' : c < min e ((v + 1) * bs) := by omega
    -- `v * bs ≤ c < (v + 1) * bs` pins `v` to `c`'s block
    have h1 := le_max_right b (v * bs)
    have h2 := min_le_right e ((v + 1) * bs)
    have hv1 : (v + 1) * bs = v * bs + bs := by ring
    have hv : v = c / bs :=
      ((Int.ediv_emod_unique (a := c) (r := c - v * bs) (q := v) hbs).mpr
        ⟨by ring, by omega, by omega⟩).1.symm
    exact ⟨hv, le_of_max_le_left hle', lt_of_lt_of_le hlt' (min_le_left _ _)⟩
  · rintro ⟨rfl, hbc, hce⟩
    have hlow : c / bs * bs ≤ c := Int.ediv_mul_le c hbs.ne'
    have hhigh : c < (c / bs + 1) * bs := Int.lt_ediv_add_one_mul_self c hbs
    refine ⟨by rw [tdiv_blockStart knobs hc hbs hdvd], ?_, ?_⟩
    · have : max b (c / bs * bs) ≤ c := max_le hbc hlow
      omega
    · have : c < min e ((c / bs + 1) * bs) := lt_min hce hhigh
      omega

lemma logRangeOf_le {v : ℤ} (hv : 0 ≤ max b (v * bs) ∧ max b (v * bs) ≤ min e ((v + 1) * bs) ∧
    min e ((v + 1) * bs) < 2 ^ 63) (destUidValue : Key) :
    (logRangeOf hashlittle knobs b e destUidValue bs v).1 ≤
      (logRangeOf hashlittle knobs b e destUidValue bs v).2 := by
  obtain ⟨hlo, hlohi, hhi⟩ := hv
  have hmod : ∀ x : ℤ, 0 ≤ x → x < 2 ^ 63 → (x % 2 ^ 64).toNat = x.toNat := fun x h0 h => by
    rw [Int.emod_eq_of_lt h0 (by omega)]
  simp only [logRangeOf, hmod _ hlo (by omega), hmod _ (by omega) hhi]
  exact List.append_le_append_left _ (toBytes_le_toBytes (by omega) (by omega) (by omega))

end Blocks

lemma mapM_keyRange {α : Type} (f : α → Key × Key) :
    ∀ l : List α, (∀ x ∈ l, (f x).1 ≤ (f x).2) →
      ∃ rs, l.mapM (fun x => keyRange (f x).1 (f x).2) = .ok rs ∧
        rs.map (fun r => (r.begin, r.end)) = l.map f
  | [], _ => ⟨[], rfl, rfl⟩
  | x :: l, h => by
    obtain ⟨rs, hrs, hmap⟩ := mapM_keyRange f l fun y hy => h y (.tail _ hy)
    refine ⟨⟨(f x).1, (f x).2, h x (.head _)⟩ :: rs, ?_, by simp [hmap]⟩
    rw [List.mapM_cons, hrs]
    simp [keyRange, h x (.head _), bind, Except.bind, pure, Except.pure]

section Ranges

variable {b e bs c : ℤ}

lemma countP_logRanges (hb : 0 ≤ b) (hbe : b ≤ e) (he : e < 2 ^ 63) (hbs : 0 < bs)
    (hdvd : bs ∣ knobs.LOG_RANGE_BLOCK_SIZE) (hc : 0 ≤ c) (hc' : c < 2 ^ 63)
    (destUidValue : Key) (part : ℕ) :
    (((List.range ((e + bs - 1).tdiv bs - b.tdiv bs).toNat).map fun i : ℕ => b.tdiv bs + i).map
        (logRangeOf hashlittle knobs b e destUidValue bs)).countP
        (fun r => decide (r.1 ≤ backupLogKey hashlittle knobs (backupLogKeysBegin ++ destUidValue) c part ∧
          backupLogKey hashlittle knobs (backupLogKeysBegin ++ destUidValue) c part < r.2)) =
      if b ≤ c ∧ c < e then 1 else 0 := by
  rw [Int.tdiv_eq_ediv_of_nonneg hb, Int.tdiv_eq_ediv_of_nonneg (by omega), List.countP_map,
    List.countP_map]
  -- each visited block holds the key exactly when it is `c`'s block and `c` was asked for
  have hblock : ∀ i ∈ List.range ((e + bs - 1) / bs - b / bs).toNat,
      ((fun r => decide (r.1 ≤ backupLogKey hashlittle knobs (backupLogKeysBegin ++ destUidValue) c part ∧
          backupLogKey hashlittle knobs (backupLogKeysBegin ++ destUidValue) c part < r.2)) ∘
        logRangeOf hashlittle knobs b e destUidValue bs ∘ fun i : ℕ => b / bs + i) i = true ↔
      i = (c / bs - b / bs).toNat ∧ b ≤ c ∧ c < e := by
    intro i hi
    rw [List.mem_range] at hi
    have hv := logRange_versions hb hbe he hbs (v := b / bs + i) (by omega) (by omega)
    simp only [Function.comp_apply, decide_eq_true_eq]
    rw [logRange_mem_iff hashlittle knobs he hbs hdvd hc hc' hv destUidValue part]
    constructor
    · rintro ⟨hv, hrest⟩
      exact ⟨by omega, hrest⟩
    · rintro ⟨hi', hbc, hce⟩
      have : b / bs ≤ c / bs := Int.ediv_le_ediv hbs hbc
      exact ⟨by omega, hbc, hce⟩
  split_ifs with hin
  · -- `c`'s block is one of those visited
    have hfirst : b / bs ≤ c / bs := Int.ediv_le_ediv hbs hin.1
    have hlast : c / bs < (e + bs - 1) / bs := by
      have h1 : c / bs ≤ (e - 1) / bs := Int.ediv_le_ediv hbs (by omega)
      have h2 : (e - 1 + 1 * bs) / bs = (e - 1) / bs + 1 := Int.add_mul_ediv_right _ _ hbs.ne'
      rw [show e + bs - 1 = e - 1 + 1 * bs by ring, h2]
      omega
    calc _ = (List.range ((e + bs - 1) / bs - b / bs).toNat).count (c / bs - b / bs).toNat := by
          rw [List.count_eq_countP]
          exact List.countP_congr fun i hi => (hblock i hi).trans (by simp [hin])
      _ = 1 := by rw [List.count_range, if_pos (by omega)]
  · exact List.countP_eq_zero.mpr fun i hi h => hin ((hblock i hi).mp h).2

lemma getLogRanges_countP (hb : 0 ≤ b) (hbe : b ≤ e) (he : e < 2 ^ 63) (hbs : 0 < bs)
    (hdvd : bs ∣ knobs.LOG_RANGE_BLOCK_SIZE) (hc : 0 ≤ c) (hc' : c < 2 ^ 63)
    (destUidValue : Key) (part : ℕ) :
    ∃ rs, getLogRanges hashlittle knobs b e destUidValue bs = .ok rs ∧
      rs.countP (fun r => decide (r.contains
        (backupLogKey hashlittle knobs (backupLogKeysBegin ++ destUidValue) c part))) =
        if b ≤ c ∧ c < e then 1 else 0 := by
  obtain ⟨rs, hrs, hmap⟩ := mapM_keyRange (logRangeOf hashlittle knobs b e destUidValue bs)
    ((List.range ((e + bs - 1).tdiv bs - b.tdiv bs).toNat).map fun i : ℕ => b.tdiv bs + i) (by
      intro v hv
      obtain ⟨i, hi, rfl⟩ := List.mem_map.mp hv
      rw [List.mem_range] at hi
      rw [Int.tdiv_eq_ediv_of_nonneg hb, Int.tdiv_eq_ediv_of_nonneg (by omega)] at hi
      rw [Int.tdiv_eq_ediv_of_nonneg hb]
      exact logRangeOf_le hashlittle knobs
        (logRange_versions hb hbe he hbs (v := b / bs + i) (by omega) (by omega)) destUidValue)
  refine ⟨rs, hrs, ?_⟩
  have hcount : ∀ key : Key, rs.countP (fun r => decide (r.contains key)) =
      (rs.map fun r => (r.begin, r.end)).countP (fun r => decide (r.1 ≤ key ∧ key < r.2)) := by
    intro key
    rw [List.countP_map]
    rfl
  rw [hcount, hmap, countP_logRanges hashlittle knobs hb hbe he hbs hdvd hc hc']

/-- With `e + bs ≤ 2^63`, the sums and products `getLogRanges` computes in `int64` (the
last block's bound and each block's begin and end) stay in range, so the model's `ℤ`
arithmetic is the source's. -/
lemma getLogRanges_in_int64 (hb : 0 ≤ b) (hbe : b ≤ e) (hbs : 0 < bs) (he : e + bs ≤ 2 ^ 63)
    {i : ℕ} (hi : i < ((e + bs - 1).tdiv bs - b.tdiv bs).toNat) :
    e + bs - 1 < 2 ^ 63 ∧ 0 ≤ (b.tdiv bs + i) * bs ∧ (b.tdiv bs + i + 1) * bs < 2 ^ 63 := by
  have hnum : 0 ≤ e + bs - 1 := by omega
  simp only [Int.tdiv_eq_ediv_of_nonneg hnum, Int.tdiv_eq_ediv_of_nonneg hb] at hi ⊢
  have hlast : b / bs + i + 1 ≤ (e + bs - 1) / bs := by
    have := Int.lt_toNat.mp hi
    omega
  have hfirst : 0 ≤ b / bs := Int.ediv_nonneg hb hbs.le
  refine ⟨by omega, mul_nonneg (by omega) hbs.le, ?_⟩
  calc (b / bs + i + 1) * bs ≤ (e + bs - 1) / bs * bs := mul_le_mul_of_nonneg_right hlast hbs.le
    _ ≤ e + bs - 1 := Int.ediv_mul_le _ (by omega)
    _ < 2 ^ 63 := by omega

lemma decodeBKMutationLogKey_backupLogKey {destUidValue : Key} (hlen : destUidValue.length = 16)
    (hc : 0 ≤ c) (hc' : c < 2 ^ 63) {part : ℕ} (hpart : part < 2 ^ 32) :
    decodeBKMutationLogKey
        (backupLogKey hashlittle knobs (backupLogKeysBegin ++ destUidValue) c part) = (c, part) := by
  -- past the prefix, the UID and the hash byte come the version's bytes, then the part's
  have hdrop : (backupLogKey hashlittle knobs (backupLogKeysBegin ++ destUidValue) c part).drop
      (backupLogPrefixBytes + 16 + 1) = BigEndian.toBytes 8 c.toNat ++ BigEndian.toBytes 4 part := by
    rw [backupLogKey, Int.emod_eq_of_lt hc (by omega),
      List.append_assoc (backupLogKeysBegin ++ destUidValue ++ _)]
    exact List.drop_left' (by simp [backupLogKeysBegin, backupLogPrefixBytes, hlen])
  have hversion : BigEndian.ofBytes (BigEndian.toBytes 8 c.toNat) = c.toNat := by
    rw [BigEndian.ofBytes_toBytes, Nat.mod_eq_of_lt (by omega)]
  have hpart' : BigEndian.ofBytes (BigEndian.toBytes 4 part) = part := by
    rw [BigEndian.ofBytes_toBytes, Nat.mod_eq_of_lt (by omega)]
  have hpartDrop : (backupLogKey hashlittle knobs (backupLogKeysBegin ++ destUidValue) c part).drop
      (backupLogPrefixBytes + 16 + 1 + 8) = BigEndian.toBytes 4 part := by
    rw [← List.drop_drop, hdrop, List.drop_left' (BigEndian.length_toBytes 8 _)]
  have hbmod : Int.bmod c (2 ^ 64) = c := Int.bmod_eq_of_le (by omega) (by omega)
  unfold decodeBKMutationLogKey getLogKeyVersion
  rw [hdrop, hpartDrop, List.take_left' (BigEndian.length_toBytes 8 _),
    List.take_of_length_le (le_of_eq (BigEndian.length_toBytes 4 _))]
  -- the part reads back at once; the version through its two's-complement reading
  refine Prod.ext ?_ hpart'
  rw [hversion, Int.toNat_of_nonneg hc]
  exact hbmod

end Ranges

end FoundationDB.Backup
