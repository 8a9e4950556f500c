import FoundationDB.Client.Atomic
import FoundationDB.Library.LittleEndian

/-! What the atomic operations of `Atomic.h` compute. The arithmetic ones read the operand as
an unsigned little-endian number of its own width, and the existing value as a number of that
width too, cut or padded with zeros (`extendTo`). The bitwise ones work byte by byte on the
same two strings, and the byte ones compare the strings lexicographically. -/

namespace FoundationDB

open LittleEndian (ofBytes toBytes)

section ExtendTo

@[simp] lemma length_extendTo (e : Value) (n : ℕ) : (extendTo e n).length = n := by
  simp only [extendTo, List.length_append, List.length_take, List.length_replicate]
  omega

@[simp] lemma extendTo_zero (e : Value) : extendTo e 0 = [] := by
  simp [extendTo]

lemma extendTo_nil_succ (n : ℕ) : extendTo [] (n + 1) = 0 :: extendTo [] n := by
  simp [extendTo, List.replicate_succ]

lemma extendTo_cons_succ (x : Fin 256) (e : Value) (n : ℕ) :
    extendTo (x :: e) (n + 1) = x :: extendTo e n := by
  simp [extendTo]

/-- Only the first `n` bytes of the existing value count. -/
@[simp] lemma extendTo_take (e : Value) (n : ℕ) : extendTo (e.take n) n = extendTo e n := by
  simp only [extendTo, List.take_take, min_self, List.length_take]
  congr 2
  omega

lemma extendTo_of_length_le {e : Value} {n : ℕ} (h : e.length ≤ n) :
    extendTo e n = e ++ List.replicate (n - e.length) 0 := by
  rw [extendTo, List.take_of_length_le h]

lemma ofBytes_extendTo_nil (n : ℕ) : ofBytes (extendTo [] n) = 0 := by
  simp [extendTo, LittleEndian.ofBytes_eq_zero_iff]

lemma getD_extendTo {e : Value} {n i : ℕ} (hn : i < n) (he : i < e.length) :
    (extendTo e n).getD i 0 = e.getD i 0 := by
  rw [extendTo, List.getD_eq_getElem?_getD, List.getElem?_append_left (by simp; omega),
    List.getElem?_take, if_pos hn, ← List.getD_eq_getElem?_getD]

end ExtendTo

lemma toBytes_succ_of_eq {n x y : ℕ} {b : Fin 256} (h : x = b.val + 256 * y) :
    toBytes (n + 1) x = b :: toBytes n y := by
  have hb := b.isLt
  rw [LittleEndian.toBytes, show x / 256 = y by omega]
  exact congrArg (· :: _) (Fin.ext (by simp only; omega))

lemma addBytes_eq (e o : Value) (carry : ℕ) :
    addBytes e o carry = toBytes o.length (ofBytes (extendTo e o.length) + ofBytes o + carry) := by
  induction o generalizing e carry with
  | nil => cases e <;> rfl
  | cons b os ih =>
    cases e with
    | nil =>
      rw [addBytes, ih, List.length_cons, extendTo_nil_succ]
      exact (toBytes_succ_of_eq (by
        simp only [LittleEndian.ofBytes, ofBytes_extendTo_nil, Fin.val_zero]; omega)).symm
    | cons x es =>
      rw [addBytes, ih, List.length_cons, extendTo_cons_succ]
      exact (toBytes_succ_of_eq (by simp only [LittleEndian.ofBytes]; omega)).symm

section Compare

lemma ofBytes_lt_of_drop_eq {a b : Value} {i : ℕ} (hlen : a.length = b.length)
    (hi : i < a.length) (hdrop : a.drop (i + 1) = b.drop (i + 1))
    (hlt : a.getD i 0 < b.getD i 0) : ofBytes a < ofBytes b := by
  have hib : i < b.length := hlen ▸ hi
  -- each string is its `i` low bytes, its byte `i`, and the common high part
  have hsplit : ∀ l : Value, (hl : i < l.length) →
      ofBytes l = ofBytes (l.take i) + 256 ^ i * ((l.getD i 0).val + 256 * ofBytes (l.drop (i + 1))) := by
    intro l hl
    conv_lhs => rw [← List.take_append_drop i l, List.drop_eq_getElem_cons hl]
    rw [LittleEndian.ofBytes_append, List.length_take, min_eq_left hl.le, List.getD_eq_getElem _ _ hl]
    rfl
  have hlowA := LittleEndian.ofBytes_lt (a.take i)
  have hlowB := Nat.zero_le (ofBytes (b.take i))
  rw [List.length_take, min_eq_left hi.le] at hlowA
  have hstep : 256 ^ i * ((a.getD i 0).val + 1) ≤ 256 ^ i * (b.getD i 0).val :=
    Nat.mul_le_mul_left _ hlt
  rw [hsplit a hi, hsplit b hib, hdrop]
  nlinarith

lemma ofBytes_lt_of_high_ne_zero {e o : Value} (h : (highBytes e o).any (· ≠ 0)) :
    ofBytes (extendTo e o.length) < ofBytes o := by
  obtain ⟨x, hx, hx0⟩ := List.any_eq_true.mp h
  have hlen : e.length < o.length := by
    by_contra hle
    simp [highBytes, List.drop_eq_nil_of_le (not_lt.mp hle)] at hx
  -- the existing value stays below `256 ^ e.length`, the operand reaches it
  have hA : ofBytes (extendTo e o.length) < 256 ^ e.length := by
    have hz : ofBytes (List.replicate (o.length - e.length) 0) = 0 :=
      LittleEndian.ofBytes_eq_zero_iff.mpr fun _ hb => by rw [List.eq_of_mem_replicate hb]; rfl
    rw [extendTo_of_length_le hlen.le, LittleEndian.ofBytes_append, hz]
    simpa using LittleEndian.ofBytes_lt e
  have hhigh : 1 ≤ ofBytes (highBytes e o) := by
    by_contra h0
    have := (LittleEndian.ofBytes_eq_zero_iff).mp (by omega) x hx
    exact of_decide_eq_true hx0 (Fin.ext this)
  have hO : ofBytes o = ofBytes (o.take e.length) + 256 ^ e.length * ofBytes (highBytes e o) := by
    conv_lhs => rw [← List.take_append_drop e.length o]
    rw [LittleEndian.ofBytes_append, List.length_take, min_eq_left hlen.le, highBytes]
  rw [hO]
  nlinarith

lemma drop_extendTo_of_high_eq_zero {e o : Value} (h : ¬(highBytes e o).any (· ≠ 0)) :
    (extendTo e o.length).drop (min e.length o.length) = o.drop (min e.length o.length) := by
  rcases le_or_gt o.length e.length with hle | hlt
  · rw [min_eq_right hle, List.drop_eq_nil_of_le (by simp), List.drop_eq_nil_of_le le_rfl]
  · have hzero : ∀ x ∈ highBytes e o, x = 0 := by
      simpa using h
    rw [min_eq_left hlt.le, extendTo_of_length_le hlt.le, List.drop_left' rfl]
    exact (List.eq_replicate_iff.mpr ⟨by simp [highBytes], hzero⟩).symm
end Compare

section Loops

variable {e o : Value}

lemma getD_eq_of_drop_eq {a b : Value} {i : ℕ} (hi : i < a.length) (hib : i < b.length)
    (hdrop : a.drop (i + 1) = b.drop (i + 1)) (hget : a.getD i 0 = b.getD i 0) :
    a.drop i = b.drop i := by
  rw [List.drop_eq_getElem_cons hi, List.drop_eq_getElem_cons hib, hdrop,
    ← List.getD_eq_getElem _ 0 hi, ← List.getD_eq_getElem _ 0 hib, hget]

lemma maxLoop_eq : ∀ {i : ℕ}, i ≤ e.length → i ≤ o.length →
    (extendTo e o.length).drop i = o.drop i →
    maxLoop e o i = if ofBytes o < ofBytes (extendTo e o.length) then extendTo e o.length else o
  | 0, _, _, hdrop => by
    have heq : extendTo e o.length = o := by simpa using hdrop
    simp [maxLoop, heq]
  | i + 1, he, ho, hdrop => by
    have hlen := length_extendTo e o.length
    have hget : (extendTo e o.length).getD i 0 = e.getD i 0 := getD_extendTo (by omega) (by omega)
    rw [maxLoop]
    by_cases hgt : o.getD i 0 > e.getD i 0
    · -- the operand's byte is higher: it is the larger number
      have hAO := ofBytes_lt_of_drop_eq hlen (by omega) hdrop (hget ▸ hgt)
      rw [if_pos hgt, if_neg (not_lt.mpr hAO.le)]
    by_cases hlt : o.getD i 0 < e.getD i 0
    · have hOA := ofBytes_lt_of_drop_eq hlen.symm (by omega) hdrop.symm (hget ▸ hlt)
      rw [if_neg hgt, if_pos hlt, if_pos hOA]
    -- equal bytes: the strings agree from `i` up
    have hsame : (extendTo e o.length).getD i 0 = o.getD i 0 := by
      rw [hget]
      exact le_antisymm (not_lt.mp hlt) (not_lt.mp hgt)
    rw [if_neg hgt, if_neg hlt]
    exact maxLoop_eq (by omega) (by omega) (getD_eq_of_drop_eq (by omega) (by omega) hdrop hsame)

lemma minLoop_eq : ∀ {i : ℕ}, i ≤ e.length → i ≤ o.length →
    (extendTo e o.length).drop i = o.drop i →
    minLoop e o i = if ofBytes (extendTo e o.length) < ofBytes o then extendTo e o.length else o
  | 0, _, _, hdrop => by
    have heq : extendTo e o.length = o := by simpa using hdrop
    simp [minLoop, heq]
  | i + 1, he, ho, hdrop => by
    have hlen := length_extendTo e o.length
    have hget : (extendTo e o.length).getD i 0 = e.getD i 0 := getD_extendTo (by omega) (by omega)
    rw [minLoop]
    by_cases hgt : o.getD i 0 > e.getD i 0
    · have hAO := ofBytes_lt_of_drop_eq hlen (by omega) hdrop (hget ▸ hgt)
      rw [if_pos hgt, if_pos hAO]
    by_cases hlt : o.getD i 0 < e.getD i 0
    · have hOA := ofBytes_lt_of_drop_eq hlen.symm (by omega) hdrop.symm (hget ▸ hlt)
      rw [if_neg hgt, if_pos hlt, if_neg (not_lt.mpr hOA.le)]
    have hsame : (extendTo e o.length).getD i 0 = o.getD i 0 := by
      rw [hget]
      exact le_antisymm (not_lt.mp hlt) (not_lt.mp hgt)
    rw [if_neg hgt, if_neg hlt]
    exact minLoop_eq (by omega) (by omega) (getD_eq_of_drop_eq (by omega) (by omega) hdrop hsame)

end Loops

section Bytewise

lemma zero_land (x : Fin 256) : (0 &&& x) = 0 := by
  apply Fin.ext
  simp

lemma zero_lor (x : Fin 256) : (0 ||| x) = x := by
  apply Fin.ext
  simp

lemma zero_xor (x : Fin 256) : (0 ^^^ x) = x := by
  apply Fin.ext
  simp

lemma andBytes_eq (e o : Value) : andBytes e o = List.zipWith (· &&& ·) (extendTo e o.length) o := by
  induction o generalizing e with
  | nil => cases e <;> simp [andBytes]
  | cons x os ih =>
    cases e with
    | nil => rw [andBytes, ih, List.length_cons, extendTo_nil_succ, List.zipWith_cons_cons, zero_land]
    | cons y es => rw [andBytes, ih, List.length_cons, extendTo_cons_succ, List.zipWith_cons_cons]

lemma zipBytes_eq {op : Fin 256 → Fin 256 → Fin 256} (hop : ∀ x, op 0 x = x) (e o : Value) :
    zipBytes op e o = List.zipWith op (extendTo e o.length) o := by
  induction o generalizing e with
  | nil => cases e <;> simp [zipBytes]
  | cons x os ih =>
    cases e with
    | nil =>
      rw [List.length_cons, extendTo_nil_succ, List.zipWith_cons_cons, hop, ← ih]
      cases os <;> rfl
    | cons y es => rw [zipBytes, ih, List.length_cons, extendTo_cons_succ, List.zipWith_cons_cons]

end Bytewise

section Ops

variable (existingValueOptional : Option Value) (otherOperand : Value)

lemma toBytes_extendTo (e : Value) (n : ℕ) : toBytes n (ofBytes (extendTo e n)) = extendTo e n := by
  simpa using LittleEndian.toBytes_ofBytes (extendTo e n)

lemma doLittleEndianAdd_eq (he : existingValueOptional.getD [] ≠ []) (ho : otherOperand ≠ []) :
    doLittleEndianAdd existingValueOptional otherOperand =
      toBytes otherOperand.length
        ((ofBytes (extendTo (existingValueOptional.getD []) otherOperand.length) +
          ofBytes otherOperand) % 256 ^ otherOperand.length) := by
  simp only [doLittleEndianAdd, List.length_eq_zero_iff, he, ho, if_false, addBytes_eq, add_zero,
    LittleEndian.toBytes_mod]

lemma doMax_eq {otherOperand : Value} (ho : otherOperand ≠ []) :
    doMax existingValueOptional otherOperand =
      toBytes otherOperand.length
        (max (ofBytes (extendTo (existingValueOptional.getD []) otherOperand.length))
          (ofBytes otherOperand)) := by
  set e := existingValueOptional.getD []
  set o := otherOperand
  have hO := LittleEndian.toBytes_ofBytes o
  simp only [doMax, List.length_eq_zero_iff, ho, if_false]
  by_cases he : e = []
  · -- an empty existing value reads as zero
    rw [if_pos he, he, ofBytes_extendTo_nil, max_eq_right (Nat.zero_le _), hO]
  rw [if_neg he]
  by_cases hhigh : (highBytes e o).any (· ≠ 0)
  · rw [if_pos hhigh, max_eq_right (ofBytes_lt_of_high_ne_zero hhigh).le, hO]
  rw [if_neg hhigh, maxLoop_eq (min_le_left _ _) (min_le_right _ _)
    (drop_extendTo_of_high_eq_zero hhigh), max_def]
  by_cases hlt : ofBytes o < ofBytes (extendTo e o.length)
  · rw [if_pos hlt, if_neg (not_le.mpr hlt), toBytes_extendTo]
  · rw [if_neg hlt, if_pos (not_lt.mp hlt), hO]

lemma doMin_eq {otherOperand : Value} (ho : otherOperand ≠ []) :
    doMin existingValueOptional otherOperand =
      toBytes otherOperand.length
        (min (ofBytes (extendTo (existingValueOptional.getD []) otherOperand.length))
          (ofBytes otherOperand)) := by
  set e := existingValueOptional.getD []
  set o := otherOperand
  have hO := LittleEndian.toBytes_ofBytes o
  simp only [doMin, List.length_eq_zero_iff, ho, if_false]
  by_cases hhigh : (highBytes e o).any (· ≠ 0)
  · rw [if_pos hhigh, min_eq_left (ofBytes_lt_of_high_ne_zero hhigh).le, toBytes_extendTo]
  rw [if_neg hhigh, minLoop_eq (min_le_left _ _) (min_le_right _ _)
    (drop_extendTo_of_high_eq_zero hhigh), min_def]
  rcases lt_trichotomy (ofBytes (extendTo e o.length)) (ofBytes o) with hlt | heq | hgt
  · rw [if_pos hlt, if_pos hlt.le, toBytes_extendTo]
  · -- on a tie both strings write the same number
    rw [if_neg (by omega), if_pos heq.le, heq, hO]
  · rw [if_neg (by omega), if_neg (not_le.mpr hgt), hO]

lemma doAnd_eq : doAnd existingValueOptional otherOperand =
    List.zipWith (· &&& ·) (extendTo (existingValueOptional.getD []) otherOperand.length)
      otherOperand := by
  rw [doAnd, andBytes_eq]
  split_ifs with ho
  · rw [List.length_eq_zero_iff.mp ho, List.zipWith_nil_right]
  · rfl

lemma zipOp_eq {op : Fin 256 → Fin 256 → Fin 256} (hop : ∀ x, op 0 x = x) (e o : Value) :
    (if e.length = 0 then o else if o.length = 0 then o else zipBytes op e o) =
      List.zipWith op (extendTo e o.length) o := by
  rw [← zipBytes_eq hop]
  split_ifs with he ho
  · rw [List.length_eq_zero_iff.mp he]
    cases o <;> rfl
  · rw [List.length_eq_zero_iff.mp ho]
    cases e <;> rfl
  · rfl

lemma doOr_eq : doOr existingValueOptional otherOperand =
    List.zipWith (· ||| ·) (extendTo (existingValueOptional.getD []) otherOperand.length)
      otherOperand :=
  zipOp_eq zero_lor _ _

lemma doXor_eq : doXor existingValueOptional otherOperand =
    List.zipWith (· ^^^ ·) (extendTo (existingValueOptional.getD []) otherOperand.length)
      otherOperand :=
  zipOp_eq zero_xor _ _

lemma doByteMax_some (existingValue : Value) :
    doByteMax (some existingValue) otherOperand = max existingValue otherOperand := by
  rw [doByteMax, max_def]
  split_ifs with hgt hle
  · exact absurd hle (not_le.mpr hgt)
  · rfl
  · rfl
  · exact absurd (not_le.mp ‹_›) hgt

lemma doByteMin_some (existingValue : Value) :
    doByteMin (some existingValue) otherOperand = min existingValue otherOperand := by
  rw [doByteMin, min_def]
  split_ifs with hlt hle hle
  · rfl
  · exact absurd hlt.le hle
  · exact le_antisymm (not_lt.mp hlt) hle
  · rfl

end Ops

section Prefix

/-! The storage server reads only a prefix of the existing value for an atomic operation
(`readValuePrefix`): as many bytes as the operand has, one more for `CompareAndClear`. Each
helper gives the same result on that prefix, presence kept, as on the whole value. -/

variable (existingValueOptional : Option Value) {otherOperand : Value} {L : ℕ}

lemma extendTo_getD_map_take {n : ℕ} (hL : n ≤ L) :
    extendTo ((existingValueOptional.map (·.take L)).getD []) n =
      extendTo (existingValueOptional.getD []) n := by
  cases existingValueOptional with
  | none => rfl
  | some e => rw [Option.map_some, Option.getD_some, Option.getD_some, ← extendTo_take,
      List.take_take, min_eq_left hL, extendTo_take]

lemma getD_map_take_eq_nil_iff (hL : 0 < L) :
    (existingValueOptional.map (·.take L)).getD [] = [] ↔ existingValueOptional.getD [] = [] := by
  cases existingValueOptional with
  | none => simp
  | some e => simp [List.take_eq_nil_iff, hL.ne']

variable (hL : otherOperand.length ≤ L)
include hL

lemma doLittleEndianAdd_take :
    doLittleEndianAdd (existingValueOptional.map (·.take L)) otherOperand =
      doLittleEndianAdd existingValueOptional otherOperand := by
  by_cases ho : otherOperand = []
  · -- an empty operand is the result, whatever the existing value
    subst ho
    simp [doLittleEndianAdd]
  have hpos : 0 < L := lt_of_lt_of_le (List.length_pos_iff.mpr ho) hL
  by_cases he : existingValueOptional.getD [] = []
  · have he' := (getD_map_take_eq_nil_iff existingValueOptional hpos).mpr he
    simp [doLittleEndianAdd, he, he']
  · have he' := (getD_map_take_eq_nil_iff existingValueOptional hpos).not.mpr he
    rw [doLittleEndianAdd_eq _ _ he' ho, doLittleEndianAdd_eq _ _ he ho,
      extendTo_getD_map_take _ hL]

lemma doMax_take : doMax (existingValueOptional.map (·.take L)) otherOperand =
    doMax existingValueOptional otherOperand := by
  by_cases ho : otherOperand = []
  · subst ho
    simp [doMax]
  · rw [doMax_eq _ ho, doMax_eq _ ho, extendTo_getD_map_take _ hL]

lemma doMin_take : doMin (existingValueOptional.map (·.take L)) otherOperand =
    doMin existingValueOptional otherOperand := by
  by_cases ho : otherOperand = []
  · subst ho
    simp [doMin]
  · rw [doMin_eq _ ho, doMin_eq _ ho, extendTo_getD_map_take _ hL]

lemma doMinV2_take : doMinV2 (existingValueOptional.map (·.take L)) otherOperand =
    doMinV2 existingValueOptional otherOperand := by
  cases existingValueOptional with
  | none => rfl
  | some e => exact doMin_take (some e) hL

lemma doAnd_take : doAnd (existingValueOptional.map (·.take L)) otherOperand =
    doAnd existingValueOptional otherOperand := by
  rw [doAnd_eq, doAnd_eq, extendTo_getD_map_take _ hL]

lemma doAndV2_take : doAndV2 (existingValueOptional.map (·.take L)) otherOperand =
    doAndV2 existingValueOptional otherOperand := by
  cases existingValueOptional with
  | none => rfl
  | some e => exact doAnd_take (some e) hL

lemma doOr_take : doOr (existingValueOptional.map (·.take L)) otherOperand =
    doOr existingValueOptional otherOperand := by
  rw [doOr_eq, doOr_eq, extendTo_getD_map_take _ hL]

lemma doXor_take : doXor (existingValueOptional.map (·.take L)) otherOperand =
    doXor existingValueOptional otherOperand := by
  rw [doXor_eq, doXor_eq, extendTo_getD_map_take _ hL]

omit hL in
lemma doCompareAndClear_take_isNone (hL : otherOperand.length + 1 ≤ L) :
    (doCompareAndClear (existingValueOptional.map (·.take L)) otherOperand).isNone =
      (doCompareAndClear existingValueOptional otherOperand).isNone := by
  cases existingValueOptional with
  | none => rfl
  | some e =>
    have htake : e.take L = otherOperand ↔ e = otherOperand := by
      constructor
      · intro h
        have hlen := congrArg List.length h
        rw [List.length_take] at hlen
        rwa [List.take_of_length_le (by omega)] at h
      · rintro rfl
        exact List.take_of_length_le (by omega)
    simp only [doCompareAndClear, Option.map_some, Option.isNone_some, Option.some.injEq, htake]
    split_ifs <;> rfl

end Prefix

/-- The atomic helpers compute on unsigned little-endian numbers of the operand's width, the
existing value cut or padded with zeros to it: `doLittleEndianAdd` adds them modulo
`256 ^ width`, `doMax` and `doMin` write the larger and the smaller, and `doAnd`, `doOr` and
`doXor` work byte by byte; `doByteMin` and `doByteMax` compare a present value and the operand
lexicographically. -/
theorem atomicOps_littleEndian (existingValueOptional : Option Value) (otherOperand : Value) :
    let existing := extendTo (existingValueOptional.getD []) otherOperand.length
    let width := otherOperand.length
    (existingValueOptional.getD [] ≠ [] → otherOperand ≠ [] →
      doLittleEndianAdd existingValueOptional otherOperand =
        toBytes width ((ofBytes existing + ofBytes otherOperand) % 256 ^ width)) ∧
    (otherOperand ≠ [] → doMax existingValueOptional otherOperand =
      toBytes width (max (ofBytes existing) (ofBytes otherOperand))) ∧
    (otherOperand ≠ [] → doMin existingValueOptional otherOperand =
      toBytes width (min (ofBytes existing) (ofBytes otherOperand))) ∧
    doAnd existingValueOptional otherOperand = List.zipWith (· &&& ·) existing otherOperand ∧
    doOr existingValueOptional otherOperand = List.zipWith (· ||| ·) existing otherOperand ∧
    doXor existingValueOptional otherOperand = List.zipWith (· ^^^ ·) existing otherOperand ∧
    ∀ existingValue, existingValueOptional = some existingValue →
      doByteMin existingValueOptional otherOperand = min existingValue otherOperand ∧
      doByteMax existingValueOptional otherOperand = max existingValue otherOperand := by
  intro existing width
  refine ⟨doLittleEndianAdd_eq existingValueOptional otherOperand,
    fun ho => doMax_eq existingValueOptional ho, fun ho => doMin_eq existingValueOptional ho,
    doAnd_eq existingValueOptional otherOperand, doOr_eq existingValueOptional otherOperand,
    doXor_eq existingValueOptional otherOperand, ?_⟩
  rintro existingValue rfl
  exact ⟨doByteMin_some otherOperand existingValue, doByteMax_some otherOperand existingValue⟩

end FoundationDB
