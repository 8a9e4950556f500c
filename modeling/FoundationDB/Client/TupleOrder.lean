import FoundationDB.Client.TupleCodec
import Mathlib

/-! The order of packed tuples. An integer's type code counts its bytes, upwards for
positives and downwards for negatives, so a longer positive or a shorter negative sorts
later, and integers with as many bytes compare by those bytes. Escaping keeps the order of
byte strings, since an escaped zero is followed by `\xff` and the terminator by nothing. A
tuple's range holds every tuple that extends it. -/

namespace FoundationDB.Tuple

open BigEndian

section Int

variable (v : BitVec 64)

lemma toInt_of_not_neg (h : ¬v.toInt < 0) : v.toInt = v.toNat := by
  have hv := (toInt_neg_iff v).not.mp h
  rw [BitVec.toInt_eq_toNat_cond, if_pos (by omega)]

lemma toInt_of_neg (h : v.toInt < 0) : v.toInt = v.toNat - 2 ^ 64 := by
  have hv := (toInt_neg_iff v).mp h
  have hlt := v.isLt
  rw [BitVec.toInt_eq_toNat_cond, if_neg (by omega)]
  simp

lemma intBytes_of_not_neg (h : ¬v.toInt < 0) :
    intBytes v = (toBytes 8 v.toNat).dropWhile (· = ⊥) := by
  simp [intBytes, signedWord, padByte, h, bot_eq_zero]

lemma intBytes_of_neg (h : v.toInt < 0) :
    intBytes v = (toBytes 8 (v.toNat - 1)).dropWhile (· = ⊤) := by
  rw [intBytes, signedWord_toNat_of_neg v h]
  simp [padByte, h, Fin.top_eq_last]

lemma pack_build_int : (build [.int v]).pack = intCode v :: intBytes v := by
  simp [build_eq, pack, encode_int]

end Int

lemma toBytes_word_lt {x y : ℕ} (hx : x < 2 ^ 64) (hy : y < 2 ^ 64) (h : x < y) :
    toBytes 8 x < toBytes 8 y :=
  (toBytes_lt_toBytes (by simpa using hx) (by simpa using hy)).mpr h

/-- Packed integers keep the order of the integers. -/
theorem pack_int_lt {a b : BitVec 64} (h : a.toInt < b.toInt) :
    (build [.int a]).pack < (build [.int b]).pack := by
  rw [pack_build_int, pack_build_int]
  have hca := intCode_val a
  have hcb := intCode_val b
  have hla := length_intBytes_le a
  have hlb := length_intBytes_le b
  have ha := a.isLt
  have hb := b.isLt
  by_cases hna : a.toInt < 0
  · by_cases hnb : b.toInt < 0
    · -- two negatives: more bytes sort first, and as many compare by their bytes
      have ha63 := (toInt_neg_iff a).mp hna
      rw [toInt_of_neg a hna, toInt_of_neg b hnb] at h
      have hbytes : toBytes 8 (a.toNat - 1) < toBytes 8 (b.toNat - 1) :=
        toBytes_word_lt (by omega) (by omega) (by omega)
      rw [if_pos hna] at hca
      rw [if_pos hnb] at hcb
      rw [intBytes_of_neg a hna] at hca hla ⊢
      rw [intBytes_of_neg b hnb] at hcb hlb ⊢
      rcases List.dropWhile_top_lt (by simp) hbytes with hlen | ⟨hlen, hlt⟩
      · apply List.cons_lt_cons_iff.mpr (.inl _)
        rw [Fin.lt_def, hca, hcb]
        omega
      · have hcode : intCode a = intCode b := Fin.ext (by rw [hca, hcb, hlen])
        exact List.cons_lt_cons_iff.mpr (.inr ⟨hcode, hlt⟩)
    · -- a negative's code is below `\x14`, a positive's at or above it
      have hpos := List.length_pos_of_ne_nil (intBytes_ne_nil_of_neg a hna)
      apply List.cons_lt_cons_iff.mpr (.inl _)
      rw [Fin.lt_def, hca, hcb, if_pos hna, if_neg hnb]
      omega
  · have hnb : ¬b.toInt < 0 := by omega
    -- two positives: fewer bytes sort first, and as many compare by their bytes
    rw [toInt_of_not_neg a hna, toInt_of_not_neg b hnb] at h
    have hbytes : toBytes 8 a.toNat < toBytes 8 b.toNat := toBytes_word_lt ha hb (by omega)
    rw [if_neg hna] at hca
    rw [if_neg hnb] at hcb
    rw [intBytes_of_not_neg a hna] at hca ⊢
    rw [intBytes_of_not_neg b hnb] at hcb ⊢
    rcases List.dropWhile_bot_lt (by simp) hbytes with hlen | ⟨hlen, hlt⟩
    · apply List.cons_lt_cons_iff.mpr (.inl _)
      rw [Fin.lt_def, hca, hcb]
      omega
    · have hcode : intCode a = intCode b := Fin.ext (by rw [hca, hcb, hlen])
      exact List.cons_lt_cons_iff.mpr (.inr ⟨hcode, hlt⟩)

theorem pack_int_lt_min_max :
    (0x8000000000000000#64).toInt < (0x7fffffffffffffff#64).toInt ∧
      (build [.int 0x8000000000000000#64]).pack < (build [.int 0x7fffffffffffffff#64]).pack :=
  ⟨by decide, pack_int_lt (by decide)⟩

lemma escapeNulls_append_lt {x y : List (Fin 256)} (h : x < y) :
    escapeNulls x ++ [0] < escapeNulls y ++ [0] := by
  induction x generalizing y with
  | nil =>
    cases y with
    | nil => exact absurd h (List.not_lt_nil _)
    | cons c ys =>
      by_cases hc : c = 0
      · simp [escapeNulls, hc]
      · have hpos : (0 : Fin 256) < c := Fin.pos_iff_ne_zero.mpr hc
        simp [escapeNulls, hc, List.cons_lt_cons_iff, hpos]
  | cons a xs ih =>
    cases y with
    | nil => exact absurd h (List.not_lt_nil _)
    | cons b ys =>
      rcases List.cons_lt_cons_iff.mp h with hab | ⟨rfl, hxs⟩
      · -- the first bytes differ, and `b` is not an escaped zero
        have hb : b ≠ 0 := (lt_of_le_of_lt (Fin.zero_le a) hab).ne'
        by_cases ha : a = 0
        · subst ha
          simp [escapeNulls, hb, List.cons_lt_cons_iff, hab]
        · simp [escapeNulls, ha, hb, List.cons_lt_cons_iff, hab]
      · have hesc : ∀ zs, escapeNulls (a :: zs) ++ [0] =
            (if a = 0 then [0, 255] else [a]) ++ (escapeNulls zs ++ [0]) := by
          intro zs
          simp [escapeNulls]
        rw [hesc, hesc]
        exact List.append_left_lt (ih hxs)

/-- Packed byte strings keep the order of the strings. -/
theorem pack_bytes_lt {x y : List (Fin 256)} (h : x < y) :
    (build [.bytes x]).pack < (build [.bytes y]).pack := by
  simp only [build_eq, pack, List.map_cons, List.map_nil, List.flatten_cons, List.flatten_nil,
    List.append_nil, encode_bytes]
  exact List.cons_lt_cons_iff.mpr (.inr ⟨rfl, escapeNulls_append_lt h⟩)

theorem pack_bytes_lt_escaped_zero :
    ([0] : List (Fin 256)) < [0, 0] ∧ (build [.bytes [0]]).pack < (build [.bytes [0, 0]]).pack :=
  ⟨by decide, pack_bytes_lt (by decide)⟩

/-- Every tuple that extends a tuple by at least one element lies in its range. -/
theorem append_build_mem_range (t : Tuple) {es : List Element} (hes : es ≠ []) :
    (t.range).contains (t.append (build es)).pack := by
  obtain ⟨e, es', rfl⟩ := List.exists_cons_of_ne_nil hes
  obtain ⟨c, l, hc⟩ : ∃ c l, encode e = c :: l := List.exists_cons_of_ne_nil (encode_ne_nil e)
  have hne : c ≠ 255 := by simpa [hc] using encode_head_ne e
  have hpack : (t.append (build (e :: es'))).pack = t.data ++ c :: (l ++ ((es'.map encode).flatten)) := by
    simp [append, pack, build_eq, hc]
  rw [hpack]
  refine ⟨?_, ?_⟩
  · -- the range starts with a zero byte after the tuple, the least way to extend it
    show t.data ++ [] ++ [0] ≤ _
    rw [List.append_nil]
    rcases (Fin.zero_le c).lt_or_eq with hpos | rfl
    · exact (List.append_left_lt (List.cons_lt_cons_iff.mpr (.inl hpos))).le
    · cases h : l ++ (es'.map encode).flatten with
      | nil => exact le_rfl
      | cons d m =>
        exact (List.append_left_lt (List.cons_lt_cons_iff.mpr (.inr ⟨rfl, List.nil_lt_cons d m⟩))).le
  · show _ < t.data ++ [] ++ [255]
    rw [List.append_nil]
    have hlt : c < 255 := lt_of_le_of_ne (Fin.le_last c) hne
    exact List.append_left_lt (List.cons_lt_cons_iff.mpr (.inl hlt))

theorem append_null_mem_range :
    [Element.null] ≠ [] ∧ ((build [.int 5]).range).contains ((build [.int 5]).append (build [.null])).pack :=
  ⟨by decide, append_build_mem_range _ (by decide)⟩

end FoundationDB.Tuple
