import FoundationDB.Client.Tuple

/-! What the tuple codec gets right, and where it does not. `unpack` finds again the offsets
that `append` wrote, and every getter but `getInt` reads back the value appended. `getInt`
does too unless the bytes from the integer's code to the end of the tuple, counted as an
`int8_t`, are fewer than the integer's own, when its assertion fails. Packed integers and
byte strings keep their order, and every extension of a tuple lies in its range. -/

namespace FoundationDB.Tuple

open BigEndian

/-- The bytes an element adds to a tuple. -/
def encode (x : Element) : List (Fin 256) := (empty.appendElement x).data

/-- Where the element at an index starts in the tuple of the elements. -/
def start (es : List Element) (i : ℕ) : ℕ := ((es.take i).map encode).flatten.length

section Build

@[simp] lemma start_zero (es : List Element) : start es 0 = 0 := by
  simp [start]

@[simp] lemma start_cons_succ (x : Element) (xs : List Element) (j : ℕ) :
    start (x :: xs) (j + 1) = (encode x).length + start xs j := by
  simp [start]

lemma appendElement_eq (t : Tuple) (x : Element) :
    t.appendElement x = ⟨t.data ++ encode x, t.offsets ++ [t.data.length]⟩ := by
  cases x <;> simp [appendElement, encode, appendString, appendInt, appendFloat, appendDouble,
    appendFloating, appendNull, empty]

lemma foldl_appendElement (t : Tuple) (es : List Element) :
    es.foldl appendElement t = ⟨t.data ++ (es.map encode).flatten,
      t.offsets ++ (List.range es.length).map fun j => t.data.length + start es j⟩ := by
  induction es generalizing t with
  | nil => simp
  | cons x xs ih =>
    rw [List.foldl_cons, ih, appendElement_eq]
    simp only [List.map_cons, List.flatten_cons, List.append_assoc, List.length_cons,
      List.range_succ_eq_map, List.map_map, List.length_append, start_zero, Nat.add_zero,
      List.cons_append, List.nil_append, Tuple.mk.injEq, true_and]
    congr 2
    apply List.map_congr_left
    intro j _
    simp [Nat.add_assoc]

lemma build_eq (es : List Element) :
    build es = ⟨(es.map encode).flatten, (List.range es.length).map (start es)⟩ := by
  simp [build, foldl_appendElement, empty]

end Build

section Escape

lemma length_escapeNulls_cons (c : Fin 256) (cs : List (Fin 256)) :
    (escapeNulls (c :: cs)).length = (if c = 0 then 2 else 1) + (escapeNulls cs).length := by
  by_cases hc : c = 0
  · simp [escapeNulls, hc]
    omega
  · simp [escapeNulls, hc]
    omega

lemma scanTerminator_escapeNulls (s rest : List (Fin 256)) (hrest : rest.head? ≠ some 255) :
    scanTerminator (escapeNulls s ++ 0 :: rest) = (escapeNulls s).length := by
  induction s with
  | nil =>
    cases rest with
    | nil => rfl
    | cons b r =>
      have hb : b ≠ 255 := fun h => hrest (by simp [h])
      simp [escapeNulls, scanTerminator, hb]
  | cons c cs ih =>
    rw [length_escapeNulls_cons]
    by_cases hc : c = 0
    · subst hc
      simp [escapeNulls, scanTerminator, ih]
    · -- a byte other than zero is passed over one at a time
      obtain ⟨b, r, hbr⟩ : ∃ b r, escapeNulls cs ++ 0 :: rest = b :: r := by
        cases h : escapeNulls cs ++ 0 :: rest with
        | nil => simp at h
        | cons b r => exact ⟨b, r, rfl⟩
      have hstep : escapeNulls (c :: cs) ++ 0 :: rest = c :: b :: r := by
        simp [escapeNulls, hc, hbr]
      rw [hstep, scanTerminator, if_neg (fun h => hc h.1), if_neg hc, ← hbr, ih]
      simp [hc]

lemma unescapeNulls_escapeNulls (s : List (Fin 256)) :
    unescapeNulls (escapeNulls s ++ [0]) = s := by
  induction s with
  | nil => rfl
  | cons c cs ih =>
    by_cases hc : c = 0
    · subst hc
      simp [escapeNulls, unescapeNulls, ih]
    · simp only [escapeNulls, hc, if_false, List.cons_append]
      rw [unescapeNulls.eq_def]
      simp [hc, ih]

end Escape

section Int

/-! The intermediate values of `append(int64_t)`: the word it writes, the padding byte it
strips, the bytes left and the type code. -/

variable (v : BitVec 64)

def signedWord : BitVec 64 := if v.toInt < 0 then ~~~(-v) else v

def padByte : Fin 256 := if v.toInt < 0 then 255 else 0

def intBytes : List (Fin 256) := (toBytes 8 (signedWord v).toNat).dropWhile (· = padByte v)

def intCode : Fin 256 :=
  if v.toInt < 0 then Fin.ofNat 256 (20 - (intBytes v).length)
  else Fin.ofNat 256 (20 + (intBytes v).length)

lemma encode_int : encode (.int v) = intCode v :: intBytes v := by
  by_cases h : v.toInt < 0 <;>
    simp [encode, appendElement, appendInt, empty, intCode, intBytes, signedWord, padByte, h]

lemma length_intBytes_le : (intBytes v).length ≤ 8 := by
  have h := (List.dropWhile_sublist (l := toBytes 8 (signedWord v).toNat) (· = padByte v)).length_le
  simpa [intBytes] using h

lemma toInt_neg_iff : v.toInt < 0 ↔ 2 ^ 63 ≤ v.toNat := by
  have hlt := v.isLt
  rw [BitVec.toInt_eq_toNat_cond]
  split_ifs with h <;> omega

lemma signedWord_toNat_of_neg (h : v.toInt < 0) : (signedWord v).toNat = v.toNat - 1 := by
  have hv := (toInt_neg_iff v).mp h
  have hlt := v.isLt
  simp only [signedWord, if_pos h, BitVec.toNat_not, BitVec.toNat_neg]
  rw [Nat.mod_eq_of_lt (by omega)]
  omega

lemma toBytes_signedWord : ofBytes (toBytes 8 (signedWord v).toNat) = (signedWord v).toNat := by
  rw [ofBytes_toBytes, Nat.mod_eq_of_lt]
  simpa using (signedWord v).isLt

lemma intBytes_ne_nil_of_neg (h : v.toInt < 0) : intBytes v ≠ [] := by
  intro hnil
  have hrep : toBytes 8 (signedWord v).toNat = List.replicate 8 255 := by
    rw [List.eq_replicate_iff]
    refine ⟨by simp, fun b hb => ?_⟩
    simpa [padByte, h] using List.dropWhile_eq_nil_iff.mp hnil b hb
  have hval := toBytes_signedWord v
  rw [hrep, signedWord_toNat_of_neg v h] at hval
  have hall : ofBytes (List.replicate 8 255) = 2 ^ 64 - 1 := by decide
  have hlt := v.isLt
  have hv := (toInt_neg_iff v).mp h
  omega

lemma intCode_val :
    (intCode v).val = if v.toInt < 0 then 20 - (intBytes v).length else 20 + (intBytes v).length := by
  have := length_intBytes_le v
  unfold intCode
  split_ifs <;> simp <;> omega

lemma intCode_range : 12 ≤ (intCode v).val ∧ (intCode v).val ≤ 28 := by
  have := length_intBytes_le v
  rw [intCode_val]
  split_ifs <;> omega

lemma intCode_sub_twenty :
    ((intCode v).val : ℤ) - 20 = if v.toInt < 0 then -((intBytes v).length : ℤ) else (intBytes v).length := by
  have hlen := length_intBytes_le v
  rw [intCode_val]
  split_ifs <;> omega

lemma ofBytes_padByte_intBytes :
    ofBytes (List.replicate (8 - (intBytes v).length) (padByte v) ++ intBytes v) =
      (signedWord v).toNat := by
  have h := List.replicate_append_dropWhile_eq (toBytes 8 (signedWord v).toNat) (padByte v)
  rw [length_toBytes] at h
  rw [intBytes, h, toBytes_signedWord]

lemma signedWord_decode :
    (if v.toInt < 0 then -(~~~(signedWord v)) else signedWord v) = v := by
  unfold signedWord
  split_ifs
  · rw [BitVec.not_not, BitVec.neg_neg]
  · rfl

end Int

section Encode

@[simp] lemma encode_bytes (s : List (Fin 256)) : encode (.bytes s) = 1 :: (escapeNulls s ++ [0]) := by
  simp [encode, appendElement, appendString, empty]

@[simp] lemma encode_utf8 (s : List (Fin 256)) : encode (.utf8 s) = 2 :: (escapeNulls s ++ [0]) := by
  simp [encode, appendElement, appendString, empty]

@[simp] lemma encode_float (v : BitVec 32) :
    encode (.float v) = 0x20 :: adjustFloatingPoint (toBytes 4 v.toNat) true := by
  simp [encode, appendElement, appendFloat, appendFloating, empty]

@[simp] lemma encode_double (v : BitVec 64) :
    encode (.double v) = 0x21 :: adjustFloatingPoint (toBytes 8 v.toNat) true := by
  simp [encode, appendElement, appendDouble, appendFloating, empty]

@[simp] lemma encode_null : encode .null = [0] := by
  simp [encode, appendElement, appendNull, empty]

@[simp] lemma length_adjustFloatingPoint (bytes : List (Fin 256)) (encode : Bool) :
    (adjustFloatingPoint bytes encode).length = bytes.length := by
  unfold adjustFloatingPoint
  split
  · rfl
  · split_ifs <;> simp

lemma encode_head_ne (x : Element) : (encode x).head? ≠ some 255 := by
  cases x with
  | int v =>
    have hcode := intCode_val v
    have hlen := length_intBytes_le v
    rw [encode_int]
    intro h
    have h255 : (intCode v).val = 255 := by simpa using congrArg (fun o => (o.map Fin.val).getD 0) h
    split_ifs at hcode <;> omega
  | _ => simp

lemma encode_ne_nil (x : Element) : encode x ≠ [] := by
  cases x <;> simp [encode_int]

lemma head_flatten_ne (xs : List Element) : ((xs.map encode).flatten).head? ≠ some 255 := by
  cases xs with
  | nil => simp
  | cons x xs =>
    have hx := encode_head_ne x
    obtain ⟨c, l, h⟩ : ∃ c l, encode x = c :: l := List.exists_cons_of_ne_nil (encode_ne_nil x)
    simp_all

end Encode

section Unpack

lemma getElem_append_cons {p l rest : List (Fin 256)} {c : Fin 256}
    (h : p.length < (p ++ c :: l ++ rest).length) : (p ++ c :: l ++ rest)[p.length] = c := by
  simp [List.getElem_append_right]

lemma findStringTerminator_escape (p s rest : List (Fin 256)) (c : Fin 256)
    (hrest : rest.head? ≠ some 255) :
    findStringTerminator (p ++ c :: (escapeNulls s ++ [0]) ++ rest) (p.length + 1) =
      p.length + 1 + (escapeNulls s).length := by
  have hdrop : (p ++ c :: (escapeNulls s ++ [0]) ++ rest).drop (p.length + 1) =
      escapeNulls s ++ 0 :: rest := by
    rw [show p ++ c :: (escapeNulls s ++ [0]) ++ rest = (p ++ [c]) ++ (escapeNulls s ++ 0 :: rest) by
      simp]
    exact List.drop_left' (by simp)
  rw [findStringTerminator, hdrop, scanTerminator_escapeNulls _ _ hrest]

lemma unpackOffsets_step (p rest : List (Fin 256)) (x : Element) (offs : List ℕ)
    (hrest : rest.head? ≠ some 255) :
    unpackOffsets (p ++ encode x ++ rest) p.length offs =
      unpackOffsets (p ++ encode x ++ rest) (p.length + (encode x).length) (offs ++ [p.length]) := by
  have hlt : p.length < (p ++ encode x ++ rest).length := by
    have : (encode x).length ≠ 0 := by simpa using encode_ne_nil x
    simp only [List.length_append]
    omega
  conv_lhs => rw [unpackOffsets, dif_pos hlt]
  cases x with
  | bytes s =>
    simp only [encode_bytes, getElem_append_cons, true_or, ↓reduceIte]
    rw [findStringTerminator_escape _ _ _ _ hrest]
    simp only [List.length_cons, List.length_append, List.length_nil]
    congr 1
    omega
  | utf8 s =>
    simp only [encode_utf8, getElem_append_cons, or_true, ↓reduceIte]
    rw [findStringTerminator_escape _ _ _ _ hrest]
    simp only [List.length_cons, List.length_append, List.length_nil]
    congr 1
    omega
  | int v =>
    have hrange := intCode_range v
    have hnot : ¬(intCode v = 1 ∨ intCode v = 2) := by
      rintro (h | h) <;> (rw [h] at hrange; simp at hrange)
    have hstride : (((intCode v).val : ℤ) - 20).natAbs = (intBytes v).length := by
      rw [intCode_sub_twenty]
      split_ifs <;> simp
    simp only [encode_int, getElem_append_cons, hnot, hrange, and_self, ↓reduceIte, hstride,
      List.length_cons]
    congr 1
  | float v =>
    simp only [encode_float, getElem_append_cons]
    simp [Nat.add_assoc]
  | double v =>
    simp only [encode_double, getElem_append_cons]
    simp [Nat.add_assoc]
  | null =>
    simp only [encode_null, getElem_append_cons]
    simp

lemma range_map_start_cons (n : ℕ) (x : Element) (xs : List Element) :
    (List.range (xs.length + 1)).map (fun j => n + start (x :: xs) j) =
      n :: (List.range xs.length).map (fun j => n + (encode x).length + start xs j) := by
  simp only [List.range_succ_eq_map, List.map_cons, List.map_map, start_zero, Nat.add_zero]
  congr 1
  apply List.map_congr_left
  intro j _
  simp [Nat.add_assoc]

lemma unpackOffsets_encode (p : List (Fin 256)) (es : List Element) (offs : List ℕ) :
    unpackOffsets (p ++ (es.map encode).flatten) p.length offs =
      .ok (offs ++ (List.range es.length).map (fun j => p.length + start es j),
        (p ++ (es.map encode).flatten).length) := by
  induction es generalizing p offs with
  | nil =>
    rw [unpackOffsets, dif_neg (by simp)]
    simp
  | cons x xs ih =>
    have hsplit : p ++ ((x :: xs).map encode).flatten = p ++ encode x ++ (xs.map encode).flatten := by
      simp
    rw [hsplit, unpackOffsets_step _ _ _ _ (head_flatten_ne xs), ← List.length_append, ih,
      List.length_cons, range_map_start_cons]
    simp

theorem unpack_build (es : List Element) (excludeIncomplete : Bool) :
    unpack (build es).pack excludeIncomplete = .ok (build es) := by
  have h := unpackOffsets_encode [] es []
  simp only [List.nil_append, List.length_nil, Nat.zero_add] at h
  simp [unpack, pack, build_eq, h]

end Unpack

section Getters

variable {es : List Element} {i : ℕ}

@[simp] lemma build_offsets_length : (build es).offsets.length = es.length := by
  simp [build_eq]

@[simp] lemma build_offsets_getElem (hi : i < (build es).offsets.length) :
    (build es).offsets[i] = start es i := by
  simp [build_eq]

lemma start_succ (hi : i < es.length) : start es (i + 1) = start es i + (encode es[i]).length := by
  rw [start, start, List.take_add_one, List.getElem?_eq_getElem hi]
  simp only [Option.toList_some, List.map_append, List.map_cons, List.map_nil, List.flatten_append,
    List.flatten_cons, List.flatten_nil, List.append_nil, List.length_append]

lemma build_data_split (hi : i < es.length) :
    (build es).data = ((es.take i).map encode).flatten ++
      (encode es[i] ++ ((es.drop (i + 1)).map encode).flatten) := by
  have hes : es = es.take i ++ es[i] :: es.drop (i + 1) := by
    rw [← List.drop_eq_getElem_cons hi, List.take_append_drop]
  conv_lhs => rw [hes]
  rw [build_eq]
  simp only [List.map_append, List.map_cons, List.flatten_append, List.flatten_cons]

lemma build_data_drop (hi : i < es.length) :
    (build es).data.drop (start es i) = encode es[i] ++ ((es.drop (i + 1)).map encode).flatten := by
  rw [build_data_split hi]
  exact List.drop_left' rfl

lemma build_data_length (hi : i < es.length) :
    (build es).data.length =
      start es i + (encode es[i]).length + ((es.drop (i + 1)).map encode).flatten.length := by
  rw [build_data_split hi]
  simp [start, Nat.add_assoc]

lemma build_data_getD (hi : i < es.length) :
    (build es).data.getD (start es i) 0 = (encode es[i]).headD 0 := by
  rw [List.getD_eq_getElem?_getD, ← List.head?_drop, build_data_drop hi]
  obtain ⟨c, l, h⟩ : ∃ c l, encode es[i] = c :: l := List.exists_cons_of_ne_nil (encode_ne_nil _)
  simp [h]

lemma build_end (hi : i < es.length) :
    (if h : i + 1 < (build es).offsets.length then (build es).offsets[i + 1] else (build es).data.length) =
      start es i + (encode es[i]).length := by
  split_ifs with h
  · rw [build_offsets_getElem, start_succ hi]
  · have hlast : i + 1 = es.length := by simp at h; omega
    rw [build_data_length hi, List.drop_eq_nil_of_le (by omega)]
    simp

lemma getType_build (hi : i < es.length) : (build es).getType i = .ok es[i].type := by
  have hoff : i < (build es).offsets.length := by simpa using hi
  unfold getType
  rw [dif_pos hoff, build_offsets_getElem, build_data_getD hi]
  cases h : es[i] with
  | int v =>
    have hrange := intCode_range v
    have h0 : intCode v ≠ 0 := fun h => by rw [h] at hrange; simp at hrange
    have h1 : intCode v ≠ 1 := fun h => by rw [h] at hrange; simp at hrange
    have h2 : intCode v ≠ 2 := fun h => by rw [h] at hrange; simp at hrange
    simp [encode_int, h0, h1, h2, hrange, Element.type]
  | _ => simp [Element.type]

lemma getString_build (hi : i < es.length) {s : List (Fin 256)}
    (hs : es[i] = .bytes s ∨ es[i] = .utf8 s) : (build es).getString i = .ok s := by
  have hoff : i < (build es).offsets.length := by simpa using hi
  -- after the code come the escaped bytes and the terminator
  obtain ⟨c, hc, henc⟩ : ∃ c : Fin 256, (c = 1 ∨ c = 2) ∧ encode es[i] = c :: (escapeNulls s ++ [0]) := by
    rcases hs with h | h
    · exact ⟨1, .inl rfl, by rw [h, encode_bytes]⟩
    · exact ⟨2, .inr rfl, by rw [h, encode_utf8]⟩
  have hbody : ((build es).data.drop (start es i + 1)).take (start es i + (encode es[i]).length -
      (start es i + 1)) = escapeNulls s ++ [0] := by
    have hlen : start es i + (encode es[i]).length - (start es i + 1) = (escapeNulls s ++ [0]).length := by
      rw [henc]
      simp only [List.length_cons, List.length_append]
      omega
    rw [hlen, ← List.tail_drop, build_data_drop hi, henc, List.cons_append, List.tail_cons]
    exact List.take_left' rfl
  have hcode : ¬((encode es[i]).headD 0 ≠ 1 ∧ (encode es[i]).headD 0 ≠ 2) := by
    rw [henc, List.headD_cons]
    tauto
  unfold getString
  rw [dif_pos hoff, build_offsets_getElem, build_data_getD hi, build_end hi, if_neg hcode]
  dsimp only
  rw [hbody, unescapeNulls_escapeNulls]

lemma build_data_getElem (hi : i < es.length) (h : start es i < (build es).data.length) :
    (build es).data[start es i] = (encode es[i]).headD 0 := by
  rw [← build_data_getD hi, List.getD_eq_getElem?_getD, List.getElem?_eq_getElem h, Option.getD_some]

lemma build_data_drop_succ (hi : i < es.length) :
    (build es).data.drop (start es i + 1) = (encode es[i]).tail ++ ((es.drop (i + 1)).map encode).flatten := by
  rw [← List.tail_drop, build_data_drop hi]
  obtain ⟨c, l, h⟩ : ∃ c l, encode es[i] = c :: l := List.exists_cons_of_ne_nil (encode_ne_nil _)
  simp [h]

lemma adjustFloatingPoint_decode (bytes : List (Fin 256)) :
    adjustFloatingPoint (adjustFloatingPoint bytes true) false = bytes := by
  -- byte by byte: flipping every bit clears a set sign bit, flipping the sign bit sets it
  have hflip : ∀ b : Fin 256, ((b &&& 0x80) != 0) = true → (((b ^^^ 0xff) &&& 0x80) != 0x80) = true := by
    decide +kernel
  have hsign : ∀ b : Fin 256, ((b &&& 0x80) != 0) = false → (((b ^^^ 0x80) &&& 0x80) != 0x80) = false := by
    decide +kernel
  have hflip2 : ∀ b : Fin 256, b ^^^ 0xff ^^^ 0xff = b := by decide +kernel
  have hsign2 : ∀ b : Fin 256, b ^^^ 0x80 ^^^ 0x80 = b := by decide +kernel
  cases bytes with
  | nil => rfl
  | cons b bs =>
    cases hb : ((b &&& 0x80) != 0)
    · simp [adjustFloatingPoint, hb, hsign b hb, hsign2]
    · simp [adjustFloatingPoint, hb, hflip b hb, hflip2, List.map_map, Function.comp_def]

lemma getFloating_build (hi : i < es.length) {size : ℕ} {typeCode : Fin 256} {bits : ℕ}
    (henc : encode es[i] = typeCode :: adjustFloatingPoint (toBytes size bits) true) :
    (build es).getFloating i size typeCode = .ok (bits % 256 ^ size) := by
  have hoff : i < (build es).offsets.length := by simpa using hi
  have hlen := build_data_length hi
  rw [henc] at hlen
  simp only [List.length_cons, length_adjustFloatingPoint, length_toBytes] at hlen
  have hlt : start es i < (build es).data.length := by omega
  have hbytes : ((build es).data.drop (start es i + 1)).take size = adjustFloatingPoint (toBytes size bits) true := by
    rw [build_data_drop_succ hi, henc, List.tail_cons]
    exact List.take_left' (by simp)
  unfold getFloating
  rw [dif_pos hoff, build_offsets_getElem, dif_pos hlt, build_data_getElem hi hlt, henc,
    List.headD_cons, if_neg (not_not.mpr rfl), if_neg (by omega), hbytes, adjustFloatingPoint_decode,
    ofBytes_toBytes]

lemma getFloat_build (hi : i < es.length) {v : BitVec 32} (hv : es[i] = .float v) :
    (build es).getFloat i = .ok v := by
  have h := getFloating_build hi (by rw [hv, encode_float])
  have hlt : v.toNat < 256 ^ 4 := by simpa using v.isLt
  rw [getFloat, h, Nat.mod_eq_of_lt hlt]
  simp only [Except.map, BitVec.ofNat_toNat, BitVec.setWidth_eq]

lemma getDouble_build (hi : i < es.length) {v : BitVec 64} (hv : es[i] = .double v) :
    (build es).getDouble i = .ok v := by
  have h := getFloating_build hi (by rw [hv, encode_double])
  have hlt : v.toNat < 256 ^ 8 := by simpa using v.isLt
  rw [getDouble, h, Nat.mod_eq_of_lt hlt]
  simp only [Except.map, BitVec.ofNat_toNat, BitVec.setWidth_eq]

lemma getInt_build (hi : i < es.length) {v : BitVec 64} (hv : es[i] = .int v) :
    (build es).getInt i false =
      if ((intBytes v).length : ℤ) ≤
          (((intBytes v).length + ((es.drop (i + 1)).map encode).flatten.length : ℕ) : ℤ).bmod 256
      then .ok v else .error .internalError := by
  have hoff : i < (build es).offsets.length := by simpa using hi
  have henc : encode es[i] = intCode v :: intBytes v := by rw [hv, encode_int]
  have hlen := build_data_length hi
  rw [henc, List.length_cons] at hlen
  have hlt : start es i < (build es).data.length := by omega
  have hrem : (build es).data.length - start es i - 1 =
      (intBytes v).length + ((es.drop (i + 1)).map encode).flatten.length := by omega
  have hrange := intCode_range v
  have hnot : ¬((intCode v).val < 12 ∨ 28 < (intCode v).val) := by omega
  have hsign : decide (((intCode v).val : ℤ) - 20 < 0) = decide (v.toInt < 0) := by
    rw [intCode_sub_twenty]
    by_cases h : v.toInt < 0
    · have := intBytes_ne_nil_of_neg v h
      have hpos : 0 < (intBytes v).length := List.length_pos_of_ne_nil this
      simp [h]
      omega
    · simp [h]
  have habs : (((intCode v).val : ℤ) - 20).natAbs = (intBytes v).length := by
    rw [intCode_sub_twenty]
    split_ifs <;> simp
  have hpresent : ((build es).data.drop (start es i + 1)).take (intBytes v).length = intBytes v := by
    rw [build_data_drop_succ hi, henc, List.tail_cons]
    exact List.take_left' rfl
  unfold getInt
  rw [dif_pos hoff, build_offsets_getElem, dif_pos hlt, build_data_getElem hi hlt, henc, List.headD_cons,
    if_neg hnot]
  simp only [hsign, habs, hrem, Bool.false_eq_true, or_false]
  by_cases hok : ((intBytes v).length : ℤ) ≤
      (((intBytes v).length + ((es.drop (i + 1)).map encode).flatten.length : ℕ) : ℤ).bmod 256
  · -- the whole integer is read, with its padding put back
    have hnonneg : ¬((intBytes v).length : ℤ) < 0 := by omega
    rw [if_pos hok, min_eq_left hok, if_neg (not_not.mpr rfl), if_neg hnonneg]
    simp only [Int.toNat_natCast, lt_irrefl, ↓reduceIte, List.append_nil, hpresent, decide_eq_true_eq]
    rw [show (if v.toInt < 0 then (255 : Fin 256) else 0) = padByte v from rfl,
      ofBytes_padByte_intBytes, BitVec.ofNat_toNat, BitVec.setWidth_eq, signedWord_decode]
  · -- the count read as an `int8_t` is below the integer's, and the assertion fails
    rw [if_neg hok, if_pos]
    rw [min_eq_left_iff]
    exact hok

lemma getElement_build (hi : i < es.length) (hint : ∀ v, es[i] ≠ .int v) :
    (build es).getElement i es[i].type = .ok es[i] := by
  cases h : es[i] with
  | bytes s => simp only [Element.type, getElement, getString_build hi (.inl h), Except.map]
  | utf8 s => simp only [Element.type, getElement, getString_build hi (.inr h), Except.map]
  | int v => exact absurd h (hint v)
  | float v => simp only [Element.type, getElement, getFloat_build hi h, Except.map]
  | double v => simp only [Element.type, getElement, getDouble_build hi h, Except.map]
  | null => rfl

end Getters

/-- `unpack(pack())` of the appended elements: `getInt` returns the integer appended at an
index exactly when its byte count is at most the count of the bytes after its type code,
truncated to an `int8_t` by `std::min<int8_t>`; otherwise `getInt` throws `internal_error`. -/
theorem getInt_unpack (es : List Element) (i : ℕ) (hi : i < es.length) (v : BitVec 64)
    (hv : es[i] = .int v) :
    ((unpack (build es).pack false).bind fun t => t.getInt i false) =
      if ((build [.int v]).pack.length : ℤ) - 1 ≤
          (((build (es.drop i)).pack.length - 1 : ℕ) : ℤ).bmod 256
      then .ok v else .error .internalError := by
  have hone : (build [.int v]).pack.length = (intBytes v).length + 1 := by
    simp [build_eq, pack, encode_int]
  have htail : (build (es.drop i)).pack.length - 1 =
      (intBytes v).length + ((es.drop (i + 1)).map encode).flatten.length := by
    rw [build_eq, pack, List.drop_eq_getElem_cons hi, hv]
    simp [encode_int]
  rw [unpack_build]
  show (build es).getInt i false = _
  rw [getInt_build hi hv, hone, htail]
  simp

theorem getInt_unpack_fails_after_long_tail :
    ((unpack (build [.int 1, .bytes (List.replicate 127 97)]).pack false).bind
      fun t => t.getInt 0 false) = .error .internalError := by
  rw [getInt_unpack _ 0 (by decide) 1 rfl]
  decide +kernel

/-- Apart from integers, every element of `unpack(pack())` is read back: the same count of
elements, each of the type appended and with the value appended. -/
theorem unpack_roundTrip (es : List Element) :
    ∃ t, unpack (build es).pack false = .ok t ∧ t.offsets.length = es.length ∧
      ∀ i (hi : i < es.length), t.getType i = .ok es[i].type ∧
        ((∀ v, es[i] ≠ .int v) → t.getElement i es[i].type = .ok es[i]) := by
  refine ⟨build es, unpack_build es false, build_offsets_length, fun i hi => ?_⟩
  exact ⟨getType_build hi, getElement_build hi⟩

end FoundationDB.Tuple
