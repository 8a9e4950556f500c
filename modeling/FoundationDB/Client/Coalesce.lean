import FoundationDB.Client.WriteMap

/-! Coalescing against applying one write at a time. `AppendIfFits` is left out of
`NON_ASSOCIATIVE_MASK`, so `coalesceOver` merges two of them into one entry; but the
value size limit makes it non-associative: an append that fits, then one that does not,
leaves the first appended on the storage server, while their merge does not fit at all. -/

namespace FoundationDB.WriteMap

variable {valueSizeLimit : ℕ}

lemma doAppendIfFits_of_le {e o : Value} (he : e ≠ []) (ho : o ≠ [])
    (h : e.length + o.length ≤ valueSizeLimit) : doAppendIfFits valueSizeLimit (some e) o = e ++ o := by
  simp [doAppendIfFits, he, ho, not_lt.mpr h]

lemma doAppendIfFits_of_lt {e o : Value} (he : e ≠ []) (ho : o ≠ [])
    (h : valueSizeLimit < e.length + o.length) : doAppendIfFits valueSizeLimit (some e) o = e := by
  simp [doAppendIfFits, he, ho, h]

theorem appendIfFits_merge_diverges (v a b : Value) (hv : v ≠ []) (ha : a ≠ []) (hb : b ≠ [])
    (hab : a.length + b.length ≤ valueSizeLimit) (hva : v.length + a.length ≤ valueSizeLimit)
    (hvab : valueSizeLimit < v.length + a.length + b.length) :
    runWrites valueSizeLimit .unmodified [.atomicOp .appendIfFits a, .atomicOp .appendIfFits b] =
        .ok ⟨[⟨some (a ++ b), .appendIfFits⟩], false⟩ ∧
      readValue valueSizeLimit ⟨[⟨some (a ++ b), .appendIfFits⟩], false⟩ (some v) = .ok (some v) ∧
      storageValue valueSizeLimit (some v) (replay ⟨[⟨some (a ++ b), .appendIfFits⟩], false⟩) =
        some v ∧
      storageValue valueSizeLimit (some v) [.atomicOp .appendIfFits a, .atomicOp .appendIfFits b] =
        some (v ++ a) := by
  have hmerge : doAppendIfFits valueSizeLimit (some a) b = a ++ b := doAppendIfFits_of_le ha hb hab
  have hover : doAppendIfFits valueSizeLimit (some v) (a ++ b) = v :=
    doAppendIfFits_of_lt hv (by simp [ha]) (by simp only [List.length_append]; omega)
  have hfirst : doAppendIfFits valueSizeLimit (some v) a = v ++ a := doAppendIfFits_of_le hv ha hva
  have hsecond : doAppendIfFits valueSizeLimit (some (v ++ a)) b = v ++ a :=
    doAppendIfFits_of_lt (by simp [hv]) hb (by simp only [List.length_append]; omega)
  refine ⟨?_, ?_, ?_, ?_⟩
  · -- the second append meets the first on top of the stack and is merged into it
    simp [runWrites, KeyWrite.write, mutate, KeyEntry.unmodified, coalesceOver, top, coalesce,
      MutationType.isNonAssociativeOp, MutationType.atomicFunction, poppush, hmerge, bind,
      Except.bind, pure, Except.pure, Except.map]
  · simp [readValue, coalesceUnder, isDependent, coalesce, MutationType.atomicFunction, hover,
      bind, Except.bind, pure, Except.pure, Except.map]
  · simp [replay, storageValue, KeyWrite.apply, MutationType.atomicFunction, hover]
  · simp [storageValue, KeyWrite.apply, MutationType.atomicFunction, hfirst, hsecond]

theorem appendIfFits_merge_diverges_at_limit :
    (List.replicate 99999 0 : Value) ≠ [] ∧ ([1] : Value) ≠ [] ∧ ([2] : Value) ≠ [] ∧
      ([1] : Value).length + ([2] : Value).length ≤ valueSizeLimitKnob ∧
      (List.replicate 99999 0 : Value).length + ([1] : Value).length ≤ valueSizeLimitKnob ∧
      valueSizeLimitKnob < (List.replicate 99999 0 : Value).length + ([1] : Value).length +
        ([2] : Value).length ∧
      runWrites valueSizeLimitKnob .unmodified [.atomicOp .appendIfFits [1], .atomicOp .appendIfFits [2]] =
        .ok ⟨[⟨some [1, 2], .appendIfFits⟩], false⟩ ∧
      readValue valueSizeLimitKnob ⟨[⟨some [1, 2], .appendIfFits⟩], false⟩
        (some (List.replicate 99999 0)) = .ok (some (List.replicate 99999 0)) ∧
      storageValue valueSizeLimitKnob (some (List.replicate 99999 0))
        (replay ⟨[⟨some [1, 2], .appendIfFits⟩], false⟩) = some (List.replicate 99999 0) ∧
      storageValue valueSizeLimitKnob (some (List.replicate 99999 0))
        [.atomicOp .appendIfFits [1], .atomicOp .appendIfFits [2]] =
        some (List.replicate 99999 0 ++ [1]) := by
  have hlen : (List.replicate 99999 (0 : Fin 256)).length = 99999 := List.length_replicate
  have hne : (List.replicate 99999 (0 : Fin 256)) ≠ [] :=
    List.ne_nil_of_length_pos (by rw [hlen]; decide)
  refine ⟨hne, by simp, by simp, by decide, by rw [hlen]; decide, by rw [hlen]; decide, ?_⟩
  exact appendIfFits_merge_diverges (List.replicate 99999 0) [1] [2] hne (by simp) (by simp)
    (by decide) (by rw [hlen]; decide) (by rw [hlen]; decide)

end FoundationDB.WriteMap
