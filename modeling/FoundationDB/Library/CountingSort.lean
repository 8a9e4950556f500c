import Mathlib

/-! Two pieces of an in-place MSD radix sort, on lists: a segment of a list rewritten in place,
and the placing loop of a counting sort, which writes each element at the running offset of its
digit. When the offsets start at the prefix sums of the digit counts, the loop lays the
elements out digit by digit, each digit's elements in their order (`bucketed`). -/

namespace List

variable {α : Type}

section Segment

/-- The `size` elements of `l` from `b` on. -/
def segment (l : List α) (b size : ℕ) : List α := (l.drop b).take size

/-- `l` with the `seg.length` elements from `b` on replaced by `seg`. -/
def setSegment (l : List α) (b : ℕ) (seg : List α) : List α :=
  l.take b ++ seg ++ l.drop (b + seg.length)

variable {l : List α} {b size : ℕ}

lemma length_segment (h : b + size ≤ l.length) : (l.segment b size).length = size := by
  simp only [segment, length_take, length_drop]
  exact min_eq_left (Nat.le_sub_of_add_le' h)

lemma take_append_segment_append_drop (l : List α) (b size : ℕ) :
    l.take b ++ l.segment b size ++ l.drop (b + size) = l := by
  rw [segment, append_assoc, ← drop_drop, take_append_drop, take_append_drop]

lemma length_setSegment {seg : List α} (h : b + seg.length ≤ l.length) :
    (l.setSegment b seg).length = l.length := by
  simp only [setSegment, length_append, length_take, length_drop]
  omega

lemma setSegment_perm {seg : List α} (h : b + size ≤ l.length) (hp : seg.Perm (l.segment b size)) :
    (l.setSegment b seg).Perm l := by
  have hlen : seg.length = size := hp.length_eq.trans (length_segment h)
  conv_rhs => rw [← take_append_segment_append_drop l b size]
  rw [setSegment, hlen]
  exact (hp.append_left _).append_right _

variable (d : α)

lemma getD_segment {j : ℕ} (hj : j < size) : (l.segment b size).getD j d = l.getD (b + j) d := by
  simp only [segment, getD_eq_getElem?_getD, getElem?_take_of_lt hj, getElem?_drop]

lemma getD_setSegment_of_lt {seg : List α} {i : ℕ} (hb : b ≤ l.length) (hi : i < b) :
    (l.setSegment b seg).getD i d = l.getD i d := by
  have hlen : i < (l.take b).length := by rw [length_take, min_eq_left hb]; exact hi
  rw [setSegment, getD_eq_getElem?_getD, append_assoc, getElem?_append_left hlen,
    getElem?_take_of_lt hi, ← getD_eq_getElem?_getD]

lemma getD_setSegment_of_le {seg : List α} {i : ℕ} (hb : b ≤ l.length) (hi : b + seg.length ≤ i) :
    (l.setSegment b seg).getD i d = l.getD i d := by
  have htake : (l.take b ++ seg).length = b + seg.length := by
    rw [length_append, length_take, min_eq_left hb]
  rw [setSegment, getD_eq_getElem?_getD, getElem?_append_right (htake ▸ hi), getElem?_drop,
    htake, Nat.add_sub_cancel' hi, ← getD_eq_getElem?_getD]

lemma getD_setSegment_of_mem {seg : List α} {i : ℕ} (hb : b ≤ l.length) (hbi : b ≤ i)
    (hi : i < b + seg.length) : (l.setSegment b seg).getD i d = seg.getD (i - b) d := by
  have htake : (l.take b).length = b := by rw [length_take, min_eq_left hb]
  rw [setSegment, getD_eq_getElem?_getD, append_assoc, getElem?_append_right (by omega), htake,
    getElem?_append_left (by omega), ← getD_eq_getElem?_getD]

lemma setSegment_segment (h : b + size ≤ l.length) : l.setSegment b (l.segment b size) = l := by
  rw [setSegment, length_segment h, take_append_segment_append_drop]

lemma segment_setSegment {seg : List α} (hb : b ≤ l.length) :
    (l.setSegment b seg).segment b seg.length = seg := by
  have htake : (l.take b).length = b := by rw [length_take, min_eq_left hb]
  rw [segment, setSegment, append_assoc, drop_append_of_le_length (le_of_eq htake.symm),
    drop_eq_nil_of_le (le_of_eq htake), nil_append, take_left]

lemma exists_getD_of_mem_segment {x : α} (hx : x ∈ l.segment b size) :
    ∃ i, b ≤ i ∧ i < b + size ∧ l.getD i d = x := by
  obtain ⟨j, hj, rfl⟩ := getElem_of_mem hx
  have hjs : j < size := lt_of_lt_of_le hj (by simp [segment])
  refine ⟨b + j, Nat.le_add_right b j, by omega, ?_⟩
  rw [← getD_segment d hjs, getD_eq_getElem _ _ hj]

end Segment

section Place

variable (digit : α → ℕ)

/-- The elements of `l` whose digit is `c`, in their order. -/
def bucket (l : List α) (c : ℕ) : List α := l.filter (digit · = c)

/-- The buckets of digits below `R`, one after the other. -/
def bucketed (l : List α) (R : ℕ) : List α := (range R).flatMap (bucket digit l)

/-- `newPoints[counts[c]++] = p`, `c` the digit of `p`. -/
def placeStep (s : (ℕ → ℕ) × (ℕ → α)) (p : α) : (ℕ → ℕ) × (ℕ → α) :=
  (Function.update s.1 (digit p) (s.1 (digit p) + 1), Function.update s.2 (s.1 (digit p)) p)

/-- The placing loop of a counting sort over `l`, from the offsets `s.1` and the buffer `s.2`. -/
def placeLoop (l : List α) (s : (ℕ → ℕ) × (ℕ → α)) : (ℕ → ℕ) × (ℕ → α) :=
  l.foldl (placeStep digit) s

@[simp] lemma bucket_nil (c : ℕ) : bucket digit [] c = [] := rfl

lemma bucket_cons (p : α) (l : List α) (c : ℕ) :
    bucket digit (p :: l) c = if digit p = c then p :: bucket digit l c else bucket digit l c := by
  by_cases h : digit p = c <;> simp [bucket, h]

lemma bucket_cons_of_ne {p : α} {l : List α} {c : ℕ} (h : digit p ≠ c) :
    bucket digit (p :: l) c = bucket digit l c := by
  rw [bucket_cons, if_neg h]

lemma bucket_eq_nil {l : List α} {R c : ℕ} (hdig : ∀ p ∈ l, digit p < R) (hc : R ≤ c) :
    bucket digit l c = [] :=
  filter_eq_nil_iff.mpr fun p hp h => absurd (of_decide_eq_true h ▸ hdig p hp) (by omega)

@[simp] lemma bucketed_zero (l : List α) : bucketed digit l 0 = [] := rfl

lemma bucketed_succ (l : List α) (R : ℕ) :
    bucketed digit l (R + 1) = bucketed digit l R ++ bucket digit l R := by
  simp [bucketed, range_succ, flatMap_append]

lemma bucketed_perm (l : List α) (R : ℕ) : (bucketed digit l R).Perm (l.filter (digit · < R)) := by
  induction R with
  | zero => simp
  | succ R ih =>
    rw [bucketed_succ]
    have hsplit := filter_append_perm (digit · < R) (l.filter (digit · < R + 1))
    rw [filter_filter, filter_filter] at hsplit
    refine (ih.append_right _).trans (Perm.trans ?_ hsplit)
    have hlow : (l.filter fun p => decide (digit p < R) && decide (digit p < R + 1)) =
        l.filter (digit · < R) := filter_congr fun p _ => by
      by_cases h : digit p < R
      · simp [h]
        omega
      · simp [h]
    have hhigh : (l.filter fun p => !decide (digit p < R) && decide (digit p < R + 1)) =
        bucket digit l R := filter_congr fun p _ => by
      by_cases h : digit p < R <;> simp [h] <;> omega
    rw [hlow, hhigh]

lemma bucketed_perm_self {l : List α} {R : ℕ} (hdig : ∀ p ∈ l, digit p < R) :
    (bucketed digit l R).Perm l := by
  have hall : l.filter (digit · < R) = l := filter_eq_self.mpr fun p hp => decide_eq_true (hdig p hp)
  have h := bucketed_perm digit l R
  rwa [hall] at h

lemma exists_bucket_of_lt (l : List α) {R i : ℕ} (hi : i < (bucketed digit l R).length) :
    ∃ c < R, ∃ j < (bucket digit l c).length, i = (bucketed digit l c).length + j := by
  induction R with
  | zero => simp at hi
  | succ R ih =>
    rw [bucketed_succ, length_append] at hi
    by_cases hR : i < (bucketed digit l R).length
    · obtain ⟨c, hc, j, hj, rfl⟩ := ih hR
      exact ⟨c, by omega, j, hj, rfl⟩
    · exact ⟨R, by omega, i - (bucketed digit l R).length, by omega, by omega⟩

lemma length_bucketed_mono (l : List α) {c c' : ℕ} (h : c ≤ c') :
    (bucketed digit l c).length ≤ (bucketed digit l c').length := by
  induction c', h using Nat.le_induction with
  | base => exact le_rfl
  | succ c' _ ih =>
    rw [bucketed_succ, length_append]
    omega

lemma getElem_bucketed (l : List α) {R c j : ℕ} (hc : c < R) (hj : j < (bucket digit l c).length)
    (h : (bucketed digit l c).length + j < (bucketed digit l R).length) :
    (bucketed digit l R)[(bucketed digit l c).length + j] = (bucket digit l c)[j] := by
  induction R with
  | zero => omega
  | succ R ih =>
    simp only [bucketed_succ]
    by_cases hcR : c < R
    · have hlt : (bucketed digit l c).length + j < (bucketed digit l R).length := by
        have hle := length_bucketed_mono digit l (Nat.succ_le_of_lt hcR)
        rw [bucketed_succ, length_append] at hle
        omega
      rw [getElem_append_left hlt]
      exact ih hcR hlt
    · obtain rfl : c = R := by omega
      rw [getElem_append_right (by omega)]
      simp

lemma digit_getElem_bucketed (l : List α) {R c j : ℕ} (hc : c < R)
    (hj : j < (bucket digit l c).length) (h : (bucketed digit l c).length + j < (bucketed digit l R).length) :
    digit (bucketed digit l R)[(bucketed digit l c).length + j] = c := by
  rw [getElem_bucketed digit l hc hj h]
  exact of_decide_eq_true (mem_filter.mp (getElem_mem hj)).2

variable {digit}

lemma placeLoop_spec {R : ℕ} (l : List α) (hdig : ∀ p ∈ l, digit p < R) (counts : ℕ → ℕ)
    (buf : ℕ → α)
    (hord : ∀ c c', c < c' → c' < R → counts c + (bucket digit l c).length ≤ counts c') :
    (∀ c j (hj : j < (bucket digit l c).length),
      (placeLoop digit l (counts, buf)).2 (counts c + j) = (bucket digit l c)[j]) ∧
    ∀ i, (∀ c < R, ¬ (counts c ≤ i ∧ i < counts c + (bucket digit l c).length)) →
      (placeLoop digit l (counts, buf)).2 i = buf i := by
  induction l generalizing counts buf with
  | nil => exact ⟨fun c j hj => by simp at hj, fun i _ => rfl⟩
  | cons p l ih =>
    set k := digit p
    have hk : k < R := hdig p mem_cons_self
    set counts' := Function.update counts k (counts k + 1)
    have hbk : bucket digit (p :: l) k = p :: bucket digit l k := by rw [bucket_cons, if_pos rfl]
    have hbc : ∀ c, c ≠ k → bucket digit (p :: l) c = bucket digit l c :=
      fun c hc => bucket_cons_of_ne digit (Ne.symm hc)
    have hcountsk : counts' k = counts k + 1 := Function.update_self _ _ _
    have hcounts' : ∀ c, c ≠ k → counts' c = counts c := fun c hc => Function.update_of_ne hc _ _
    have hord' : ∀ c c', c < c' → c' < R → counts' c + (bucket digit l c).length ≤ counts' c' := by
      intro c c' hcc' hc'
      have h := hord c c' hcc' hc'
      by_cases hc : c = k
      · subst hc
        rw [hbk, length_cons] at h
        rw [hcountsk, hcounts' c' (by omega)]
        omega
      · rw [hbc c hc] at h
        rw [hcounts' c hc]
        by_cases hc'k : c' = k
        · subst hc'k
          rw [hcountsk]
          omega
        · rwa [hcounts' c' hc'k]
    obtain ⟨hplaced, hframe⟩ := ih (fun q hq => hdig q (mem_cons_of_mem p hq)) counts'
      (Function.update buf (counts k) p) hord'
    -- `p` itself sits at `counts k`, which no remaining bucket reaches
    have hfree : ∀ c < R, ¬ (counts' c ≤ counts k ∧ counts k < counts' c + (bucket digit l c).length) := by
      intro c hc ⟨hlo, hhi⟩
      rcases lt_trichotomy c k with hck | rfl | hck
      · have h := hord c k hck hk
        rw [hbc c hck.ne] at h
        rw [hcounts' c hck.ne] at hlo hhi
        omega
      · rw [hcountsk] at hlo
        omega
      · have h := hord k c hck hc
        rw [hbk, length_cons] at h
        rw [hcounts' c hck.ne'] at hlo
        omega
    refine ⟨fun c j hj => ?_, fun i hi => ?_⟩
    · change (placeLoop digit l (counts', Function.update buf (counts k) p)).2 (counts c + j) = _
      by_cases hc : c = k
      · subst hc
        simp only [hbk] at hj ⊢
        cases j with
        | zero =>
          rw [Nat.add_zero, hframe _ hfree, Function.update_self]
          rfl
        | succ j =>
          have h := hplaced k j (by simpa using hj)
          rw [hcountsk] at h
          rw [← Nat.add_assoc, Nat.add_right_comm, h]
          rfl
      · simp only [hbc c hc] at hj ⊢
        rw [← hcounts' c hc]
        exact hplaced c j hj
    · change (placeLoop digit l (counts', Function.update buf (counts k) p)).2 i = _
      have hne : i ≠ counts k := by
        rintro rfl
        exact hi k hk ⟨le_rfl, by rw [hbk, length_cons]; omega⟩
      rw [hframe i fun c hc ⟨hlo, hhi⟩ => ?_, Function.update_of_ne hne]
      by_cases hck : c = k
      · rw [hck] at hlo hhi
        apply hi k hk
        rw [hcountsk] at hlo hhi
        rw [hbk, length_cons]
        omega
      · rw [hcounts' c hck] at hlo hhi
        exact hi c hc ⟨hlo, by rwa [hbc c hck]⟩

/-- From the prefix sums of the bucket sizes, the counting sort's placing loop lays out the
buckets in digit order. -/
theorem placeLoop_bucketed {R : ℕ} (l : List α) (hdig : ∀ p ∈ l, digit p < R) (counts : ℕ → ℕ)
    (hcounts : ∀ c < R, counts c = (bucketed digit l c).length) (buf : ℕ → α) :
    (range l.length).map (placeLoop digit l (counts, buf)).2 = bucketed digit l R := by
  have hlen : (bucketed digit l R).length = l.length := (bucketed_perm_self digit hdig).length_eq
  have hord : ∀ c c', c < c' → c' < R → counts c + (bucket digit l c).length ≤ counts c' := by
    intro c c' hcc' hc'
    rw [hcounts c (by omega), hcounts c' hc', ← length_append, ← bucketed_succ]
    exact length_bucketed_mono digit l hcc'
  have hplaced := (placeLoop_spec l hdig counts buf hord).1
  refine ext_getElem (by simp [hlen]) fun i hi hi' => ?_
  obtain ⟨c, hc, j, hj, rfl⟩ := exists_bucket_of_lt digit l hi'
  have h := hplaced c j hj
  rw [hcounts c hc] at h
  rw [getElem_map, getElem_range, h, getElem_bucketed digit l hc hj hi']

end Place

lemma filter_le_append_filter_not_le {β : Type} [LinearOrder β] (f : α → β) (k : β) :
    ∀ {l : List α}, l.Pairwise (fun a b => f a ≤ f b) →
      l = l.filter (fun a => decide (f a ≤ k)) ++ l.filter (fun a => !decide (f a ≤ k))
  | [], _ => rfl
  | a :: l, h => by
    rw [pairwise_cons] at h
    by_cases ha : f a ≤ k
    · rw [filter_cons_of_pos (by simpa using ha), filter_cons_of_neg (by simpa using ha),
        cons_append, ← filter_le_append_filter_not_le f k h.2]
    · -- past the value, everything after is past it too
      have hall : ∀ b ∈ l, ¬ f b ≤ k := fun b hb hb' => ha (le_trans (h.1 b hb) hb')
      rw [filter_cons_of_neg (by simpa using ha), filter_cons_of_pos (by simpa using ha),
        filter_eq_nil_iff.mpr fun b hb => by simpa using hall b hb,
        filter_eq_self.mpr fun b hb => by simpa using hall b hb, nil_append]

lemma lt_of_getD_lt {l₁ l₂ : List ℕ} {c : ℕ} (hagree : ∀ i < c, l₁.getD i 0 = l₂.getD i 0)
    (hlt : l₁.getD c 0 < l₂.getD c 0) : l₁ < l₂ := by
  induction c generalizing l₁ l₂ with
  | zero =>
    cases l₂ with
    | nil => simp at hlt
    | cons y l₂ =>
      cases l₁ with
      | nil => exact nil_lt_cons y l₂
      | cons x l₁ => exact cons_lt_cons_iff.mpr (.inl (by simpa using hlt))
  | succ c ih =>
    cases l₂ with
    | nil => simp at hlt
    | cons y l₂ =>
      cases l₁ with
      | nil => exact nil_lt_cons y l₂
      | cons x l₁ =>
        -- the heads agree; the tails differ first one place earlier
        have hxy : x = y := by simpa using hagree 0 (Nat.succ_pos c)
        refine cons_lt_cons_iff.mpr (.inr ⟨hxy, ih (fun i hi => ?_) (by simpa using hlt)⟩)
        simpa using hagree (i + 1) (by omega)

end List
