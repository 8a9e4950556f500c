import Mathlib

/-! Trimming a list at both ends past the elements a test rejects. When the elements it keeps
form one run, the trim leaves that run; on a list sorted by a key, the test of a key interval
keeps one run, so the trim is the filter. -/

namespace List

variable {α : Type}

lemma rdropWhile_append_of_forall {p : α → Bool} {l l' : List α} (h : ∀ x ∈ l', p x) :
    (l ++ l').rdropWhile p = l.rdropWhile p := by
  simp only [List.rdropWhile, List.reverse_append]
  rw [List.dropWhile_append_of_pos fun x hx => h x (List.mem_reverse.mp hx)]

lemma rdropWhile_dropWhile_of_split {p : α → Bool} {pre mid post : List α}
    (hpre : ∀ x ∈ pre, p x) (hmid : ∀ x ∈ mid, p x = false) (hpost : ∀ x ∈ post, p x) :
    ((pre ++ mid ++ post).dropWhile p).rdropWhile p = mid := by
  rw [List.append_assoc, List.dropWhile_append_of_pos hpre]
  cases mid with
  | nil => simp [List.dropWhile_eq_nil_iff.mpr hpost]
  | cons m ms =>
    rw [List.cons_append, List.dropWhile_cons_of_neg (by simp [hmid m List.mem_cons_self]),
      ← List.cons_append, rdropWhile_append_of_forall hpost, List.rdropWhile_eq_self_iff]
    intro hne
    simp [hmid _ (List.getLast_mem hne)]

lemma forall_mem_dropWhile_eq_false {R : α → α → Prop} {q : α → Bool}
    (hq : ∀ x y, R x y → q y → q x) : ∀ {l : List α}, l.Pairwise R → ∀ y ∈ l.dropWhile q, q y = false
  | [], _, y, hy => by simp at hy
  | x :: l, hl, y, hy => by
    rw [List.pairwise_cons] at hl
    by_cases hx : q x
    · rw [List.dropWhile_cons_of_pos hx] at hy
      exact forall_mem_dropWhile_eq_false hq hl.2 y hy
    · rw [List.dropWhile_cons_of_neg hx] at hy
      rcases List.mem_cons.mp hy with rfl | hy
      · simpa using hx
      · by_contra hy'
        exact hx (hq x y (hl.1 y hy) (by simpa using hy'))

variable {β : Type} [LinearOrder β] {f : α → β}

lemma exists_split_interval {l : List α} (hl : (l.map f).Pairwise (· < ·)) (lo hi : β) :
    ∃ pre mid post, l = pre ++ mid ++ post ∧ (∀ x ∈ pre, f x < lo) ∧
      (∀ x ∈ mid, lo ≤ f x ∧ f x < hi) ∧ ∀ x ∈ post, hi ≤ f x := by
  have hsorted : l.Pairwise fun x y => f x < f y := List.pairwise_map.mp hl
  let rest := l.dropWhile fun x => decide (f x < lo)
  have hrest : ∀ x ∈ rest, lo ≤ f x := fun x hx => by
    have := forall_mem_dropWhile_eq_false (q := fun x => decide (f x < lo))
      (fun x y hxy hy => by simpa using (hxy.trans (by simpa using hy))) hsorted x hx
    simpa using this
  have hrest_sorted : rest.Pairwise fun x y => f x < f y :=
    hsorted.sublist (List.dropWhile_sublist _)
  refine ⟨l.takeWhile fun x => decide (f x < lo), rest.takeWhile fun x => !decide (hi ≤ f x),
    rest.dropWhile fun x => !decide (hi ≤ f x), ?_, ?_, ?_, ?_⟩
  · rw [List.append_assoc, List.takeWhile_append_dropWhile, List.takeWhile_append_dropWhile]
  · intro x hx
    simpa using List.mem_takeWhile_imp hx
  · intro x hx
    have hlt : ¬ hi ≤ f x := by simpa using List.mem_takeWhile_imp hx
    exact ⟨hrest x ((List.takeWhile_sublist _).subset hx), not_le.mp hlt⟩
  · intro x hx
    have := forall_mem_dropWhile_eq_false (q := fun x => !decide (hi ≤ f x))
      (fun x y hxy hy => by
        simp only [Bool.not_eq_eq_eq_not, Bool.not_true, decide_eq_false_iff_not, not_le] at hy ⊢
        exact hxy.trans hy) hrest_sorted x hx
    simpa using this

/-- On a list sorted by the key `f`, trimming past the keys outside `[lo, hi)` at both ends
keeps the elements with keys inside. -/
theorem rdropWhile_dropWhile_outside {l : List α} (hl : (l.map f).Pairwise (· < ·)) (lo hi : β) :
    (l.dropWhile fun x => !decide (lo ≤ f x ∧ f x < hi)).rdropWhile
        (fun x => !decide (lo ≤ f x ∧ f x < hi)) =
      l.filter fun x => decide (lo ≤ f x ∧ f x < hi) := by
  obtain ⟨pre, mid, post, rfl, hpre, hmid, hpost⟩ := exists_split_interval hl lo hi
  have hout : ∀ x, (f x < lo ∨ hi ≤ f x) → (!decide (lo ≤ f x ∧ f x < hi)) = true := by
    intro x hx
    simp only [Bool.not_eq_true', decide_eq_false_iff_not, not_and, not_lt]
    rcases hx with hx | hx
    · exact fun h => absurd hx (not_lt.mpr h)
    · exact fun _ => hx
  have hin : ∀ x ∈ mid, (!decide (lo ≤ f x ∧ f x < hi)) = false := fun x hx => by
    simpa using hmid x hx
  have hpre' : pre.filter (fun x => decide (lo ≤ f x ∧ f x < hi)) = [] :=
    List.filter_eq_nil_iff.mpr fun x hx h => absurd (hpre x hx) (not_lt.mpr (of_decide_eq_true h).1)
  have hpost' : post.filter (fun x => decide (lo ≤ f x ∧ f x < hi)) = [] :=
    List.filter_eq_nil_iff.mpr fun x hx h => absurd (hpost x hx) (not_le.mpr (of_decide_eq_true h).2)
  have hmid' : mid.filter (fun x => decide (lo ≤ f x ∧ f x < hi)) = mid :=
    List.filter_eq_self.mpr fun x hx => decide_eq_true (hmid x hx)
  rw [rdropWhile_dropWhile_of_split (fun x hx => hout x (.inl (hpre x hx))) hin
    (fun x hx => hout x (.inr (hpost x hx))), List.filter_append, List.filter_append, hpre', hpost',
    hmid', List.nil_append, List.append_nil]

end List
