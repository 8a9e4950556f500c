import Mathlib.Data.Fintype.Card
import Mathlib.Order.MinMax

/-! Quorums over a finite set of replicas, and the running maximum a client folds over
the replies it holds. -/

namespace Quorum

variable {ι : Type} [Fintype ι] [DecidableEq ι]

lemma inter_nonempty_of_lt_card_add {s t : Finset ι} (h : Fintype.card ι < s.card + t.card) :
    (s ∩ t).Nonempty :=
  Finset.inter_nonempty_of_card_lt_card_add_card (Finset.subset_univ s) (Finset.subset_univ t)
    (by rwa [Finset.card_univ])

lemma countP_range_not_mem {N : ℕ} {s : Finset ℕ} (hs : ∀ t ∈ s, t < N) :
    (List.range N).countP (fun t => t ∉ s) = N - s.card := by
  have hcard : (List.range N).countP (fun t => t ∈ s) = s.card := by
    rw [List.countP_eq_length_filter, ← List.toFinset_card_of_nodup (List.nodup_range.filter _)]
    congr 1
    ext t
    simpa using hs t
  have htot := List.length_eq_countP_add_countP (fun t => decide (t ∈ s)) (l := List.range N)
  simp only [List.length_range, decide_eq_true_eq] at htot
  omega

lemma majority_add_half (n : ℕ) : n < (n / 2 + 1) + (n + 1) / 2 := by
  omega

lemma majority_add_majority (n : ℕ) : n < (n / 2 + 1) + (n / 2 + 1) := by
  omega

end Quorum

namespace List

variable {α : Type} [LinearOrder α]

lemma le_foldl_max_of_le {a b : α} (l : List α) (h : a ≤ b) : a ≤ l.foldl max b := by
  induction l generalizing b with
  | nil => exact h
  | cons x xs ih => exact ih (le_max_of_le_left h)

lemma le_foldl_max_of_mem {a : α} (b : α) {l : List α} (h : a ∈ l) : a ≤ l.foldl max b := by
  induction l generalizing b with
  | nil => cases h
  | cons x xs ih =>
    rcases List.mem_cons.mp h with rfl | hmem
    · exact le_foldl_max_of_le xs (le_max_right b a)
    · exact ih _ hmem

lemma foldl_max_mem (b : α) (l : List α) : l.foldl max b ∈ b :: l := by
  induction l generalizing b with
  | nil => exact List.mem_singleton_self b
  | cons x xs ih =>
    -- the running maximum after `x` is `b` or `x`, and later ones are in `xs`
    rcases List.mem_cons.mp (ih (max b x)) with h | h
    · rw [List.foldl_cons, h]
      rcases max_choice b x with hm | hm <;> simp [hm]
    · exact List.mem_cons_of_mem _ (List.mem_cons_of_mem _ h)

end List

namespace List

variable {α β : Type} [LinearOrder β] {f : α → β}

lemma Pairwise.le_getElem_of_countP_le {l : List α} (hs : l.Pairwise fun a b => f a ≤ f b)
    {v : β} {w : ℕ} (hw : w < l.length) (hc : l.countP (fun a => f a < v) ≤ w) :
    v ≤ f l[w] := by
  by_contra hle
  have hlt : f l[w] < v := not_le.mp hle
  have hbelow : ∀ a ∈ l.take (w + 1), f a < v := by
    intro a ha
    obtain ⟨i, hi, rfl⟩ := List.mem_take_iff_getElem.mp ha
    rcases Nat.lt_or_eq_of_le (Nat.lt_succ_iff.mp (lt_of_lt_of_le hi (min_le_left _ _))) with h | rfl
    · exact lt_of_le_of_lt (List.pairwise_iff_getElem.mp hs i w _ hw h) hlt
    · exact hlt
  have hcount : w + 1 ≤ l.countP (fun a => f a < v) :=
    calc w + 1 = (l.take (w + 1)).length := by simp; omega
      _ = (l.take (w + 1)).countP (fun a => f a < v) :=
        (List.countP_eq_length.mpr (by simpa using hbelow)).symm
      _ ≤ l.countP (fun a => f a < v) := (List.take_sublist _ _).countP_le
  omega

end List
