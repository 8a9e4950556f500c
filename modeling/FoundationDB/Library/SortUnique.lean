import Mathlib

/-! `std::sort` and then `std::unique` by a key, on lists: `List.mergeSort` by a total preorder,
and `List.destutter`, which keeps the first element of each run whose keys agree. For each key,
what is left is the first element the sort put there, and when the sort orders the elements of
a key by a number downwards, that element carries the largest number. -/

namespace List

section Unique

variable {α β : Type} [DecidableEq β] (f : α → β) (k : β)

lemma find?_destutter' : ∀ (a : α) (l : List α),
    (l.destutter' (fun x y => f x ≠ f y) a).find? (fun x => f x = k) =
      (a :: l).find? (fun x => f x = k)
  | a, [] => by simp
  | a, b :: l => by
    rw [destutter'_cons]
    by_cases hab : f a ≠ f b
    · rw [if_pos hab, find?_cons, find?_destutter' b l, find?_cons (a := a)]
    · -- `b` has `a`'s key: after `a` it is never the first with key `k`
      rw [if_neg hab, find?_destutter' a l]
      have hab' : f a = f b := not_not.mp hab
      by_cases ha : f a = k
      · simp [ha]
      · simp [ha, ← hab']

lemma find?_destutter (l : List α) :
    (l.destutter (fun x y => f x ≠ f y)).find? (fun x => f x = k) = l.find? (fun x => f x = k) := by
  cases l with
  | nil => rfl
  | cons a l => rw [destutter_cons', find?_destutter']

end Unique

section Max

lemma head?_eq_max?_of_pairwise {l : List ℕ} (h : l.Pairwise (· ≥ ·)) : l.head? = l.max? := by
  cases l with
  | nil => rfl
  | cons a t =>
    refine (max?_eq_some_iff.mpr ⟨mem_cons_self, fun b hb => ?_⟩).symm
    rcases mem_cons.mp hb with rfl | hb
    · exact le_rfl
    · exact rel_of_pairwise_cons h hb

lemma max?_eq_of_perm {l₁ l₂ : List ℕ} (h : l₁.Perm l₂) : l₁.max? = l₂.max? := by
  cases hm : l₂.max? with
  | none =>
    rw [max?_eq_none_iff] at hm ⊢
    subst hm
    exact h.eq_nil
  | some a =>
    rw [max?_eq_some_iff] at hm ⊢
    exact ⟨h.mem_iff.mpr hm.1, fun b hb => hm.2 b (h.mem_iff.mp hb)⟩

end Max

end List
