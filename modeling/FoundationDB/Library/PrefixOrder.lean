import Mathlib
import FoundationDB.Library.BigEndian

/-! The keys under a common prefix in the lexicographic order on lists: they form an interval,
and putting another prefix in its place keeps their order. -/

namespace List

variable {α : Type}

lemma move_inj {r a x y : List α} (hx : r <+: x) (hy : r <+: y) :
    a ++ x.drop r.length = a ++ y.drop r.length ↔ x = y := by
  obtain ⟨u, rfl⟩ := hx
  obtain ⟨v, rfl⟩ := hy
  simp only [List.drop_left, List.append_cancel_left_eq]

variable [LinearOrder α]

lemma IsPrefix.of_le_of_lt {r lo hi k : List α} (hlo : r <+: lo) (hhi : r <+: hi) (h₁ : lo ≤ k)
    (h₂ : k < hi) : r <+: k := by
  obtain ⟨u, rfl⟩ := hlo
  obtain ⟨v, rfl⟩ := hhi
  induction r generalizing k with
  | nil => exact List.nil_prefix
  | cons c r ih =>
    cases k with
    | nil => exact absurd h₁ (not_le.mpr (List.nil_lt_cons _ _))
    | cons d k =>
      rw [← not_lt, List.cons_append, List.cons_lt_cons_iff] at h₁
      rw [List.cons_append, List.cons_lt_cons_iff] at h₂
      obtain hdc | ⟨rfl, hk⟩ := h₂
      · exact absurd (.inl hdc) h₁
      · have hle : r ++ u ≤ k := not_lt.mp fun h => h₁ (.inr ⟨rfl, h⟩)
        exact (List.cons_prefix_cons).mpr ⟨rfl, ih hle hk⟩

lemma IsPrefix.of_le_of_le {r lo hi k : List α} (hlo : r <+: lo) (hhi : r <+: hi) (h₁ : lo ≤ k)
    (h₂ : k ≤ hi) : r <+: k := by
  rcases h₂.lt_or_eq with h₂ | rfl
  · exact hlo.of_le_of_lt hhi h₁ h₂
  · exact hhi

lemma prefix_of_forall_eq_top_of_le [OrderTop α] :
    ∀ {u k : List α}, (∀ x ∈ u, x = ⊤) → u ≤ k → u <+: k
  | [], _, _, _ => List.nil_prefix
  | x :: u, [], _, h => absurd h (not_le.mpr (List.nil_lt_cons x u))
  | x :: u, y :: k, hu, h => by
    rw [← not_lt, List.cons_lt_cons_iff] at h
    -- nothing is above the top, so `k` goes on with `x` itself
    have hy : y = x := by
      by_contra hne
      exact h (.inl (lt_of_le_of_ne ((hu x List.mem_cons_self) ▸ le_top) hne))
    subst hy
    exact List.cons_prefix_cons.mpr ⟨rfl, prefix_of_forall_eq_top_of_le
      (fun z hz => hu z (List.mem_cons_of_mem y hz)) (not_lt.mp fun hk => h (.inr ⟨rfl, hk⟩))⟩

section Move

variable {r a x y : List α}

lemma move_lt_move_iff (hx : r <+: x) (hy : r <+: y) :
    a ++ x.drop r.length < a ++ y.drop r.length ↔ x < y := by
  obtain ⟨u, rfl⟩ := hx
  obtain ⟨v, rfl⟩ := hy
  simp only [List.drop_left, append_lt_append_left_iff]

lemma move_le_move_iff (hx : r <+: x) (hy : r <+: y) :
    a ++ x.drop r.length ≤ a ++ y.drop r.length ↔ x ≤ y := by
  rw [← not_lt, move_lt_move_iff hy hx, not_lt]

end Move

end List
