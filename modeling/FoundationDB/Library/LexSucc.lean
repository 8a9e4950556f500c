import Mathlib

/-! In the lexicographic order on lists over an order with a least element, appending that
element gives the immediate successor: nothing lies strictly between `a` and `a ++ [⊥]`. -/

namespace List

variable {α : Type} [LinearOrder α] [OrderBot α]

lemma lt_append_bot_iff {a b : List α} : b < a ++ [⊥] ↔ b ≤ a := by
  induction a generalizing b with
  | nil =>
    cases b with
    | nil => simp [List.nil_lt_cons]
    | cons y b =>
      simp only [List.nil_append, List.cons_lt_cons_iff, List.not_lt_nil, and_false, or_false]
      constructor
      · intro h
        exact absurd h not_lt_bot
      · intro h
        exact absurd h (not_le.mpr (List.nil_lt_cons y b))
  | cons x a ih =>
    cases b with
    | nil => exact ⟨fun _ => (List.nil_lt_cons x a).le, fun _ => List.nil_lt_cons _ _⟩
    | cons y b =>
      rw [List.cons_append, List.cons_lt_cons_iff, ← not_lt, List.cons_lt_cons_iff, ih, ← not_lt]
      constructor
      · rintro (h | ⟨rfl, h⟩)
        · rintro (h' | ⟨rfl, -⟩)
          · exact lt_asymm h h'
          · exact lt_irrefl _ h
        · rintro (h' | ⟨-, h'⟩)
          · exact lt_irrefl _ h'
          · exact h h'
      · intro h
        rcases lt_trichotomy y x with hxy | rfl | hxy
        · exact .inl hxy
        · exact .inr ⟨rfl, fun h' => h (.inr ⟨rfl, h'⟩)⟩
        · exact absurd (.inl hxy) h

lemma append_bot_le_iff {a b : List α} : a ++ [⊥] ≤ b ↔ a < b := by
  rw [← not_lt, lt_append_bot_iff, not_le]

lemma lt_append_bot (a : List α) : a < a ++ [⊥] :=
  lt_append_bot_iff.mpr le_rfl

end List
