import Mathlib

/-! Writes that each give the points of their own range the values of one target map. Run any
number of them, in any order, and a point holds the target's value if some range holds it, and
its old value if none does. Clearing a range and then setting a list of distinct points in it is
such a write, for the target that the list holds. -/

namespace Overwrite

variable {α β ι : Type}

section Fold

variable (range : ι → α → Prop) [∀ i a, Decidable (range i a)] (write : ι → (α → β) → α → β)
  (g : α → β)

lemma foldl_of_forall_not : ∀ (ws : List ι),
    (∀ i ∈ ws, ∀ f a, write i f a = if range i a then g a else f a) →
    ∀ (f : α → β) (a : α), (∀ i ∈ ws, ¬ range i a) → ws.foldl (fun f i => write i f) f a = f a
  | [], _, _, _, _ => rfl
  | i :: ws, hw, f, a, h => by
    rw [List.foldl_cons, foldl_of_forall_not ws (fun j hj => hw j (List.mem_cons_of_mem i hj)) _ a
      fun j hj => h j (List.mem_cons_of_mem i hj), hw i List.mem_cons_self, if_neg (h i List.mem_cons_self)]

lemma foldl_of_exists : ∀ (ws : List ι),
    (∀ i ∈ ws, ∀ f a, write i f a = if range i a then g a else f a) →
    ∀ (f : α → β) (a : α), (∃ i ∈ ws, range i a) → ws.foldl (fun f i => write i f) f a = g a
  | [], _, _, _, ⟨_, hi, _⟩ => absurd hi List.not_mem_nil
  | i :: ws, hw, f, a, h => by
    have hw' : ∀ j ∈ ws, ∀ f a, write j f a = if range j a then g a else f a :=
      fun j hj => hw j (List.mem_cons_of_mem i hj)
    rw [List.foldl_cons]
    by_cases hws : ∃ j ∈ ws, range j a
    · exact foldl_of_exists ws hw' _ a hws
    · -- then the first write is the one whose range holds the point
      have hi : range i a := by
        obtain ⟨j, hj, hja⟩ := h
        rcases List.mem_cons.mp hj with rfl | hj
        · exact hja
        · exact absurd ⟨j, hj, hja⟩ hws
      rw [foldl_of_forall_not range write g ws hw' _ a fun j hj hja => hws ⟨j, hj, hja⟩,
        hw i List.mem_cons_self, if_pos hi]

end Fold

section Sets

variable [BEq α] [LawfulBEq α] {γ : Type}

lemma lookup_eq_none_of_forall_ne {l : List (α × γ)} {a : α} (h : ∀ p ∈ l, p.1 ≠ a) :
    l.lookup a = none :=
  List.lookup_eq_none_iff.mpr fun p hp => bne_iff_ne.mpr fun hpa => h p hp hpa.symm

lemma lookup_append_append {l₁ l₂ l₃ : List (α × γ)} {a : α} (h₁ : ∀ p ∈ l₁, p.1 ≠ a)
    (h₃ : ∀ p ∈ l₃, p.1 ≠ a) : (l₁ ++ l₂ ++ l₃).lookup a = l₂.lookup a := by
  rw [List.lookup_append, List.lookup_append, lookup_eq_none_of_forall_ne h₁,
    lookup_eq_none_of_forall_ne h₃, Option.none_or, Option.or_none]

variable [DecidableEq α]

lemma foldl_update_apply (f : α → Option γ) :
    ∀ (sets : List (α × γ)), (sets.map Prod.fst).Nodup → ∀ a : α,
      sets.foldl (fun (f : α → Option γ) (p : α × γ) => Function.update f p.1 (some p.2)) f a =
        (sets.lookup a).or (f a)
  | [], _, _ => rfl
  | (k, v) :: sets, hnodup, a => by
    rw [List.map_cons, List.nodup_cons] at hnodup
    rw [List.foldl_cons, foldl_update_apply _ sets hnodup.2 a]
    by_cases hak : a = k
    · subst hak
      have hnone : sets.lookup a = none :=
        lookup_eq_none_of_forall_ne fun p hp hpa => hnodup.1 (List.mem_map.mpr ⟨p, hp, hpa⟩)
      simp [hnone]
    · rw [Function.update_of_ne hak, List.lookup_cons, beq_false_of_ne hak]

variable (S : α → Prop) [DecidablePred S]

/-- Clearing `S` and then setting the distinct points of `sets`, all in `S`, gives the points of
`S` what `sets` holds for them. -/
theorem foldl_update_clear (f : α → Option γ) (sets : List (α × γ)) (hS : ∀ p ∈ sets, S p.1)
    (hnodup : (sets.map Prod.fst).Nodup) (a : α) :
    sets.foldl (fun (f : α → Option γ) (p : α × γ) => Function.update f p.1 (some p.2))
        (fun a : α => if S a then none else f a) a =
      if S a then sets.lookup a else f a := by
  rw [foldl_update_apply _ sets hnodup a]
  by_cases ha : S a
  · simp [ha]
  · have hnone : sets.lookup a = none :=
      lookup_eq_none_of_forall_ne fun p hp hpa => ha (hpa ▸ hS p hp)
    simp [ha, hnone]

end Sets

end Overwrite
