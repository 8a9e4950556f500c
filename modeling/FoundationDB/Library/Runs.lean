import Mathlib.Order.Basic
import Mathlib.Algebra.Order.Group.Unbundled.Int

/-! Maximal runs of a function on an interval of integers: `[s, t]` inside `[b, e]` on which
the function is constant, and which cannot be extended on either side within `[b, e]`. A point
of a run is its first point when it is `b` or the function changes just before it, and lies
before the run's last point when it is before `e` and the function does not change just after. -/

namespace Runs

variable {β : Type} (T : ℤ → β)

def IsRun (b e s t : ℤ) (n : β) : Prop :=
  b ≤ s ∧ s ≤ t ∧ t ≤ e ∧ (∀ v, s ≤ v → v ≤ t → T v = n) ∧ (s = b ∨ T (s - 1) ≠ n) ∧
    (t = e ∨ T (t + 1) ≠ n)

variable {T} {b e s t v : ℤ} {n : β}

lemma IsRun.apply (h : IsRun T b e s t n) (hs : s ≤ v) (ht : v ≤ t) : T v = n :=
  h.2.2.2.1 v hs ht

lemma IsRun.lt_right_iff (h : IsRun T b e s t n) (hs : s ≤ v) (ht : v ≤ t) :
    v < t ↔ v < e ∧ T (v + 1) = T v := by
  obtain ⟨-, -, hte, hconst, -, hright⟩ := h
  constructor
  · intro hvt
    exact ⟨lt_of_lt_of_le hvt hte, by rw [hconst (v + 1) (by omega) (by omega), hconst v hs ht]⟩
  · rintro ⟨hve, hnext⟩
    by_contra hge
    have hvt : v = t := by omega
    subst hvt
    rcases hright with rfl | hne
    · exact lt_irrefl _ hve
    · exact hne (hnext.trans (hconst v hs ht))

lemma IsRun.eq_left_iff (h : IsRun T b e s t n) (hs : s ≤ v) (ht : v ≤ t) :
    v = s ↔ v = b ∨ T (v - 1) ≠ T v := by
  obtain ⟨hbs, -, -, hconst, hleft, -⟩ := h
  constructor
  · rintro rfl
    rcases hleft with rfl | hne
    · exact .inl rfl
    · exact .inr (by rwa [hconst v le_rfl ht])
  · rintro (rfl | hne)
    · omega
    · by_contra hvs
      exact hne (by rw [hconst (v - 1) (by omega) (by omega), hconst v hs ht])

end Runs
