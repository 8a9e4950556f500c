import Mathlib

/-! Ordered maps (`std::map`, flow's `Map`) as association lists sorted by key, with
the operations the models use: `operator[]` followed by an update, erasing a prefix of
keys, and reading the values of a key interval in order. -/

namespace SortedMap

variable {κ β : Type*} [LinearOrder κ]

/-- `m[k]`, then `f` applied to the value found (or to nothing). -/
def upsert (f : Option β → β) (k : κ) : List (κ × β) → List (κ × β)
  | [] => [(k, f none)]
  | (k', v) :: rest =>
    if k < k' then (k, f none) :: (k', v) :: rest
    else if k = k' then (k, f (some v)) :: rest
    else (k', v) :: upsert f k rest

/-- `m.erase(m.begin(), m.upper_bound(k))`. -/
def eraseUpTo (k : κ) (m : List (κ × β)) : List (κ × β) := m.filter fun e => k < e.1

/-- The values from `m.lower_bound(lo)` up to `m.lower_bound(hi)`. -/
def valuesFrom (lo hi : κ) (m : List (κ × β)) : List β :=
  (m.filter fun e => lo ≤ e.1 ∧ e.1 < hi).map Prod.snd

lemma upsert_of_lt (f : Option β → β) {k : κ} :
    ∀ {m : List (κ × β)}, (∀ e ∈ m, e.1 < k) → upsert f k m = m ++ [(k, f none)]
  | [], _ => rfl
  | (k', v) :: rest, h => by
    have hk : k' < k := h (k', v) (by simp)
    have hrest : ∀ e ∈ rest, e.1 < k := fun e he => h e (by simp [he])
    simp only [upsert, not_lt_of_gt hk, if_false, ne_of_gt hk, upsert_of_lt f hrest,
      List.cons_append]

lemma valuesFrom_concat_of_le {lo hi k : κ} (m : List (κ × β)) (b : β) (h : hi ≤ k) :
    valuesFrom lo hi (m ++ [(k, b)]) = valuesFrom lo hi m := by
  simp [valuesFrom, List.filter_append, not_lt.mpr h]

lemma filter_lt_append_filter_le {m : List (κ × β)} (hm : m.Pairwise fun a b => a.1 < b.1)
    (k : κ) : m.filter (fun e => e.1 < k) ++ m.filter (fun e => k ≤ e.1) = m := by
  induction m with
  | nil => rfl
  | cons e m ih =>
    rw [List.pairwise_cons] at hm
    by_cases hk : e.1 < k
    · simp [List.filter_cons, hk, not_le.mpr hk, ih hm.2]
    · have hle : k ≤ e.1 := not_lt.mp hk
      have hlow : m.filter (fun e => e.1 < k) = [] := by
        apply List.filter_eq_nil_iff.mpr
        intro a ha
        simpa using hle.trans (hm.1 a ha).le
      have hhigh : m.filter (fun e => k ≤ e.1) = m := by
        apply List.filter_eq_self.mpr
        intro a ha
        simpa using hle.trans (hm.1 a ha).le
      simp [List.filter_cons, hk, hle, hlow, hhigh]

end SortedMap
