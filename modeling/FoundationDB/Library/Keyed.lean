import Mathlib.Data.List.Lex
import Mathlib.Data.List.Sort
import Mathlib.Data.List.TakeWhile
import Mathlib.Order.BoundedOrder.Basic

/-! Lists of entries kept in strictly increasing order of a key, as an ordered tree holds
them: insertion after every entry not above the new one, removal of one key and of a
half-open range of keys, and the last entry at or below a key. -/

namespace Keyed

variable {κ ε : Type} [LinearOrder κ] (key : ε → κ)

def Sorted (l : List ε) : Prop := l.Pairwise fun a b => key a < key b

instance (l : List ε) : Decidable (Sorted key l) :=
  inferInstanceAs (Decidable (l.Pairwise _))

/-- The last entry whose key is at most `k`. -/
def lastLE (l : List ε) (k : κ) : Option ε := (l.filter fun e => key e ≤ k).getLast?

/-- The first entry whose key is above `k`. -/
def firstGT (l : List ε) (k : κ) : Option ε := (l.filter fun e => k < key e).head?

/-- Insertion after every entry whose key is not above the new entry's. -/
def insert (l : List ε) (x : ε) : List ε :=
  l.takeWhile (fun e => key e ≤ key x) ++ x :: l.dropWhile (fun e => key e ≤ key x)

def eraseKey (l : List ε) (k : κ) : List ε := l.eraseP fun e => key e = k

/-- Removal of every entry whose key lies in `[a, b)`. -/
def removeRange (l : List ε) (a b : κ) : List ε := l.filter fun e => ¬(a ≤ key e ∧ key e < b)

/-- `std::lower_bound`: the position of the first entry whose key is at least `k`. -/
def lowerBound (l : List ε) (k : κ) : ℕ := (l.takeWhile fun e => key e < k).length

/-- `IndexedSet::lastLessOrEqual`: the position of the last entry whose key is at most `k`,
or the end when there is none. -/
def lastLessOrEqual (l : List ε) (k : κ) : ℕ :=
  match (l.takeWhile fun e => key e ≤ k).length with
  | 0 => l.length
  | n + 1 => n

variable {key}

section Membership

variable {l : List ε}

lemma mem_insert {x y : ε} : y ∈ insert key l x ↔ y = x ∨ y ∈ l := by
  have hsplit := List.takeWhile_append_dropWhile (p := fun e => decide (key e ≤ key x)) (l := l)
  constructor
  · intro hy
    rcases List.mem_append.mp hy with hy | hy
    · exact .inr ((List.takeWhile_sublist _).subset hy)
    · rcases List.mem_cons.mp hy with rfl | hy
      · exact .inl rfl
      · exact .inr ((List.dropWhile_sublist _).subset hy)
  · rintro (rfl | hy)
    · exact List.mem_append_right _ List.mem_cons_self
    · rw [← hsplit] at hy
      rcases List.mem_append.mp hy with hy | hy
      · exact List.mem_append_left _ hy
      · exact List.mem_append_right _ (List.mem_cons_of_mem _ hy)

lemma mem_removeRange {a b : κ} {y : ε} :
    y ∈ removeRange key l a b ↔ y ∈ l ∧ ¬(a ≤ key y ∧ key y < b) := by
  simp only [removeRange, List.mem_filter, decide_eq_true_eq]

end Membership

section Sorted

variable {l : List ε}

lemma Sorted.key_injOn (hs : Sorted key l) {y z : ε} (hy : y ∈ l) (hz : z ∈ l)
    (h : key y = key z) : y = z := by
  induction l with
  | nil => cases hy
  | cons a l ih =>
    rw [Sorted, List.pairwise_cons] at hs
    rcases List.mem_cons.mp hy with rfl | hy'
    · rcases List.mem_cons.mp hz with rfl | hz'
      · rfl
      · exact absurd h (hs.1 z hz').ne
    · rcases List.mem_cons.mp hz with rfl | hz'
      · exact absurd h.symm (hs.1 y hy').ne
      · exact ih hs.2 hy' hz'

lemma Sorted.sublist {l' : List ε} (hs : Sorted key l) (h : l'.Sublist l) : Sorted key l' :=
  List.Pairwise.sublist h hs

lemma Sorted.removeRange (hs : Sorted key l) (a b : κ) :
    Sorted key (Keyed.removeRange key l a b) :=
  hs.sublist List.filter_sublist

lemma Sorted.eraseKey (hs : Sorted key l) (k : κ) : Sorted key (Keyed.eraseKey key l k) :=
  hs.sublist (List.eraseP_sublist)

lemma eraseKey_of_forall_ne {k : κ} (h : ∀ y ∈ l, key y ≠ k) : Keyed.eraseKey key l k = l :=
  List.eraseP_of_forall_not fun y hy => by simpa using h y hy

lemma Sorted.mem_eraseKey (hs : Sorted key l) {k : κ} {y : ε} :
    y ∈ Keyed.eraseKey key l k ↔ y ∈ l ∧ key y ≠ k := by
  induction l with
  | nil => simp [Keyed.eraseKey]
  | cons a l ih =>
    rw [Sorted, List.pairwise_cons] at hs
    by_cases ha : key a = k
    · -- the entry removed is the only one with that key
      simp only [Keyed.eraseKey, List.eraseP_cons_of_pos (p := fun e => decide (key e = k)) (by simpa using ha),
        List.mem_cons]
      constructor
      · intro hy
        exact ⟨.inr hy, fun hk => (hs.1 y hy).ne (ha.trans hk.symm)⟩
      · rintro ⟨rfl | hy, hk⟩
        · exact absurd ha hk
        · exact hy
    · simp only [Keyed.eraseKey, List.eraseP_cons_of_neg (p := fun e => decide (key e = k)) (by simpa using ha),
        List.mem_cons]
      rw [← Keyed.eraseKey, ih hs.2]
      constructor
      · rintro (rfl | ⟨hy, hk⟩)
        · exact ⟨.inl rfl, ha⟩
        · exact ⟨.inr hy, hk⟩
      · rintro ⟨rfl | hy, hk⟩
        · exact .inl rfl
        · exact .inr ⟨hy, hk⟩

lemma Sorted.not_of_mem_dropWhile (hs : Sorted key l) {p : κ → Prop} [DecidablePred p]
    (hp : ∀ a b, a < b → p b → p a) {y : ε} (hy : y ∈ l.dropWhile fun e => p (key e)) :
    ¬p (key y) := by
  induction l with
  | nil => cases hy
  | cons a l ih =>
    rw [Sorted, List.pairwise_cons] at hs
    by_cases ha : p (key a)
    · rw [List.dropWhile_cons_of_pos (by simpa using ha)] at hy
      exact ih hs.2 hy
    · rw [List.dropWhile_cons_of_neg (by simpa using ha)] at hy
      rcases List.mem_cons.mp hy with rfl | hy
      · exact ha
      · exact fun hpy => ha (hp _ _ (hs.1 y hy) hpy)

lemma Sorted.key_lt_of_mem_dropWhile (hs : Sorted key l) {c : κ} {y : ε}
    (hy : y ∈ l.dropWhile fun e => key e ≤ c) : c < key y :=
  not_le.mp (hs.not_of_mem_dropWhile (p := (· ≤ c)) (fun _ _ hab hb => hab.le.trans hb) hy)

lemma Sorted.le_key_of_mem_dropWhile (hs : Sorted key l) {c : κ} {y : ε}
    (hy : y ∈ l.dropWhile fun e => key e < c) : c ≤ key y :=
  not_lt.mp (hs.not_of_mem_dropWhile (p := (· < c)) (fun _ _ hab hb => hab.trans hb) hy)

lemma Sorted.insert (hs : Sorted key l) {x : ε} (hx : ∀ y ∈ l, key y ≠ key x) :
    Sorted key (Keyed.insert key l x) := by
  have hsplit := List.takeWhile_append_dropWhile (p := fun e => decide (key e ≤ key x)) (l := l)
  have hs' : Sorted key (l.takeWhile (fun e => key e ≤ key x) ++ l.dropWhile (fun e => key e ≤ key x)) := by
    rwa [hsplit]
  rw [Sorted, List.pairwise_append] at hs'
  rw [Keyed.insert, Sorted, List.pairwise_append, List.pairwise_cons]
  refine ⟨hs'.1, ⟨fun y hy => hs.key_lt_of_mem_dropWhile hy, hs'.2.1⟩, ?_⟩
  intro a ha y hy
  have hale : key a < key x := by
    have h1 : key a ≤ key x := by simpa using List.mem_takeWhile_imp ha
    exact lt_of_le_of_ne h1 (hx a ((List.takeWhile_sublist _).subset ha))
  rcases List.mem_cons.mp hy with rfl | hy
  · exact hale
  · exact hs'.2.2 a ha y hy

lemma sorted_append_cons {l₁ l₂ : List ε} {x : ε} (h₁ : Sorted key l₁) (h₂ : Sorted key l₂)
    (hx₁ : ∀ y ∈ l₁, key y < key x) (hx₂ : ∀ y ∈ l₂, key x < key y) : Sorted key (l₁ ++ x :: l₂) := by
  refine List.pairwise_append.mpr ⟨h₁, List.pairwise_cons.mpr ⟨hx₂, h₂⟩, fun a ha b hb => ?_⟩
  rcases List.mem_cons.mp hb with rfl | hb
  · exact hx₁ a ha
  · exact (hx₁ a ha).trans (hx₂ b hb)

lemma Sorted.split_of_mem (hs : Sorted key l) {x : ε} (hx : x ∈ l) :
    ∃ T R, l = T ++ x :: R ∧ (∀ y ∈ T, key y < key x) ∧ ∀ y ∈ R, key x < key y := by
  obtain ⟨T, R, rfl⟩ := List.append_of_mem hx
  rw [Sorted, List.pairwise_append, List.pairwise_cons] at hs
  exact ⟨T, R, rfl, fun y hy => hs.2.2 y hy x List.mem_cons_self, hs.2.1.1⟩

lemma insert_eraseKey_append {l₁ l₂ : List ε} {x : ε} (h₁ : ∀ y ∈ l₁, key y < key x)
    (h₂ : ∀ y ∈ l₂, key x < key y) :
    Keyed.insert key (Keyed.eraseKey key (l₁ ++ l₂) (key x)) x = l₁ ++ x :: l₂ := by
  have hne : ∀ y ∈ l₁ ++ l₂, key y ≠ key x := by
    intro y hy
    rcases List.mem_append.mp hy with hy | hy
    · exact (h₁ y hy).ne
    · exact (h₂ y hy).ne'
  have hle : ∀ y ∈ l₁, decide (key y ≤ key x) = true := fun y hy => by simpa using (h₁ y hy).le
  rw [eraseKey_of_forall_ne hne, Keyed.insert, List.takeWhile_append_of_pos hle,
    List.dropWhile_append_of_pos hle]
  cases l₂ with
  | nil => simp
  | cons z l₂ =>
    have hz : ¬key z ≤ key x := not_le.mpr (h₂ z List.mem_cons_self)
    rw [List.takeWhile_cons_of_neg (by simpa using hz), List.dropWhile_cons_of_neg (by simpa using hz),
      List.append_nil]

end Sorted

section LastLE

variable {l : List ε}

lemma lastLE_eq_none_iff {k : κ} : lastLE key l k = none ↔ ∀ y ∈ l, k < key y := by
  simp [lastLE]

lemma Sorted.lastLE_eq_some_iff (hs : Sorted key l) {k : κ} {e : ε} :
    lastLE key l k = some e ↔ e ∈ l ∧ key e ≤ k ∧ ∀ y ∈ l, key y ≤ k → key y ≤ key e := by
  have hf : Sorted key (l.filter fun e => key e ≤ k) := hs.sublist List.filter_sublist
  constructor
  · intro h
    obtain ⟨init, hinit⟩ := List.getLast?_eq_some_iff.mp h
    have hmem : e ∈ l.filter fun e => key e ≤ k := by rw [hinit]; simp
    rw [List.mem_filter] at hmem
    refine ⟨hmem.1, by simpa using hmem.2, fun y hy hyk => ?_⟩
    have hyf : y ∈ init ++ [e] := by rw [← hinit]; simp [hy, hyk]
    rw [Sorted, hinit, List.pairwise_append] at hf
    rcases List.mem_append.mp hyf with hyf | hyf
    · exact (hf.2.2 y hyf e (by simp)).le
    · rw [List.mem_singleton] at hyf
      rw [hyf]
  · rintro ⟨he, hek, hmax⟩
    -- the last entry kept by the filter is a maximum too, so it has `e`'s key
    obtain ⟨e', he'⟩ : ∃ e', lastLE key l k = some e' := by
      cases h : lastLE key l k with
      | none => exact absurd hek (not_le.mpr ((lastLE_eq_none_iff.mp h) e he))
      | some e' => exact ⟨e', rfl⟩
    obtain ⟨init, hinit⟩ := List.getLast?_eq_some_iff.mp he'
    have hmem : e' ∈ l.filter fun e => key e ≤ k := by rw [hinit]; simp
    rw [List.mem_filter] at hmem
    have hemem : e ∈ init ++ [e'] := by rw [← hinit]; simp [he, hek]
    rw [Sorted, hinit, List.pairwise_append] at hf
    have hle : key e' ≤ key e := hmax e' hmem.1 (by simpa using hmem.2)
    rcases List.mem_append.mp hemem with hemem | hemem
    · exact absurd hle (not_le.mpr (hf.2.2 e hemem e' (by simp)))
    · rw [List.mem_singleton] at hemem
      rw [he', hemem]

lemma Sorted.lastLE_eq_of (hs : Sorted key l) {k : κ} {e : ε} (he : e ∈ l) (hek : key e ≤ k)
    (hmax : ∀ y ∈ l, key y ≤ k → key y ≤ key e) : lastLE key l k = some e :=
  hs.lastLE_eq_some_iff.mpr ⟨he, hek, hmax⟩

lemma Sorted.lastLE_congr {l' : List ε} (hs : Sorted key l) (hs' : Sorted key l') {k : κ}
    (h : ∀ y, key y ≤ k → (y ∈ l ↔ y ∈ l')) : lastLE key l k = lastLE key l' k := by
  cases hl : lastLE key l k with
  | none =>
    symm
    rw [lastLE_eq_none_iff] at hl ⊢
    intro y hy
    by_contra hyk
    exact absurd (hl y ((h y (not_lt.mp hyk)).mpr hy)) hyk
  | some e =>
    obtain ⟨he, hek, hmax⟩ := hs.lastLE_eq_some_iff.mp hl
    symm
    exact hs'.lastLE_eq_of ((h e hek).mp he) hek fun y hy hyk => hmax y ((h y hyk).mpr hy) hyk

lemma Sorted.lastLE_insert_eraseKey (hs : Sorted key l) (x : ε) (k : κ) :
    lastLE key (Keyed.insert key (Keyed.eraseKey key l (key x)) x) k =
      if key x ≤ k ∧ ∀ y, lastLE key l k = some y → key y ≤ key x then some x
      else lastLE key l k := by
  have hs' : Sorted key (Keyed.insert key (Keyed.eraseKey key l (key x)) x) :=
    (hs.eraseKey _).insert fun y hy => (hs.mem_eraseKey.mp hy).2
  have hmem (y : ε) : y ∈ Keyed.insert key (Keyed.eraseKey key l (key x)) x ↔ y = x ∨ (y ∈ l ∧ key y ≠ key x) := by
    rw [mem_insert, hs.mem_eraseKey]
  split_ifs with hx
  · refine hs'.lastLE_eq_of ((hmem x).mpr (.inl rfl)) hx.1 fun y hy hyk => ?_
    rcases (hmem y).mp hy with rfl | ⟨hy, -⟩
    · exact le_rfl
    · -- an older entry at or before `k` is at or before the last one, hence before `x`
      cases hl : lastLE key l k with
      | none => exact absurd hyk (not_le.mpr ((lastLE_eq_none_iff.mp hl) y hy))
      | some e => exact ((hs.lastLE_eq_some_iff.mp hl).2.2 y hy hyk).trans (hx.2 e hl)
  · cases hl : lastLE key l k with
    | none =>
      have hnone := hl
      rw [lastLE_eq_none_iff] at hl ⊢
      intro y hy
      rcases (hmem y).mp hy with rfl | ⟨hy, -⟩
      · by_contra hyk
        exact hx ⟨not_lt.mp hyk, fun e he => by rw [hnone] at he; cases he⟩
      · exact hl y hy
    | some e =>
      obtain ⟨he, hek, hmax⟩ := hs.lastLE_eq_some_iff.mp hl
      -- `x` is above `k` or below `e`, so `e` stays the last one
      have hxe : key x ≤ k → key x < key e := by
        intro hxk
        by_contra hle
        exact hx ⟨hxk, fun y hy => by rw [hl] at hy; cases hy; exact not_lt.mp hle⟩
      have hne : key e ≠ key x := fun h => by
        have := hxe (h ▸ hek)
        rw [h] at this
        exact lt_irrefl _ this
      refine hs'.lastLE_eq_of ((hmem e).mpr (.inr ⟨he, hne⟩)) hek fun y hy hyk => ?_
      rcases (hmem y).mp hy with rfl | ⟨hy, -⟩
      · exact (hxe hyk).le
      · exact hmax y hy hyk

lemma lastLE_append (l₁ l₂ : List ε) (k : κ) :
    lastLE key (l₁ ++ l₂) k = (lastLE key l₂ k).or (lastLE key l₁ k) := by
  simp only [lastLE, List.filter_append, List.getLast?_append]

lemma lastLE_eq_getLast? {k : κ} (h : ∀ y ∈ l, key y ≤ k) : lastLE key l k = l.getLast? := by
  rw [lastLE, List.filter_eq_self.mpr (by simpa using h)]

lemma mem_of_lastLE {k : κ} {e : ε} (h : lastLE key l k = some e) : e ∈ l ∧ key e ≤ k := by
  have he : e ∈ l.filter fun e => key e ≤ k := List.mem_of_getLast? h
  simpa using he

lemma lastLE_append_of_lt {l₁ l₂ : List ε} {k : κ} (h : ∀ y ∈ l₂, k < key y) :
    lastLE key (l₁ ++ l₂) k = lastLE key l₁ k := by
  rw [lastLE_append, lastLE_eq_none_iff.mpr h, Option.none_or]

lemma lastLE_append_cons_of_le {l₁ l₂ : List ε} {x : ε} {k : κ} (hx : key x ≤ k) :
    lastLE key (l₁ ++ x :: l₂) k = lastLE key (x :: l₂) k := by
  cases h : lastLE key (x :: l₂) k with
  | none => exact absurd hx (not_le.mpr (lastLE_eq_none_iff.mp h x List.mem_cons_self))
  | some e => rw [lastLE_append, h, Option.some_or]

lemma lastLE_cons_of_lt {l₂ : List ε} {x : ε} {k : κ} (hx : key x ≤ k) (h : ∀ y ∈ l₂, k < key y) :
    lastLE key (x :: l₂) k = some x := by
  rw [← List.singleton_append, lastLE_append_of_lt h]
  simp [lastLE, hx]

lemma lastLE_map {g : ε → ε} (hg : ∀ e, key (g e) = key e) (l : List ε) (k : κ) :
    lastLE key (l.map g) k = (lastLE key l k).map g := by
  simp only [lastLE, List.filter_map, List.getLast?_map, Function.comp_def, hg]

end LastLE

section Index

/-! Positions in a sorted list: keys increase with the index, and the entries not above a
key are the first ones. -/

variable {l : List ε}

lemma Sorted.key_lt_of_lt (hs : Sorted key l) {i j : ℕ} (hi : i < l.length) (hj : j < l.length)
    (hij : i < j) : key l[i] < key l[j] :=
  List.pairwise_iff_getElem.mp hs i j hi hj hij

lemma Sorted.key_le_of_le (hs : Sorted key l) {i j : ℕ} (hi : i < l.length) (hj : j < l.length)
    (hij : i ≤ j) : key l[i] ≤ key l[j] := by
  rcases hij.lt_or_eq with h | rfl
  · exact (hs.key_lt_of_lt hi hj h).le
  · exact le_rfl

lemma Sorted.lt_of_key_lt (hs : Sorted key l) {i j : ℕ} (hi : i < l.length) (hj : j < l.length)
    (h : key l[i] < key l[j]) : i < j := by
  by_contra hji
  exact absurd h (not_lt.mpr (hs.key_le_of_le hj hi (not_lt.mp hji)))

lemma Sorted.index_eq_of_key_eq (hs : Sorted key l) {i j : ℕ} (hi : i < l.length) (hj : j < l.length)
    (h : key l[i] = key l[j]) : i = j := by
  rcases lt_trichotomy i j with hij | rfl | hij
  · exact absurd h (hs.key_lt_of_lt hi hj hij).ne
  · rfl
  · exact absurd h.symm (hs.key_lt_of_lt hj hi hij).ne

lemma Sorted.lt_length_takeWhile_iff (hs : Sorted key l) {p : κ → Prop} [DecidablePred p]
    (hp : ∀ a b, a < b → p b → p a) {j : ℕ} (hj : j < l.length) :
    j < (l.takeWhile fun e => p (key e)).length ↔ p (key l[j]) := by
  induction l generalizing j with
  | nil => cases hj
  | cons a l ih =>
    rw [Sorted, List.pairwise_cons] at hs
    by_cases ha : p (key a)
    · rw [List.takeWhile_cons_of_pos (by simpa using ha), List.length_cons]
      cases j with
      | zero => simpa using ha
      | succ j =>
        rw [List.getElem_cons_succ, ← ih hs.2 (by simpa using hj)]
        omega
    · rw [List.takeWhile_cons_of_neg (by simpa using ha), List.length_nil]
      cases j with
      | zero => simpa using ha
      | succ j =>
        -- every later key is above the first, which already fails the condition
        have hj' : j < l.length := by simpa using hj
        have hlt : key a < key l[j] := hs.1 _ (List.getElem_mem _)
        simp only [List.getElem_cons_succ, Nat.not_lt_zero, false_iff]
        exact fun hpj => ha (hp _ _ hlt hpj)

lemma Sorted.key_le_iff_lt_length_takeWhile (hs : Sorted key l) {k : κ} {j : ℕ} (hj : j < l.length) :
    key l[j] ≤ k ↔ j < (l.takeWhile fun e => key e ≤ k).length :=
  (hs.lt_length_takeWhile_iff (p := (· ≤ k)) (fun _ _ hab hb => hab.le.trans hb) hj).symm

lemma Sorted.lastLE_getElem (hs : Sorted key l) {i : ℕ} {k : κ} (hi : i < l.length)
    (hk : key l[i] ≤ k) (hnext : ∀ h : i + 1 < l.length, k < key l[i + 1]) :
    lastLE key l k = some l[i] := by
  refine hs.lastLE_eq_of (List.getElem_mem hi) hk fun y hy hyk => ?_
  obtain ⟨j, hj, rfl⟩ := List.getElem_of_mem hy
  rcases le_or_gt j i with hji | hij
  · exact hs.key_le_of_le hj hi hji
  · have hle : key l[i + 1] ≤ key l[j] := hs.key_le_of_le (by omega) hj hij
    exact absurd (hyk.trans_lt ((hnext (by omega)).trans_le hle)) (lt_irrefl _)

end Index

section Folds

variable {l : List ε}

lemma Sorted.foldl_eraseKey (hs : Sorted key l) (ks : List κ) :
    Sorted key (ks.foldl (Keyed.eraseKey key) l) ∧
      ∀ y, y ∈ ks.foldl (Keyed.eraseKey key) l ↔ y ∈ l ∧ key y ∉ ks := by
  induction ks generalizing l with
  | nil => exact ⟨hs, fun y => by simp⟩
  | cons k ks ih =>
    obtain ⟨hs', hmem⟩ := ih (hs.eraseKey k)
    refine ⟨hs', fun y => ?_⟩
    rw [List.foldl_cons, hmem, hs.mem_eraseKey, List.mem_cons, not_or, and_assoc]

lemma Sorted.foldl_insert (hs : Sorted key l) {xs : List ε}
    (hfresh : ∀ x ∈ xs, ∀ y ∈ l, key y ≠ key x) (hnodup : (xs.map key).Nodup) :
    Sorted key (xs.foldl (Keyed.insert key) l) ∧
      ∀ y, y ∈ xs.foldl (Keyed.insert key) l ↔ y ∈ l ∨ y ∈ xs := by
  induction xs generalizing l with
  | nil => exact ⟨hs, fun y => by simp⟩
  | cons x xs ih =>
    rw [List.map_cons, List.nodup_cons] at hnodup
    have hx : ∀ y ∈ l, key y ≠ key x := hfresh x List.mem_cons_self
    -- the later entries are new to the list with `x` in it as well
    have hfresh' : ∀ x' ∈ xs, ∀ y ∈ Keyed.insert key l x, key y ≠ key x' := by
      intro x' hx' y hy
      rcases mem_insert.mp hy with rfl | hy
      · intro h
        exact hnodup.1 (h ▸ List.mem_map_of_mem hx')
      · exact hfresh x' (List.mem_cons_of_mem _ hx') y hy
    obtain ⟨hs', hmem⟩ := ih (hs.insert hx) hfresh' hnodup.2
    refine ⟨hs', fun y => ?_⟩
    rw [List.foldl_cons, hmem, mem_insert, List.mem_cons]
    tauto

end Folds

section Bounds

/-! A sorted list cut at a key: the entries below it and those from it on for `lowerBound`, and
around the last entry at or below it for `lastLessOrEqual`. -/

variable {l : List ε} {k : κ}

lemma drop_lowerBound : l.drop (lowerBound key l k) = l.dropWhile fun e => key e < k := by
  have h : ((l.takeWhile fun e => key e < k) ++ l.dropWhile fun e => key e < k).drop
      (l.takeWhile fun e => key e < k).length = l.dropWhile fun e => key e < k := List.drop_left' rfl
  rwa [List.takeWhile_append_dropWhile] at h

lemma take_lowerBound : l.take (lowerBound key l k) = l.takeWhile fun e => key e < k := by
  have h : ((l.takeWhile fun e => key e < k) ++ l.dropWhile fun e => key e < k).take
      (l.takeWhile fun e => key e < k).length = l.takeWhile fun e => key e < k := List.take_left' rfl
  rwa [List.takeWhile_append_dropWhile] at h

lemma Sorted.mem_drop_lowerBound (hs : Sorted key l) {y : ε} :
    y ∈ l.drop (lowerBound key l k) ↔ y ∈ l ∧ k ≤ key y := by
  rw [drop_lowerBound]
  refine ⟨fun hy => ⟨(List.dropWhile_sublist _).subset hy, hs.le_key_of_mem_dropWhile hy⟩, ?_⟩
  rintro ⟨hy, hky⟩
  rw [← List.takeWhile_append_dropWhile (p := fun e => decide (key e < k)) (l := l)] at hy
  rcases List.mem_append.mp hy with hy | hy
  · have : key y < k := by simpa using List.mem_takeWhile_imp hy
    exact absurd hky (not_le.mpr this)
  · exact hy

lemma mem_take_lowerBound {y : ε} (hs : Sorted key l) :
    y ∈ l.take (lowerBound key l k) ↔ y ∈ l ∧ key y < k := by
  rw [take_lowerBound]
  refine ⟨fun hy => ⟨(List.takeWhile_sublist _).subset hy, by simpa using List.mem_takeWhile_imp hy⟩, ?_⟩
  rintro ⟨hy, hky⟩
  rw [← List.takeWhile_append_dropWhile (p := fun e => decide (key e < k)) (l := l)] at hy
  rcases List.mem_append.mp hy with hy | hy
  · exact hy
  · exact absurd hky (not_lt.mpr (hs.le_key_of_mem_dropWhile hy))

lemma Sorted.lt_lowerBound_iff (hs : Sorted key l) {j : ℕ} (hj : j < l.length) :
    j < lowerBound key l k ↔ key l[j] < k :=
  hs.lt_length_takeWhile_iff (p := (· < k)) (fun _ _ hab hb => hab.trans hb) hj

lemma lowerBound_le_length : lowerBound key l k ≤ l.length :=
  (List.takeWhile_sublist _).length_le

lemma lowerBound_append {l₁ l₂ : List ε} (h₁ : ∀ y ∈ l₁, key y < k) (h₂ : ∀ y ∈ l₂, k ≤ key y) :
    lowerBound key (l₁ ++ l₂) k = l₁.length := by
  have hpos : ∀ y ∈ l₁, decide (key y < k) = true := fun y hy => by simpa using h₁ y hy
  rw [lowerBound, List.takeWhile_append_of_pos hpos, List.length_append]
  cases l₂ with
  | nil => simp
  | cons z l₂ =>
    rw [List.takeWhile_cons_of_neg (by simpa using h₂ z List.mem_cons_self)]
    simp

lemma Sorted.exists_split_lt (hs : Sorted key l) (k : κ) :
    ∃ T R, l = T ++ R ∧ (∀ y ∈ T, key y < k) ∧ ∀ y ∈ R, k ≤ key y :=
  ⟨l.takeWhile fun e => key e < k, l.dropWhile fun e => key e < k,
    List.takeWhile_append_dropWhile.symm, fun y hy => by simpa using List.mem_takeWhile_imp hy,
    fun y hy => hs.le_key_of_mem_dropWhile hy⟩

lemma lastLessOrEqual_append_cons {A C : List ε} {e : ε} (hA : ∀ a ∈ A, key a ≤ k) (he : key e ≤ k)
    (hC : ∀ x ∈ C, k < key x) : lastLessOrEqual key (A ++ e :: C) k = A.length := by
  have hpos : ∀ a ∈ A, decide (key a ≤ k) = true := fun a ha => by simpa using hA a ha
  have htake : (C.takeWhile fun x => key x ≤ k) = [] := by
    cases C with
    | nil => rfl
    | cons x C => exact List.takeWhile_cons_of_neg (by simpa using hC x List.mem_cons_self)
  rw [lastLessOrEqual, List.takeWhile_append_of_pos hpos,
    List.takeWhile_cons_of_pos (by simpa using he), htake]
  simp

lemma Sorted.exists_split_le (hs : Sorted key l) {y : ε} (hy : y ∈ l) (hyk : key y ≤ k) :
    ∃ A e C, l = A ++ e :: C ∧ key e ≤ k ∧ ∀ x ∈ C, k < key x := by
  have hsplit := List.takeWhile_append_dropWhile (p := fun e => decide (key e ≤ k)) (l := l)
  -- the entries at or below `k` are a nonempty prefix, and `e` is its last
  have hne : (l.takeWhile fun e => key e ≤ k) ≠ [] := by
    intro h
    rw [h, List.nil_append] at hsplit
    rw [← hsplit] at hy
    exact absurd hyk (not_le.mpr (hs.key_lt_of_mem_dropWhile hy))
  obtain ⟨A, e, hAe⟩ := (List.eq_nil_or_concat _).resolve_left hne
  rw [List.concat_eq_append] at hAe
  refine ⟨A, e, l.dropWhile fun e => key e ≤ k, ?_, ?_, fun x hx => hs.key_lt_of_mem_dropWhile hx⟩
  · calc l = (l.takeWhile fun e => key e ≤ k) ++ l.dropWhile fun e => key e ≤ k := hsplit.symm
      _ = A ++ e :: l.dropWhile fun e => key e ≤ k := by
        rw [hAe, List.append_assoc, List.singleton_append]
  · have he : e ∈ l.takeWhile fun e => key e ≤ k := by rw [hAe]; simp
    simpa using List.mem_takeWhile_imp he

end Bounds

end Keyed
