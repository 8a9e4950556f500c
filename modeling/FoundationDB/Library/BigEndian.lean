import Mathlib.Data.List.Lex
import Mathlib.Data.List.TakeWhile
import Mathlib.Data.Fin.Basic
import Mathlib.Order.Fin.Basic
import Mathlib.Tactic.Ring
import Mathlib.Tactic.Linarith

/-! Fixed-width big-endian numbers in base 256: the `n` bytes of a natural number, most
significant first, and the value of a byte string. Byte strings of one length compare as
their values do; dropping leading padding bytes keeps that order among strings with as
many padding bytes, and the number of padding bytes orders the others. -/

namespace BigEndian

def toBytes : ℕ → ℕ → List (Fin 256)
  | 0, _ => []
  | n + 1, x => ⟨x / 256 ^ n % 256, Nat.mod_lt _ (by decide)⟩ :: toBytes n x

def ofBytes : List (Fin 256) → ℕ
  | [] => 0
  | b :: bs => b.val * 256 ^ bs.length + ofBytes bs

@[simp] lemma length_toBytes (n x : ℕ) : (toBytes n x).length = n := by
  induction n with
  | zero => rfl
  | succ n ih => simp [toBytes, ih]

lemma ofBytes_lt (l : List (Fin 256)) : ofBytes l < 256 ^ l.length := by
  induction l with
  | nil => simp [ofBytes]
  | cons b bs ih =>
    have hb : b.val ≤ 255 := Nat.lt_succ_iff.mp b.isLt
    calc ofBytes (b :: bs) = b.val * 256 ^ bs.length + ofBytes bs := rfl
      _ < 255 * 256 ^ bs.length + 256 ^ bs.length :=
        Nat.add_lt_add_of_le_of_lt (Nat.mul_le_mul_right _ hb) ih
      _ = 256 ^ (b :: bs).length := by rw [List.length_cons, pow_succ]; ring

lemma ofBytes_toBytes (n x : ℕ) : ofBytes (toBytes n x) = x % 256 ^ n := by
  induction n with
  | zero => simp [toBytes, ofBytes, Nat.mod_one]
  | succ n ih =>
    simp only [toBytes, ofBytes, length_toBytes, ih]
    rw [Nat.mod_pow_succ]
    ring

lemma ofBytes_append_singleton (l : List (Fin 256)) (b : Fin 256) :
    ofBytes (l ++ [b]) = ofBytes l * 256 + b.val := by
  induction l with
  | nil => simp [ofBytes]
  | cons a as ih =>
    simp only [List.cons_append, ofBytes, List.length_append, List.length_singleton, ih, pow_succ]
    ring

lemma lt_iff_ofBytes_lt {l₁ l₂ : List (Fin 256)} (h : l₁.length = l₂.length) :
    l₁ < l₂ ↔ ofBytes l₁ < ofBytes l₂ := by
  induction l₁ generalizing l₂ with
  | nil =>
    obtain rfl : l₂ = [] := List.eq_nil_of_length_eq_zero h.symm
    simp [ofBytes]
  | cons a as ih =>
    cases l₂ with
    | nil => exact absurd h (by simp)
    | cons b bs =>
      have hlen : as.length = bs.length := by simpa using h
      have has : ofBytes as < 256 ^ bs.length := hlen ▸ ofBytes_lt as
      have hbs := ofBytes_lt bs
      simp only [List.cons_lt_cons_iff, ofBytes, ih hlen, hlen]
      -- the first bytes decide unless they are equal, the rest weighs less than one of them
      constructor
      · rintro (hab | ⟨rfl, hlt⟩)
        · have hab' : a.val + 1 ≤ b.val := hab
          nlinarith
        · exact Nat.add_lt_add_left hlt _
      · intro hlt
        rcases lt_trichotomy a b with hab | rfl | hab
        · exact .inl hab
        · exact .inr ⟨rfl, Nat.lt_of_add_lt_add_left hlt⟩
        · have hab' : b.val + 1 ≤ a.val := hab
          nlinarith

lemma toBytes_lt_toBytes {n x y : ℕ} (hx : x < 256 ^ n) (hy : y < 256 ^ n) :
    toBytes n x < toBytes n y ↔ x < y := by
  rw [lt_iff_ofBytes_lt (by simp), ofBytes_toBytes, ofBytes_toBytes, Nat.mod_eq_of_lt hx,
    Nat.mod_eq_of_lt hy]

end BigEndian

namespace List

variable {α : Type} [LinearOrder α]

lemma append_lt_append_of_length_eq {l₁ l₂ : List α} (r₁ r₂ : List α)
    (h : l₁.length = l₂.length) (hlt : l₁ < l₂) : l₁ ++ r₁ < l₂ ++ r₂ := by
  induction l₁ generalizing l₂ with
  | nil =>
    obtain rfl : l₂ = [] := List.eq_nil_of_length_eq_zero h.symm
    exact absurd hlt (List.lt_irrefl _)
  | cons a as ih =>
    cases l₂ with
    | nil => exact absurd hlt (List.not_lt_nil _)
    | cons b bs =>
      have hlen : as.length = bs.length := by simpa using h
      rcases List.cons_lt_cons_iff.mp hlt with hab | ⟨rfl, hlt'⟩
      · exact List.cons_lt_cons_iff.mpr (.inl hab)
      · exact List.cons_lt_cons_iff.mpr (.inr ⟨rfl, ih hlen hlt'⟩)

lemma append_le_append_of_length_eq {l₁ l₂ : List α} (r : List α)
    (h : l₁.length = l₂.length) (hle : l₁ ≤ l₂) : l₁ ++ r ≤ l₂ ++ r := by
  rcases hle.lt_or_eq with hlt | rfl
  · exact (append_lt_append_of_length_eq r r h hlt).le
  · exact le_rfl

lemma append_lt_append_left_iff (p : List α) {l₁ l₂ : List α} : p ++ l₁ < p ++ l₂ ↔ l₁ < l₂ := by
  induction p with
  | nil => rfl
  | cons a p ih => simp only [List.cons_append, List.cons_lt_cons_iff, lt_irrefl, true_and,
      false_or, ih]

lemma append_le_append_left_iff (p : List α) {l₁ l₂ : List α} : p ++ l₁ ≤ p ++ l₂ ↔ l₁ ≤ l₂ := by
  rw [← not_lt, ← not_lt, append_lt_append_left_iff]

lemma self_le_append (l x : List α) : l ≤ l ++ x := by
  induction l with
  | nil =>
    cases x with
    | nil => exact le_rfl
    | cons a x => exact le_of_lt (List.Lex.nil : List.Lex (· < ·) [] (a :: x))
  | cons a l ih => exact (append_le_append_left_iff [a]).mpr ih

lemma append_le_append_left (l₁ : List α) {l₂ l₃ : List α} (hle : l₂ ≤ l₃) :
    l₁ ++ l₂ ≤ l₁ ++ l₃ := by
  rcases hle.lt_or_eq with hlt | rfl
  · exact (List.append_left_lt hlt).le
  · exact le_rfl

lemma dropWhile_bot_lt [OrderBot α] {l₁ l₂ : List α} (h : l₁.length = l₂.length) (hlt : l₁ < l₂) :
    (l₁.dropWhile (· = ⊥)).length < (l₂.dropWhile (· = ⊥)).length ∨
      ((l₁.dropWhile (· = ⊥)).length = (l₂.dropWhile (· = ⊥)).length ∧
        l₁.dropWhile (· = ⊥) < l₂.dropWhile (· = ⊥)) := by
  induction l₁ generalizing l₂ with
  | nil =>
    obtain rfl : l₂ = [] := List.eq_nil_of_length_eq_zero h.symm
    exact absurd hlt (List.not_lt_nil _)
  | cons a as ih =>
    cases l₂ with
    | nil => exact absurd hlt (List.not_lt_nil _)
    | cons b bs =>
      have hlen : as.length = bs.length := by simpa using h
      rcases List.cons_lt_cons_iff.mp hlt with hab | ⟨rfl, hlt'⟩
      · have hb : b ≠ ⊥ := ne_bot_of_gt hab
        by_cases ha : a = ⊥
        · left
          simp only [List.dropWhile_cons, ha, hb, decide_true, decide_false, Bool.false_eq_true,
            ↓reduceIte, List.length_cons]
          have := (List.dropWhile_sublist (l := as) (· = ⊥)).length_le
          omega
        · right
          simp only [List.dropWhile_cons, ha, hb, decide_false, Bool.false_eq_true, ↓reduceIte,
            List.length_cons, hlen]
          exact ⟨trivial, hlt⟩
      · by_cases ha : a = ⊥
        · simp only [List.dropWhile_cons, ha, decide_true, ↓reduceIte]
          exact ih hlen hlt'
        · right
          simp only [List.dropWhile_cons, ha, decide_false, Bool.false_eq_true, ↓reduceIte,
            List.length_cons, hlen]
          exact ⟨trivial, hlt⟩

lemma dropWhile_top_lt [OrderTop α] {l₁ l₂ : List α} (h : l₁.length = l₂.length) (hlt : l₁ < l₂) :
    (l₂.dropWhile (· = ⊤)).length < (l₁.dropWhile (· = ⊤)).length ∨
      ((l₁.dropWhile (· = ⊤)).length = (l₂.dropWhile (· = ⊤)).length ∧
        l₁.dropWhile (· = ⊤) < l₂.dropWhile (· = ⊤)) := by
  induction l₁ generalizing l₂ with
  | nil =>
    obtain rfl : l₂ = [] := List.eq_nil_of_length_eq_zero h.symm
    exact absurd hlt (List.not_lt_nil _)
  | cons a as ih =>
    cases l₂ with
    | nil => exact absurd hlt (List.not_lt_nil _)
    | cons b bs =>
      have hlen : as.length = bs.length := by simpa using h
      rcases List.cons_lt_cons_iff.mp hlt with hab | ⟨rfl, hlt'⟩
      · have ha : a ≠ ⊤ := ne_top_of_lt hab
        by_cases hb : b = ⊤
        · left
          simp only [List.dropWhile_cons, ha, hb, decide_true, decide_false, Bool.false_eq_true,
            ↓reduceIte, List.length_cons]
          have := (List.dropWhile_sublist (l := bs) (· = ⊤)).length_le
          omega
        · right
          simp only [List.dropWhile_cons, ha, hb, decide_false, Bool.false_eq_true, ↓reduceIte,
            List.length_cons, hlen]
          exact ⟨trivial, hlt⟩
      · by_cases ha : a = ⊤
        · simp only [List.dropWhile_cons, ha, decide_true, ↓reduceIte]
          exact ih hlen hlt'
        · right
          simp only [List.dropWhile_cons, ha, decide_false, Bool.false_eq_true, ↓reduceIte,
            List.length_cons, hlen]
          exact ⟨trivial, hlt⟩

lemma replicate_append_dropWhile_eq (l : List α) (a : α) :
    List.replicate (l.length - (l.dropWhile (· = a)).length) a ++ l.dropWhile (· = a) = l := by
  have hsplit := List.takeWhile_append_dropWhile (p := fun x => decide (x = a)) (l := l)
  have hlen : (l.takeWhile (· = a)).length = l.length - (l.dropWhile (· = a)).length := by
    have := congrArg List.length hsplit
    rw [List.length_append] at this
    omega
  have hrep : l.takeWhile (· = a) = List.replicate (l.length - (l.dropWhile (· = a)).length) a := by
    rw [List.eq_replicate_iff]
    refine ⟨hlen, fun b hb => ?_⟩
    simpa using List.mem_takeWhile_imp hb
  rw [← hrep]
  exact hsplit

end List
