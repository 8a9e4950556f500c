import Mathlib.Data.Fin.Basic
import Mathlib.Algebra.Order.Group.Unbundled.Int
import Mathlib.Tactic.Ring
import Mathlib.Tactic.Linarith

/-! Fixed-width little-endian numbers in base 256, as a host with that byte order copies them
out of memory: the `n` bytes of a natural number, least significant first, and the value of
a byte string; a signed number is written as its residue and read back by its balanced
residue. -/

namespace LittleEndian

def toBytes : ℕ → ℕ → List (Fin 256)
  | 0, _ => []
  | n + 1, x => ⟨x % 256, Nat.mod_lt _ (by decide)⟩ :: toBytes n (x / 256)

def ofBytes : List (Fin 256) → ℕ
  | [] => 0
  | b :: bs => b.val + 256 * ofBytes bs

/-- The `n` bytes of a signed number: those of its residue modulo `256 ^ n`. -/
def ofInt (n : ℕ) (x : ℤ) : List (Fin 256) := toBytes n (x % (256 ^ n : ℕ)).toNat

/-- A byte string read as a signed number, two's complement. -/
def toInt (l : List (Fin 256)) : ℤ := Int.bmod (ofBytes l) (256 ^ l.length)

@[simp] lemma length_toBytes (n x : ℕ) : (toBytes n x).length = n := by
  induction n generalizing x with
  | zero => rfl
  | succ n ih => simp [toBytes, ih]

@[simp] lemma length_ofInt (n : ℕ) (x : ℤ) : (ofInt n x).length = n :=
  length_toBytes _ _

@[simp] lemma toBytes_zero (x : ℕ) : toBytes 0 x = [] := rfl

@[simp] lemma ofBytes_nil : ofBytes [] = 0 := rfl

lemma ofBytes_toBytes (n x : ℕ) : ofBytes (toBytes n x) = x % 256 ^ n := by
  induction n generalizing x with
  | zero => simp [Nat.mod_one]
  | succ n ih =>
    simp only [toBytes, ofBytes, ih, pow_succ']
    rw [Nat.mod_mul]

lemma toBytes_mod (n x : ℕ) : toBytes n (x % 256 ^ n) = toBytes n x := by
  induction n generalizing x with
  | zero => rfl
  | succ n ih =>
    rw [pow_succ', toBytes, toBytes, Nat.mod_mul_right_div_self, ih]
    exact congrArg (· :: _) (Fin.ext (Nat.mod_mul_right_mod x 256 _))

lemma toBytes_ofBytes (l : List (Fin 256)) : toBytes l.length (ofBytes l) = l := by
  induction l with
  | nil => rfl
  | cons b bs ih =>
    have hb : b.val < 256 := b.isLt
    have hmod : (b.val + 256 * ofBytes bs) % 256 = b.val := by omega
    have hdiv : (b.val + 256 * ofBytes bs) / 256 = ofBytes bs := by omega
    rw [List.length_cons, toBytes, ofBytes, hdiv, ih]
    exact congrArg (· :: bs) (Fin.ext hmod)

lemma ofBytes_lt (l : List (Fin 256)) : ofBytes l < 256 ^ l.length := by
  induction l with
  | nil => simp
  | cons b bs ih =>
    have hb : b.val < 256 := b.isLt
    simp only [ofBytes, List.length_cons, pow_succ']
    omega

-- stated on the bytes' values: a byte literal `0` takes its instance from the module it is in
lemma ofBytes_eq_zero_iff {l : List (Fin 256)} : ofBytes l = 0 ↔ ∀ b ∈ l, b.val = 0 := by
  induction l with
  | nil => simp
  | cons b bs ih =>
    rw [ofBytes, List.forall_mem_cons, ← ih]
    omega

lemma ofBytes_append (l₁ l₂ : List (Fin 256)) :
    ofBytes (l₁ ++ l₂) = ofBytes l₁ + 256 ^ l₁.length * ofBytes l₂ := by
  induction l₁ with
  | nil => simp
  | cons b bs ih =>
    simp only [List.cons_append, ofBytes, ih, List.length_cons, pow_succ']
    ring

lemma toInt_ofInt {n : ℕ} {x : ℤ} (hlo : -((256 ^ n : ℕ) : ℤ) ≤ 2 * x)
    (hhi : 2 * x < (256 ^ n : ℕ)) : toInt (ofInt n x) = x := by
  have hpos : (0 : ℤ) < (256 ^ n : ℕ) := by positivity
  have hmod : ((x % (256 ^ n : ℕ)).toNat : ℤ) = x % (256 ^ n : ℕ) :=
    Int.toNat_of_nonneg (Int.emod_nonneg _ hpos.ne')
  have hlt : (x % (256 ^ n : ℕ)).toNat < 256 ^ n := by
    have := Int.emod_lt_of_pos x hpos
    omega
  simp only [toInt, ofInt, length_toBytes, ofBytes_toBytes, Nat.mod_eq_of_lt hlt, hmod,
    Int.emod_bmod]
  exact Int.bmod_eq_of_le (by omega) (by omega)

lemma ofBytes_ofInt_natCast {n x : ℕ} (h : x < 256 ^ n) : ofBytes (ofInt n x) = x := by
  have hmod : ((x : ℤ) % (256 ^ n : ℕ)).toNat = x := by
    rw [Int.emod_eq_of_lt (Int.natCast_nonneg x) (by exact_mod_cast h), Int.toNat_natCast]
  rw [ofInt, hmod, ofBytes_toBytes, Nat.mod_eq_of_lt h]

end LittleEndian
