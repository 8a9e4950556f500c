import Mathlib

/-! A ring buffer with its array read as a function from slot numbers. It holds `count`
elements in an array of capacity `cap`, the `i`-th in slot `(head + i) % cap`. This module
covers:
* what a write to the next free slot does to the elements held;
* what a move of the head by one slot or by whole turns does;
* `std::copy` between such arrays;
* the slot a 32-bit counter gives when it is masked by `cap - 1` and `cap` is a power of two. -/

namespace RingBuffer

variable {α : Type}

/-- The elements a ring holds: `count` of them, from slot `head` on. -/
def view (a : ℕ → α) (cap head count : ℕ) : List α :=
  (List.range count).map fun i => a ((head + i) % cap)

@[simp] lemma length_view (a : ℕ → α) (cap head count : ℕ) :
    (view a cap head count).length = count := by
  simp [view]

@[simp] lemma view_zero (a : ℕ → α) (cap head : ℕ) : view a cap head 0 = [] := rfl

lemma view_succ (a : ℕ → α) (cap head count : ℕ) :
    view a cap head (count + 1) = view a cap head count ++ [a ((head + count) % cap)] := by
  simp [view, List.range_succ]

lemma view_succ_head (a : ℕ → α) (cap head count : ℕ) :
    view a cap head (count + 1) = a (head % cap) :: view a cap (head + 1) count := by
  simp only [view, List.range_succ_eq_map, List.map_cons, List.map_map, Nat.add_zero]
  congr 1
  refine List.map_congr_left fun i _ => ?_
  simp only [Function.comp, Nat.succ_eq_add_one, Nat.add_assoc, Nat.add_comm 1]

lemma view_congr {a b : ℕ → α} {cap head count : ℕ}
    (h : ∀ i < count, a ((head + i) % cap) = b ((head + i) % cap)) :
    view a cap head count = view b cap head count :=
  List.map_congr_left fun i hi => h i (List.mem_range.mp hi)

lemma view_add_cap (a : ℕ → α) (cap head count : ℕ) :
    view a cap (head + cap) count = view a cap head count := by
  refine List.map_congr_left fun i _ => ?_
  rw [Nat.add_right_comm, Nat.add_mod_right]

lemma mod_ne_of_lt {cap head i j : ℕ} (hij : i < j) (hj : j < cap) :
    (head + i) % cap ≠ (head + j) % cap := by
  intro h
  have h' : i % cap = j % cap := Nat.ModEq.add_left_cancel' head h
  rw [Nat.mod_eq_of_lt (by omega), Nat.mod_eq_of_lt hj] at h'
  omega

lemma view_update_of_ne {a : ℕ → α} {cap head count s : ℕ} (v : α)
    (h : ∀ i < count, (head + i) % cap ≠ s) :
    view (Function.update a s v) cap head count = view a cap head count :=
  view_congr fun i hi => Function.update_of_ne (h i hi) v a

lemma view_update_push (a : ℕ → α) {cap head count : ℕ} (hcount : count < cap) (v : α) :
    view (Function.update a ((head + count) % cap) v) cap head (count + 1) =
      view a cap head count ++ [v] := by
  rw [view_succ, Function.update_self,
    view_update_of_ne v fun i hi => mod_ne_of_lt hi hcount]

section Copy

/-- `std::copy(src + first, src + last, dst + out)`: slots `first` to `last` of `src` go to
slots `out` on of `dst`. The second component is the end of what was written. -/
def copy (src : ℕ → α) (first last : ℕ) (dst : ℕ → α) (out : ℕ) : (ℕ → α) × ℕ :=
  ((List.range (last - first)).foldl
    (fun d j => Function.update d (out + j) (src (first + j))) dst, out + (last - first))

lemma foldl_copy_apply (src : ℕ → α) (first out : ℕ) :
    ∀ (l : List ℕ) (dst : ℕ → α) (n : ℕ),
      l.foldl (fun d j => Function.update d (out + j) (src (first + j))) dst n =
        if out ≤ n ∧ n - out ∈ l then src (first + (n - out)) else dst n
  | [], dst, n => by simp
  | j :: l, dst, n => by
    rw [List.foldl_cons, foldl_copy_apply src first out l]
    by_cases hl : out ≤ n ∧ n - out ∈ l
    · rw [if_pos hl, if_pos ⟨hl.1, List.mem_cons_of_mem j hl.2⟩]
    · rw [if_neg hl]
      by_cases hn : n = out + j
      · -- the slot written by this step
        subst hn
        rw [Function.update_self, if_pos ⟨Nat.le_add_right _ _, by simp⟩, Nat.add_sub_cancel_left]
      · rw [Function.update_of_ne hn]
        have hj : ¬ (out ≤ n ∧ n - out ∈ j :: l) := by
          rintro ⟨hle, hmem⟩
          rcases List.mem_cons.mp hmem with h | h
          · omega
          · exact hl ⟨hle, h⟩
        rw [if_neg hj]

@[simp] lemma copy_snd (src : ℕ → α) (first last : ℕ) (dst : ℕ → α) (out : ℕ) :
    (copy src first last dst out).2 = out + (last - first) := rfl

lemma copy_apply_of_lt (src : ℕ → α) {first last : ℕ} (dst : ℕ → α) (out : ℕ) {j : ℕ}
    (hj : j < last - first) : (copy src first last dst out).1 (out + j) = src (first + j) := by
  dsimp only [copy]
  rw [foldl_copy_apply, if_pos ⟨Nat.le_add_right _ _, by simpa using hj⟩, Nat.add_sub_cancel_left]

lemma copy_apply_of_not_mem (src : ℕ → α) {first last : ℕ} (dst : ℕ → α) {out n : ℕ}
    (hn : n < out ∨ out + (last - first) ≤ n) : (copy src first last dst out).1 n = dst n := by
  dsimp only [copy]
  rw [foldl_copy_apply, if_neg]
  rintro ⟨hle, hmem⟩
  rw [List.mem_range] at hmem
  omega

lemma copy_fst_const (x : α) (first last out : ℕ) :
    (copy (fun _ => x) first last (fun _ => x) out).1 = fun _ => x := by
  funext n
  exact (foldl_copy_apply (fun _ => x) first out _ _ n).trans (ite_self _)

end Copy

end RingBuffer

namespace UInt32

lemma toNat_and_eq_mod (x : UInt32) {m : UInt32} {k : ℕ} (hm : m.toNat + 1 = 2 ^ k) :
    (x &&& m).toNat = x.toNat % 2 ^ k := by
  rw [UInt32.toNat_and, show m.toNat = 2 ^ k - 1 by omega, Nat.and_two_pow_sub_one_eq_mod]

end UInt32
