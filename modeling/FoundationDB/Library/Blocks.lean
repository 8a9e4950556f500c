import Mathlib.Data.List.Basic
import Mathlib.Tactic.Ring

/-! A stream written in blocks of a fixed size and read back piece by piece: from offset 0 in
steps of the block size, each piece a whole block or what is left of the stream. When the
stream is a run of full blocks and a last one that is not empty, the pieces are the blocks. -/

namespace Blocks

variable {α : Type}

/-- The offset and the length of each piece of a stream of `size` elements. -/
def reads (blockSize size : ℕ) : List (ℕ × ℕ) :=
  (List.range ((size + blockSize - 1) / blockSize)).map fun j =>
    (j * blockSize, min blockSize (size - j * blockSize))

/-- The blocks of a stream: all of `blockSize` elements but the last, which is not empty and
not longer. -/
def Full (blockSize : ℕ) : List (List α) → Prop
  | [] => True
  | [B] => 0 < B.length ∧ B.length ≤ blockSize
  | B :: B' :: rest => B.length = blockSize ∧ Full blockSize (B' :: rest)

lemma full_append_singleton {n : ℕ} :
    ∀ (l : List (List α)) (B : List α), (∀ X ∈ l, X.length = n) → 0 < B.length →
      B.length ≤ n → Full n (l ++ [B])
  | [], _, _, h0, hle => ⟨h0, hle⟩
  | [X], _, hl, h0, hle => ⟨hl X (List.mem_singleton_self X), h0, hle⟩
  | X :: Y :: l, B, hl, h0, hle =>
    ⟨hl X List.mem_cons_self,
      full_append_singleton (Y :: l) B (fun Z hZ => hl Z (List.mem_cons_of_mem X hZ)) h0 hle⟩

lemma length_flatten_of_forall {n : ℕ} :
    ∀ l : List (List α), (∀ X ∈ l, X.length = n) → l.flatten.length = l.length * n
  | [], _ => by simp
  | X :: l, hl => by
    rw [List.flatten_cons, List.length_append, hl X List.mem_cons_self,
      length_flatten_of_forall l fun Y hY => hl Y (List.mem_cons_of_mem X hY), List.length_cons,
      Nat.succ_mul, Nat.add_comm]

lemma reads_zero (blockSize : ℕ) : reads blockSize 0 = [] := by
  rcases Nat.eq_zero_or_pos blockSize with rfl | hbs
  · rfl
  · simp [reads, Nat.div_eq_of_lt (Nat.sub_lt hbs Nat.one_pos)]

lemma reads_of_le {blockSize size : ℕ} (h0 : 0 < size) (h : size ≤ blockSize) :
    reads blockSize size = [(0, size)] := by
  have hn : (size + blockSize - 1) / blockSize = 1 :=
    Nat.div_eq_of_lt_le (by omega) (by omega)
  simp [reads, hn, h]

lemma reads_add {blockSize : ℕ} (hbs : 0 < blockSize) (size : ℕ) :
    reads blockSize (blockSize + size) =
      (0, blockSize) :: (reads blockSize size).map fun r => (r.1 + blockSize, r.2) := by
  have hn : (blockSize + size + blockSize - 1) / blockSize =
      (size + blockSize - 1) / blockSize + 1 := by
    rw [show blockSize + size + blockSize - 1 = size + blockSize - 1 + blockSize by omega,
      Nat.add_div_right _ hbs]
  simp only [reads, hn, List.range_succ_eq_map, List.map_cons, List.map_map]
  congr 1
  · simp
  · refine List.map_congr_left fun j _ => ?_
    simp only [Function.comp, Prod.mk.injEq]
    constructor
    · rw [Nat.succ_mul, Nat.add_comm, Nat.mul_comm]
    · congr 1
      rw [Nat.succ_mul]
      omega

/-- The pieces of a stream of blocks are its blocks, each read to its full length. -/
theorem reads_flatten {blockSize : ℕ} (hbs : 0 < blockSize) :
    ∀ blocks : List (List α), Full blockSize blocks →
      (reads blockSize blocks.flatten.length).map
        (fun r => ((blocks.flatten.drop r.1).take r.2, r.2)) = blocks.map fun B => (B, B.length)
  | [], _ => by simp [reads_zero]
  | [B], ⟨h0, hle⟩ => by simp [reads_of_le h0 hle]
  | B :: B' :: rest, ⟨hB, hfull⟩ => by
    have ih := reads_flatten hbs (B' :: rest) hfull
    rw [List.flatten_cons, List.length_append, hB, reads_add hbs, List.map_cons, List.map_map,
      List.map_cons]
    congr 1
    · simp [← hB]
    · rw [← ih]
      refine List.map_congr_left fun r _ => ?_
      simp only [Function.comp, ← hB, Nat.add_comm r.1, ← List.drop_drop, List.drop_left]

lemma cons_map_eq_map_append_of_isChain {β γ : Type} (first last : β → γ) {a z : γ} :
    ∀ l : List β, l.IsChain (fun x y => last x = first y) → l.head?.map first = some a →
      l.getLast?.map last = some z → a :: l.map last = l.map first ++ [z]
  | [], _, ha, _ => by simp at ha
  | [x], _, ha, hz => by
    simp only [List.head?_cons, List.getLast?_singleton, Option.map_some,
      Option.some.injEq] at ha hz
    simp [ha, hz]
  | x :: y :: l, h, ha, hz => by
    rw [List.isChain_cons_cons] at h
    simp only [List.head?_cons, Option.map_some, Option.some.injEq] at ha
    have ih := cons_map_eq_map_append_of_isChain first last (y :: l) h.2 rfl
      (by simpa using hz)
    rw [List.map_cons, h.1, ih, ← ha]
    rfl

section Tiles

/-! Ranges that tile the stretch from `a` to `z`, each beginning no later than it ends: they lie
in order inside the stretch, and every point of the stretch lies in one of them. -/

variable {β γ : Type} {first last : β → γ}

lemma tiles_cons_iff {a z : γ} {x : β} {l : List β} :
    a :: (x :: l).map last = (x :: l).map first ++ [z] ↔
      a = first x ∧ last x :: l.map last = l.map first ++ [z] := by
  simp only [List.map_cons, List.cons_append, List.cons.injEq]

variable [Preorder γ]

lemma le_of_tiles : ∀ {a z : γ} (l : List β), a :: l.map last = l.map first ++ [z] →
    (∀ x ∈ l, first x ≤ last x) → a ≤ z
  | _, _, [], h, _ => by simp at h; exact h.le
  | _, _, x :: l, h, hle => by
    obtain ⟨rfl, ht⟩ := tiles_cons_iff.mp h
    exact (hle x List.mem_cons_self).trans
      (le_of_tiles l ht fun y hy => hle y (List.mem_cons_of_mem x hy))

lemma bounds_of_tiles : ∀ {a z : γ} (l : List β), a :: l.map last = l.map first ++ [z] →
    (∀ x ∈ l, first x ≤ last x) → ∀ y ∈ l, a ≤ first y ∧ last y ≤ z
  | _, _, [], _, _, _, hy => absurd hy List.not_mem_nil
  | _, _, x :: l, h, hle, y, hy => by
    obtain ⟨rfl, ht⟩ := tiles_cons_iff.mp h
    have hle' : ∀ y ∈ l, first y ≤ last y := fun y hy => hle y (List.mem_cons_of_mem x hy)
    rcases List.mem_cons.mp hy with rfl | hy
    · exact ⟨le_rfl, le_of_tiles l ht hle'⟩
    · have hb := bounds_of_tiles l ht hle' y hy
      exact ⟨(hle x List.mem_cons_self).trans hb.1, hb.2⟩

lemma pairwise_of_tiles : ∀ {a z : γ} (l : List β), a :: l.map last = l.map first ++ [z] →
    (∀ x ∈ l, first x ≤ last x) → l.Pairwise fun x y => last x ≤ first y
  | _, _, [], _, _ => List.Pairwise.nil
  | _, _, x :: l, h, hle => by
    obtain ⟨rfl, ht⟩ := tiles_cons_iff.mp h
    have hle' : ∀ y ∈ l, first y ≤ last y := fun y hy => hle y (List.mem_cons_of_mem x hy)
    exact List.Pairwise.cons (fun y hy => (bounds_of_tiles l ht hle' y hy).1)
      (pairwise_of_tiles l ht hle')

lemma exists_mem_of_tiles {γ : Type} [LinearOrder γ] {first last : β → γ} :
    ∀ {a z : γ} (l : List β), a :: l.map last = l.map first ++ [z] →
      ∀ k, a ≤ k → k < z → ∃ x ∈ l, first x ≤ k ∧ k < last x
  | _, _, [], h, _, hk, hk' => by
    simp only [List.map_nil, List.nil_append, List.cons.injEq, and_true] at h
    exact absurd (hk.trans_lt hk') (h ▸ lt_irrefl _)
  | _, _, x :: l, h, k, hk, hk' => by
    obtain ⟨rfl, ht⟩ := tiles_cons_iff.mp h
    by_cases hkx : k < last x
    · exact ⟨x, List.mem_cons_self, hk, hkx⟩
    · obtain ⟨y, hy, hyk⟩ := exists_mem_of_tiles l ht k (not_lt.mp hkx) hk'
      exact ⟨y, List.mem_cons_of_mem x hy, hyk⟩

lemma exists_mem_of_tiles_of_lt_of_le {γ : Type} [LinearOrder γ] {first last : β → γ} :
    ∀ {a z : γ} (l : List β), a :: l.map last = l.map first ++ [z] →
      ∀ k, a < k → k ≤ z → ∃ x ∈ l, first x < k ∧ k ≤ last x
  | _, _, [], h, _, hk, hk' => by
    simp only [List.map_nil, List.nil_append, List.cons.injEq, and_true] at h
    exact absurd (hk.trans_le hk') (h ▸ lt_irrefl _)
  | _, _, x :: l, h, k, hk, hk' => by
    obtain ⟨rfl, ht⟩ := tiles_cons_iff.mp h
    by_cases hkx : k ≤ last x
    · exact ⟨x, List.mem_cons_self, hk, hkx⟩
    · obtain ⟨y, hy, hyk⟩ := exists_mem_of_tiles_of_lt_of_le l ht k (not_le.mp hkx) hk'
      exact ⟨y, List.mem_cons_of_mem x hy, hyk⟩

end Tiles

lemma mapM_eq_pure_map {m : Type → Type} [Monad m] [LawfulMonad m] {β γ : Type}
    {f : β → m γ} {g : β → γ} : ∀ l : List β, (∀ x ∈ l, f x = pure (g x)) →
      l.mapM f = pure (l.map g)
  | [], _ => by simp
  | x :: l, h => by
    rw [List.mapM_cons, h x List.mem_cons_self,
      mapM_eq_pure_map l fun y hy => h y (List.mem_cons_of_mem x hy)]
    simp

/-- Reading a stream of blocks piece by piece, with a reader that sees only the bytes of its
piece, is reading it block by block. -/
theorem mapM_reads_flatten {m : Type → Type} [Monad m] [LawfulMonad m] {β : Type}
    {blockSize : ℕ} (hbs : 0 < blockSize) (blocks : List (List α)) (hfull : Full blockSize blocks)
    (read : List α → ℕ → ℕ → m β)
    (hread : ∀ s offset len, read s offset len = read ((s.drop offset).take len) 0 len) :
    (reads blockSize blocks.flatten.length).mapM (fun r => read blocks.flatten r.1 r.2) =
      blocks.mapM fun B => read B 0 B.length := by
  have hpiece : (fun r : ℕ × ℕ => read blocks.flatten r.1 r.2) =
      (fun p : List α × ℕ => read p.1 0 p.2) ∘
        fun r => ((blocks.flatten.drop r.1).take r.2, r.2) := by
    funext r
    exact hread _ _ _
  rw [hpiece, ← List.mapM_map, reads_flatten hbs blocks hfull, List.mapM_map]
  rfl

end Blocks
