import FoundationDB.Client.CommitTransaction
import FoundationDB.Library.CountingSort

/-! The points of a conflict batch and their sort (`KeyInfo`, `operator<` and `sortPoints` in
`SkipList.cpp`). Each conflict range gives two points, its begin and its end. `operator<`
orders them by key, shorter keys first, and at one key by `extra_ordering`: read ends, write
ends, write begins, read begins. `sortPoints` is an MSD radix sort over the characters
`getCharacter` reads, with an explicit stack of tasks and `std::sort` for the small ones. -/

namespace FoundationDB.Resolver

/-- `KeyInfo`. `pIndex` points at the index the point fills in: the first (`begin`) or the
second index of range `pIndex` among the transaction's read or write (`write`) ranges. -/
structure KeyInfo where
  key : Key
  pIndex : ℕ
  begin : Bool
  write : Bool
  transaction : ℕ
deriving DecidableEq, Inhabited, Repr

/-- `extra_ordering`: read end 0, write end 1, write begin 2, read begin 3. -/
def extraOrdering (ki : KeyInfo) : ℕ := ki.begin.toNat * 2 + (xor ki.write ki.begin).toNat

/-- `getCharacter`: whether the point is done with at `character`, and the character there:
`5 +` the byte within the key, `0` at its end, then `extra_ordering`. -/
def getCharacter (ki : KeyInfo) (character : ℕ) : Bool × ℕ :=
  if h : character < ki.key.length then (false, 5 + ki.key[character].val)
  else if character = ki.key.length then (false, 0)
  else if character = ki.key.length + 1 then (false, extraOrdering ki)
  else (true, 0)

/-- `operator<(KeyInfo)`: by key (`memcmp`, then the shorter first), then `extra_ordering`. -/
instance : LT KeyInfo :=
  ⟨fun lhs rhs => lhs.key < rhs.key ∨ lhs.key = rhs.key ∧ extraOrdering lhs < extraOrdering rhs⟩

instance (lhs rhs : KeyInfo) : Decidable (lhs < rhs) := inferInstanceAs (Decidable (_ ∨ _))

/-- The characters `getCharacter` gives for a point before it is done with. -/
def KeyInfo.characters (ki : KeyInfo) : List ℕ :=
  (List.range (ki.key.length + 2)).map fun character => (getCharacter ki character).2

/-- `SortTask`: sort the `size` points from `begin` on, from character `character` on. -/
structure SortTask where
  begin : ℕ
  size : ℕ
  character : ℕ
deriving DecidableEq, Repr

/-- `std::sort` over a range of points, by `operator<`. -/
def stdSort (points : List KeyInfo) : List KeyInfo :=
  points.mergeSort fun a b => !decide (b < a)

/-- `allDone &= getCharacter(points[i], st.character, c); counts[c]++;` -/
def countStep (character : ℕ) (s : Bool × (ℕ → ℕ)) (ki : KeyInfo) : Bool × (ℕ → ℕ) :=
  (s.1 && (getCharacter ki character).1,
    Function.update s.2 (getCharacter ki character).2 (s.2 (getCharacter ki character).2 + 1))

/-- One turn of the offsets loop over `counts[i]`: a task for the character when more than one
point has it, and the running total in place of the count. The stack's top is the head. -/
def offsetStep (st : SortTask) (s : List SortTask × (ℕ → ℕ) × ℕ) (i : ℕ) :
    List SortTask × (ℕ → ℕ) × ℕ :=
  let temp := s.2.1 i
  (if temp > 1 then ⟨st.begin + s.2.2, temp, st.character + 1⟩ :: s.1 else s.1,
    Function.update s.2.1 i s.2.2, s.2.2 + temp)

/-- The body of `sortPoints`' loop on the task `st` popped from the stack: `std::sort` for
fewer than ten points; otherwise nothing when every point is done with, and else the points
placed by their character at `st.character` (`newPoints`, copied back) and a task pushed for
each character more than one point has. -/
def sortTask (points : List KeyInfo) (st : SortTask) (tasks : List SortTask) :
    List KeyInfo × List SortTask :=
  let seg := points.segment st.begin st.size
  if st.size < 10 then (points.setSegment st.begin (stdSort seg), tasks)
  else
    let counted := seg.foldl (countStep st.character) (true, fun _ => 0)
    if counted.1 then (points, tasks)
    else
      let offsets := (List.range (256 + 5)).foldl (offsetStep st) (tasks, counted.2, 0)
      let newPoints := (List.placeLoop (fun ki => (getCharacter ki st.character).2) seg
        (offsets.2.1, fun _ => default)).2
      (points.setSegment st.begin ((List.range st.size).map newPoints), offsets.1)

/-- `while (tasks.size())`, for at most `fuel` turns. -/
def sortPointsLoop : ℕ → List KeyInfo → List SortTask → List KeyInfo
  | _, points, [] => points
  | 0, points, _ :: _ => points
  | fuel + 1, points, st :: tasks =>
    let next := sortTask points st tasks
    sortPointsLoop fuel next.1 next.2

/-- A bound on the key lengths of the points. -/
def keyLengthBound (points : List KeyInfo) : ℕ := (points.map fun ki => ki.key.length).sum

/-- Enough turns for the loop: each turn lowers `Σ (1 + size * (bound + 2 - character))`
over the stack (`sortPointsLoop_sortInv`). -/
def sortFuel (points : List KeyInfo) : ℕ := 1 + points.length * (keyLengthBound points + 2)

/-- `sortPoints`: the loop from the one task of all the points at character 0. -/
def sortPoints (points : List KeyInfo) : List KeyInfo :=
  sortPointsLoop (sortFuel points) points [⟨0, points.length, 0⟩]

section Characters

lemma extraOrdering_le (ki : KeyInfo) : extraOrdering ki ≤ 3 := by
  cases hb : ki.begin <;> cases hw : ki.write <;> simp [extraOrdering, hb, hw]

lemma characters_eq (ki : KeyInfo) :
    ki.characters = ki.key.map (fun b => 5 + b.val) ++ [0, extraOrdering ki] := by
  refine List.ext_getElem (by simp [KeyInfo.characters]) fun c h₁ h₂ => ?_
  simp only [KeyInfo.characters, List.getElem_map, List.getElem_range, getCharacter]
  by_cases hc : c < ki.key.length
  · rw [dif_pos hc, List.getElem_append_left (by simpa using hc)]
    simp
  · rw [dif_neg hc, List.getElem_append_right (by simpa using hc)]
    have h₁' : c < ki.key.length + 2 := by simpa [KeyInfo.characters] using h₁
    by_cases hc' : c = ki.key.length
    · simp [hc']
    · rw [if_neg hc', if_pos (by omega)]
      simp [show c - ki.key.length = 1 by omega]

@[simp] lemma length_characters (ki : KeyInfo) : ki.characters.length = ki.key.length + 2 := by
  simp [KeyInfo.characters]

lemma getD_characters_of_lt (ki : KeyInfo) {i : ℕ} (h : i < ki.key.length) :
    ki.characters.getD i 0 = 5 + ki.key[i].val := by
  rw [characters_eq, List.getD_append _ _ _ _ (by simpa using h)]
  simp [h]

lemma getD_characters_length (ki : KeyInfo) : ki.characters.getD ki.key.length 0 = 0 := by
  rw [characters_eq, List.getD_append_right _ _ _ _ (by simp)]
  simp

lemma getCharacter_eq (ki : KeyInfo) (character : ℕ) :
    getCharacter ki character =
      (decide (ki.characters.length ≤ character), ki.characters.getD character 0) := by
  by_cases hc : character < ki.key.length + 2
  · have hlen : character < ki.characters.length := by simpa using hc
    have hdone : (getCharacter ki character).1 = false := by
      unfold getCharacter
      split_ifs
      · rfl
      · rfl
      · rfl
      · omega
    refine Prod.ext ?_ ?_
    · simpa [hdone] using hc
    · rw [List.getD_eq_getElem _ _ hlen]
      simp [KeyInfo.characters]
  · have hlen : ki.characters.length ≤ character := by simpa using hc
    rw [List.getD_eq_default _ _ hlen]
    simp only [getCharacter, hlen, decide_true]
    rw [dif_neg (by omega), if_neg (by omega), if_neg (by omega)]

lemma getCharacter_lt (ki : KeyInfo) (character : ℕ) : (getCharacter ki character).2 < 256 + 5 := by
  unfold getCharacter
  split_ifs
  · have := (ki.key[character]).isLt
    simp only
    omega
  · simp
  · have := extraOrdering_le ki
    simp only
    omega
  · simp

lemma lt_iff_characters_lt_aux (ea eb : ℕ) : ∀ ka kb : Key,
    (ka < kb ∨ ka = kb ∧ ea < eb) ↔
      ka.map (fun b => 5 + b.val) ++ [0, ea] < kb.map (fun b => 5 + b.val) ++ [0, eb]
  | [], [] => by simp [List.cons_lt_cons_iff]
  | [], y :: kb => by simp [List.nil_lt_cons, List.cons_lt_cons_iff]
  | x :: ka, [] => by simp [List.not_lt_nil, List.cons_lt_cons_iff]
  | x :: ka, y :: kb => by
    have ih := lt_iff_characters_lt_aux ea eb ka kb
    simp only [List.map_cons, List.cons_append, List.cons_lt_cons_iff, List.cons.injEq, ← ih]
    have hxy : 5 + x.val < 5 + y.val ↔ x < y := by rw [Fin.lt_def]; omega
    have hxy' : 5 + x.val = 5 + y.val ↔ x = y := by rw [Fin.ext_iff]; omega
    rw [hxy, hxy']
    tauto

lemma lt_iff_characters_lt (a b : KeyInfo) : a < b ↔ a.characters < b.characters := by
  rw [characters_eq, characters_eq, ← lt_iff_characters_lt_aux]
  rfl

lemma lt_def (a b : KeyInfo) :
    a < b ↔ a.key < b.key ∨ a.key = b.key ∧ extraOrdering a < extraOrdering b := Iff.rfl

lemma lt_or_gt_of_extraOrdering_ne {a b : KeyInfo} (h : extraOrdering a ≠ extraOrdering b) :
    a < b ∨ b < a := by
  rw [lt_def, lt_def]
  rcases lt_trichotomy a.key b.key with hk | hk | hk
  · exact .inl (.inl hk)
  · rcases Nat.lt_or_gt_of_ne h with he | he
    · exact .inl (.inr ⟨hk, he⟩)
    · exact .inr (.inr ⟨hk.symm, he⟩)
  · exact .inr (.inl hk)

lemma lt_asymm {a b : KeyInfo} (h : a < b) : ¬ b < a := by
  rw [lt_iff_characters_lt] at h ⊢
  exact not_lt_of_gt h

lemma not_lt_trans {a b c : KeyInfo} (hab : ¬ b < a) (hbc : ¬ c < b) : ¬ c < a := by
  rw [lt_iff_characters_lt, not_lt] at hab hbc ⊢
  exact hab.trans hbc

lemma lt_of_getCharacter_lt {a b : KeyInfo} {c : ℕ}
    (hagree : ∀ c' < c, (getCharacter a c').2 = (getCharacter b c').2)
    (hlt : (getCharacter a c).2 < (getCharacter b c).2) : a < b := by
  rw [lt_iff_characters_lt]
  simp only [getCharacter_eq] at hagree hlt
  exact List.lt_of_getD_lt hagree hlt

lemma characters_eq_of_done {a b : KeyInfo} {c : ℕ}
    (hagree : ∀ c' < c, (getCharacter a c').2 = (getCharacter b c').2)
    (ha : (getCharacter a c).1 = true) (hb : (getCharacter b c).1 = true) :
    a.characters = b.characters := by
  simp only [getCharacter_eq, decide_eq_true_eq] at hagree ha hb
  -- a shorter key would show its end marker where the other shows a byte
  have hlen : a.key.length = b.key.length := by
    by_contra hne
    rcases Nat.lt_or_gt_of_ne hne with h | h
    · have := hagree a.key.length (by simp at ha; omega)
      rw [getD_characters_length, getD_characters_of_lt b h] at this
      omega
    · have := hagree b.key.length (by simp at hb; omega)
      rw [getD_characters_length, getD_characters_of_lt a h] at this
      omega
  refine List.ext_getElem (by simp [hlen]) fun i h₁ h₂ => ?_
  have := hagree i (lt_of_lt_of_le h₁ ha)
  rwa [List.getD_eq_getElem _ _ h₁, List.getD_eq_getElem _ _ h₂] at this

end Characters

section Loops

lemma foldl_countStep (character : ℕ) (seg : List KeyInfo) (allDone : Bool) (counts : ℕ → ℕ) :
    seg.foldl (countStep character) (allDone, counts) =
      (allDone && seg.all (fun ki => (getCharacter ki character).1),
        fun c => counts c + (seg.bucket (fun ki => (getCharacter ki character).2) c).length) := by
  induction seg generalizing allDone counts with
  | nil => simp
  | cons ki seg ih =>
    rw [List.foldl_cons, countStep, ih, List.all_cons, Bool.and_assoc]
    dsimp only
    congr 1
    funext c
    rw [List.bucket_cons]
    by_cases hc : (getCharacter ki character).2 = c
    · rw [if_pos hc, ← hc, Function.update_self, List.length_cons]
      omega
    · rw [if_neg hc, Function.update_of_ne (Ne.symm hc)]

/-- The tasks the offsets loop pushes for the characters below `R`, the last one on top. -/
def childTasks (st : SortTask) (counts : ℕ → ℕ) (R : ℕ) : List SortTask :=
  ((List.range R).filterMap fun c => if 1 < counts c then
    some ⟨st.begin + ((List.range c).map counts).sum, counts c, st.character + 1⟩ else none).reverse

lemma foldl_offsetStep (st : SortTask) (tasks : List SortTask) (counts : ℕ → ℕ) (R : ℕ) :
    (List.range R).foldl (offsetStep st) (tasks, counts, 0) =
      (childTasks st counts R ++ tasks,
        fun i => if i < R then ((List.range i).map counts).sum else counts i,
        ((List.range R).map counts).sum) := by
  induction R with
  | zero => simp [childTasks]
  | succ R ih =>
    rw [List.range_succ, List.foldl_append, ih, List.foldl_cons, List.foldl_nil]
    dsimp only [offsetStep]
    simp only [lt_irrefl, ↓reduceIte]
    refine Prod.ext ?_ (Prod.ext ?_ ?_)
    · dsimp only
      rw [childTasks, childTasks, List.range_succ, List.filterMap_append, List.reverse_append]
      by_cases hR : 1 < counts R
      · simp [hR]
      · simp [hR]
    · funext i
      dsimp only
      rcases lt_trichotomy i R with hi | rfl | hi
      · rw [Function.update_of_ne hi.ne, if_pos hi, if_pos (by omega)]
      · rw [Function.update_self, if_pos (by omega)]
      · rw [Function.update_of_ne hi.ne', if_neg (by omega), if_neg (by omega)]
    · simp [List.sum_append]

lemma mem_childTasks {st t : SortTask} {counts : ℕ → ℕ} {R : ℕ} :
    t ∈ childTasks st counts R ↔ ∃ c < R, 1 < counts c ∧
      t = ⟨st.begin + ((List.range c).map counts).sum, counts c, st.character + 1⟩ := by
  simp only [childTasks, List.mem_reverse, List.mem_filterMap, List.mem_range]
  constructor
  · rintro ⟨c, hc, ht⟩
    by_cases h : 1 < counts c
    · rw [if_pos h, Option.some.injEq] at ht
      exact ⟨c, hc, h, ht.symm⟩
    · rw [if_neg h] at ht
      cases ht
  · rintro ⟨c, hc, h, rfl⟩
    exact ⟨c, hc, by rw [if_pos h]⟩

end Loops

namespace SortTask

/-- A position within the task's range. -/
def Covers (st : SortTask) (i : ℕ) : Prop := st.begin ≤ i ∧ i < st.begin + st.size

/-- Two tasks whose ranges do not overlap. -/
def Apart (s t : SortTask) : Prop := s.begin + s.size ≤ t.begin ∨ t.begin + t.size ≤ s.begin

lemma Apart.symm {s t : SortTask} (h : s.Apart t) : t.Apart s := Or.symm h

lemma Apart.not_covers {s t : SortTask} (h : s.Apart t) {i : ℕ} (hs : s.Covers i) :
    ¬ t.Covers i := by
  unfold Apart at h
  unfold Covers at hs ⊢
  omega

/-- The weight of a task in the measure the loop lowers. -/
def weight (D : ℕ) (st : SortTask) : ℕ := 1 + st.size * (D - st.character)

end SortTask

/-- What the loop lowers: the weights of the tasks on the stack. -/
def potential (D : ℕ) (tasks : List SortTask) : ℕ := (tasks.map (SortTask.weight D)).sum

/-- The invariant of `sortPoints`' loop over `input`: the points rearrange it, the tasks' ranges
lie within them and apart, the points of a task agree on the characters before the task's
own, and two points stand in `operator<`'s order unless one task still holds both. -/
structure SortInv (input points : List KeyInfo) (tasks : List SortTask) : Prop where
  perm : points.Perm input
  bounded : ∀ st ∈ tasks, st.begin + st.size ≤ points.length
  apart : tasks.Pairwise SortTask.Apart
  agree : ∀ st ∈ tasks, ∀ i j, st.Covers i → st.Covers j → ∀ c < st.character,
    (getCharacter (points.getD i default) c).2 = (getCharacter (points.getD j default) c).2
  ordered : ∀ i j, i < j → j < points.length → (∀ st ∈ tasks, ¬ (st.Covers i ∧ st.Covers j)) →
    ¬ points.getD j default < points.getD i default

section Invariant

variable {input points : List KeyInfo} {st : SortTask} {tasks : List SortTask}

lemma SortInv.agree_of_mem (h : SortInv input points (st :: tasks)) {x y : KeyInfo}
    (hx : x ∈ points.segment st.begin st.size) (hy : y ∈ points.segment st.begin st.size) :
    ∀ c < st.character, (getCharacter x c).2 = (getCharacter y c).2 := by
  obtain ⟨i, hi, hi', rfl⟩ := List.exists_getD_of_mem_segment default hx
  obtain ⟨j, hj, hj', rfl⟩ := List.exists_getD_of_mem_segment default hy
  exact h.agree st List.mem_cons_self i j ⟨hi, hi'⟩ ⟨hj, hj'⟩

lemma getD_mem {l : List KeyInfo} {i : ℕ} (hi : i < l.length) : l.getD i default ∈ l := by
  rw [List.getD_eq_getElem _ _ hi]
  exact List.getElem_mem hi

lemma SortInv.setSegment (h : SortInv input points (st :: tasks)) {seg : List KeyInfo}
    {children : List SortTask} (hperm : seg.Perm (points.segment st.begin st.size))
    (hinside : ∀ t ∈ children, st.begin ≤ t.begin ∧ t.begin + t.size ≤ st.begin + st.size)
    (happart : children.Pairwise SortTask.Apart)
    (hagree : ∀ t ∈ children, ∀ i j, t.Covers (st.begin + i) → t.Covers (st.begin + j) →
      ∀ c < t.character, (getCharacter (seg.getD i default) c).2 =
        (getCharacter (seg.getD j default) c).2)
    (hwithin : ∀ i j, i < j → j < st.size →
      (∀ t ∈ children, ¬ (t.Covers (st.begin + i) ∧ t.Covers (st.begin + j))) →
      ¬ seg.getD j default < seg.getD i default) :
    SortInv input (points.setSegment st.begin seg) (children ++ tasks) := by
  have hb : st.begin + st.size ≤ points.length := h.bounded st List.mem_cons_self
  have hlen : seg.length = st.size := hperm.length_eq.trans (List.length_segment hb)
  have hlen' : (points.setSegment st.begin seg).length = points.length :=
    List.length_setSegment (by omega)
  have happ : ∀ r ∈ tasks, st.Apart r := (List.pairwise_cons.mp h.apart).1
  -- inside the range the new points are the segment's; outside they are the old ones
  have hin : ∀ i, st.Covers i →
      (points.setSegment st.begin seg).getD i default = seg.getD (i - st.begin) default :=
    fun i hi => List.getD_setSegment_of_mem _ (by omega) hi.1 (by rw [hlen]; exact hi.2)
  have hout : ∀ i, ¬ st.Covers i →
      (points.setSegment st.begin seg).getD i default = points.getD i default := by
    intro i hi
    unfold SortTask.Covers at hi
    by_cases hib : i < st.begin
    · exact List.getD_setSegment_of_lt _ (by omega) hib
    · exact List.getD_setSegment_of_le _ (by omega) (by omega)
  -- a new point of the range is an old point of the range
  have hfrom : ∀ i, st.Covers i → ∃ i', st.Covers i' ∧
      (points.setSegment st.begin seg).getD i default = points.getD i' default := by
    intro i hi
    have hmem : seg.getD (i - st.begin) default ∈ points.segment st.begin st.size :=
      hperm.subset (getD_mem (by unfold SortTask.Covers at hi; omega))
    obtain ⟨i', hi', hi'', heq⟩ := List.exists_getD_of_mem_segment default hmem
    exact ⟨i', ⟨hi', hi''⟩, by rw [hin i hi, heq]⟩
  refine ⟨(List.setSegment_perm hb hperm).trans h.perm, ?_, ?_, ?_, ?_⟩
  · intro t ht
    rw [hlen']
    rcases List.mem_append.mp ht with ht | ht
    · have := hinside t ht
      omega
    · exact h.bounded t (List.mem_cons_of_mem _ ht)
  · refine List.pairwise_append.mpr ⟨happart, (List.pairwise_cons.mp h.apart).2, ?_⟩
    intro t ht r hr
    have hi := hinside t ht
    have hr := happ r hr
    unfold SortTask.Apart at hr ⊢
    omega
  · intro t ht i j hi hj c hc
    rcases List.mem_append.mp ht with ht | ht
    · have hti := hinside t ht
      have hsi : st.Covers i := by unfold SortTask.Covers at hi ⊢; omega
      have hsj : st.Covers j := by unfold SortTask.Covers at hj ⊢; omega
      rw [hin i hsi, hin j hsj]
      refine hagree t ht _ _ ?_ ?_ c hc
      · rwa [Nat.add_sub_cancel' hsi.1]
      · rwa [Nat.add_sub_cancel' hsj.1]
    · -- another task's range is outside the rewritten one
      have hsr := (happ t ht).symm
      rw [hout i (hsr.not_covers hi), hout j (hsr.not_covers hj)]
      exact h.agree t (List.mem_cons_of_mem _ ht) i j hi hj c hc
  · intro i j hij hj hnot
    rw [hlen'] at hj
    have hnotc : ∀ t ∈ children, ¬ (t.Covers i ∧ t.Covers j) :=
      fun t ht => hnot t (List.mem_append_left _ ht)
    have hnotr : ∀ r ∈ tasks, ¬ (r.Covers i ∧ r.Covers j) :=
      fun r hr => hnot r (List.mem_append_right _ hr)
    by_cases hsi : st.Covers i <;> by_cases hsj : st.Covers j
    · -- both in the range: the new tasks' business
      rw [hin i hsi, hin j hsj]
      refine hwithin _ _ (by unfold SortTask.Covers at hsi hsj; omega)
        (by unfold SortTask.Covers at hsi hsj; omega) fun t ht => ?_
      rw [Nat.add_sub_cancel' hsi.1, Nat.add_sub_cancel' hsj.1]
      exact hnotc t ht
    · obtain ⟨i', hi', heq⟩ := hfrom i hsi
      rw [heq, hout j hsj]
      refine h.ordered i' j (by unfold SortTask.Covers at hi' hsi hsj; omega) hj fun r hr hc => ?_
      rcases List.mem_cons.mp hr with rfl | hr
      · exact hsj hc.2
      · exact (happ r hr).not_covers hi' hc.1
    · obtain ⟨j', hj', heq⟩ := hfrom j hsj
      rw [heq, hout i hsi]
      refine h.ordered i j' (by unfold SortTask.Covers at hj' hsi hsj; omega)
        (by unfold SortTask.Covers at hj'; omega) fun r hr hc => ?_
      rcases List.mem_cons.mp hr with rfl | hr
      · exact hsi hc.1
      · exact (happ r hr).not_covers hj' hc.2
    · rw [hout i hsi, hout j hsj]
      refine h.ordered i j hij hj fun r hr hc => ?_
      rcases List.mem_cons.mp hr with rfl | hr
      · exact hsi hc.1
      · exact hnotr r hr hc

lemma pairwise_stdSort (seg : List KeyInfo) : (stdSort seg).Pairwise fun a b => ¬ b < a := by
  have htrans : ∀ a b c : KeyInfo, (!decide (b < a)) = true → (!decide (c < b)) = true →
      (!decide (c < a)) = true := by
    intro a b c hab hbc
    simp only [Bool.not_eq_true', decide_eq_false_iff_not] at hab hbc ⊢
    exact not_lt_trans hab hbc
  have htotal : ∀ a b : KeyInfo, ((!decide (b < a)) || (!decide (a < b))) = true := by
    intro a b
    by_cases hab : a < b
    · simp [lt_asymm hab]
    · simp [hab]
  exact (@List.pairwise_mergeSort _ (fun a b => !decide (b < a)) htrans htotal seg).imp
    fun hab => by simpa using hab

lemma SortInv.small (h : SortInv input points (st :: tasks)) :
    SortInv input (points.setSegment st.begin (stdSort (points.segment st.begin st.size)))
      tasks := by
  have hb := h.bounded st List.mem_cons_self
  have hperm := List.mergeSort_perm (points.segment st.begin st.size) fun a b => !decide (b < a)
  have hlen : (stdSort (points.segment st.begin st.size)).length = st.size :=
    hperm.length_eq.trans (List.length_segment hb)
  have hwithin : ∀ i j, i < j → j < st.size →
      ¬ (stdSort (points.segment st.begin st.size)).getD j default <
        (stdSort (points.segment st.begin st.size)).getD i default := by
    intro i j hij hj
    rw [List.getD_eq_getElem _ _ (by omega), List.getD_eq_getElem _ _ (by omega)]
    exact List.pairwise_iff_getElem.mp (pairwise_stdSort _) i j (by omega) (by omega) hij
  show SortInv input _ ([] ++ tasks)
  exact h.setSegment hperm (by simp) List.Pairwise.nil (by simp)
    fun i j hij hj _ => hwithin i j hij hj

lemma SortInv.allDone (h : SortInv input points (st :: tasks))
    (hdone : ∀ ki ∈ points.segment st.begin st.size, (getCharacter ki st.character).1 = true) :
    SortInv input points tasks := by
  have hb := h.bounded st List.mem_cons_self
  have hwithin : ∀ i j, i < j → j < st.size →
      ¬ (points.segment st.begin st.size).getD j default <
        (points.segment st.begin st.size).getD i default := by
    intro i j hij hj
    have hx := getD_mem (l := points.segment st.begin st.size) (i := i)
      (by rw [List.length_segment hb]; omega)
    have hy := getD_mem (l := points.segment st.begin st.size) (i := j)
      (by rw [List.length_segment hb]; omega)
    rw [lt_iff_characters_lt,
      characters_eq_of_done (h.agree_of_mem hy hx) (hdone _ hy) (hdone _ hx)]
    exact lt_irrefl _
  have key : SortInv input (points.setSegment st.begin (points.segment st.begin st.size))
      ([] ++ tasks) :=
    h.setSegment (List.Perm.refl _) (by simp) List.Pairwise.nil (by simp)
      fun i j hij hj _ => hwithin i j hij hj
  rwa [List.setSegment_segment hb] at key

lemma SortInv.radix (h : SortInv input points (st :: tasks)) :
    SortInv input
      (points.setSegment st.begin ((points.segment st.begin st.size).bucketed
        (fun ki => (getCharacter ki st.character).2) (256 + 5)))
      (childTasks st (fun c => ((points.segment st.begin st.size).bucket
        (fun ki => (getCharacter ki st.character).2) c).length) (256 + 5) ++ tasks) := by
  set digit := fun ki : KeyInfo => (getCharacter ki st.character).2
  set seg := points.segment st.begin st.size
  set counts := fun c => (seg.bucket digit c).length with hcounts
  set sorted := seg.bucketed digit (256 + 5)
  have hb := h.bounded st List.mem_cons_self
  have hlen : seg.length = st.size := List.length_segment hb
  have hperm : sorted.Perm seg :=
    List.bucketed_perm_self digit fun ki _ => getCharacter_lt ki st.character
  have hslen : sorted.length = st.size := hperm.length_eq.trans hlen
  have hoff : ∀ c, ((List.range c).map counts).sum = (seg.bucketed digit c).length := by
    intro c
    simp [List.bucketed, List.length_flatMap, counts]
  have hnext : ∀ c, (seg.bucketed digit c).length + counts c = (seg.bucketed digit (c + 1)).length :=
    fun c => by rw [List.bucketed_succ, List.length_append]
  have hend : ∀ c < 256 + 5, (seg.bucketed digit (c + 1)).length ≤ st.size :=
    fun c hc => hslen ▸ List.length_bucketed_mono digit seg hc
  have hmono : ∀ c c', c < c' → (seg.bucketed digit (c + 1)).length ≤ (seg.bucketed digit c').length :=
    fun c c' hcc' => List.length_bucketed_mono digit seg hcc'
  -- the point at a position of bucket `c` has character `c`
  have hdigitAt : ∀ c < 256 + 5, ∀ i, (seg.bucketed digit c).length ≤ i →
      i < (seg.bucketed digit c).length + counts c → digit (sorted.getD i default) = c := by
    intro c hc i hi hi'
    have hcount : counts c = (seg.bucket digit c).length := rfl
    obtain ⟨j, rfl⟩ := Nat.exists_eq_add_of_le hi
    have hlt : (seg.bucketed digit c).length + j < sorted.length := by
      have := hend c hc
      rw [← hnext] at this
      omega
    rw [List.getD_eq_getElem _ _ hlt]
    exact List.digit_getElem_bucketed digit seg hc (by omega) hlt
  have hmem : ∀ i < st.size, sorted.getD i default ∈ seg :=
    fun i hi => hperm.subset (getD_mem (by omega))
  have hchild : ∀ t ∈ childTasks st counts (256 + 5), ∃ c < 256 + 5, 1 < counts c ∧
      t = ⟨st.begin + (seg.bucketed digit c).length, counts c, st.character + 1⟩ := by
    intro t ht
    obtain ⟨c, hc, h1, rfl⟩ := mem_childTasks.mp ht
    exact ⟨c, hc, h1, by rw [hoff]⟩
  refine h.setSegment hperm ?_ ?_ ?_ ?_
  · intro t ht
    obtain ⟨c, hc, -, rfl⟩ := hchild t ht
    have := hend c hc
    rw [← hnext] at this
    exact ⟨Nat.le_add_right _ _, by dsimp only; omega⟩
  · -- buckets lie one after the other
    rw [childTasks, List.pairwise_reverse, List.pairwise_filterMap]
    refine List.pairwise_lt_range.imp fun {c c'} hcc' t ht t' ht' => ?_
    split_ifs at ht ht'
    cases ht
    cases ht'
    have := hmono c c' hcc'
    rw [← hnext, ← hoff, ← hoff] at this
    right
    dsimp only
    omega
  · intro t ht i j hi hj c' hc'
    obtain ⟨c, hc, -, rfl⟩ := hchild t ht
    unfold SortTask.Covers at hi hj
    dsimp only at hi hj hc'
    have hc1 := hnext c
    have hi' : i < st.size := lt_of_lt_of_le (by omega) (hend c hc)
    have hj' : j < st.size := lt_of_lt_of_le (by omega) (hend c hc)
    rcases Nat.lt_succ_iff_lt_or_eq.mp hc' with hc' | rfl
    · exact h.agree_of_mem (hmem i hi') (hmem j hj') c' hc'
    · change digit _ = digit _
      rw [hdigitAt c hc i (by omega) (by omega), hdigitAt c hc j (by omega) (by omega)]
  · intro i j hij hj hnot
    have hi' : i < sorted.length := by omega
    have hj' : j < sorted.length := by omega
    obtain ⟨ci, hci, ki, hki, hiEq⟩ := List.exists_bucket_of_lt digit seg hi'
    obtain ⟨cj, hcj, kj, hkj, hjEq⟩ := List.exists_bucket_of_lt digit seg hj'
    have hcounti : counts ci = (seg.bucket digit ci).length := rfl
    have hcountj : counts cj = (seg.bucket digit cj).length := rfl
    have hdi := hdigitAt ci hci i (by omega) (by omega)
    have hdj := hdigitAt cj hcj j (by omega) (by omega)
    rcases lt_trichotomy ci cj with hlt | rfl | hlt
    · -- different buckets: the characters at `st.character` decide
      refine lt_asymm (lt_of_getCharacter_lt (h.agree_of_mem (hmem i (by omega)) (hmem j hj)) ?_)
      change digit _ < digit _
      omega
    · -- one bucket of two points or more: a task holds both
      exfalso
      have h2 : 1 < counts ci := by
        change 1 < (seg.bucket digit ci).length
        omega
      refine hnot _ (mem_childTasks.mpr ⟨ci, hci, h2, rfl⟩) ⟨?_, ?_⟩ <;>
        · unfold SortTask.Covers
          dsimp only
          rw [hoff]
          omega
    · have := hmono cj ci hlt
      rw [← hnext] at this
      omega

lemma SortInv.step (h : SortInv input points (st :: tasks)) :
    SortInv input (sortTask points st tasks).1 (sortTask points st tasks).2 := by
  have hb := h.bounded st List.mem_cons_self
  unfold sortTask
  by_cases hsmall : st.size < 10
  · rw [if_pos hsmall]
    exact h.small
  rw [if_neg hsmall]
  dsimp only
  rw [foldl_countStep, Bool.true_and]
  by_cases hdone : ((points.segment st.begin st.size).all fun ki => (getCharacter ki st.character).1)
  · rw [if_pos hdone]
    exact h.allDone fun ki hki => List.all_eq_true.mp hdone ki hki
  rw [if_neg hdone, foldl_offsetStep]
  dsimp only
  -- the placing loop lays the buckets out from the prefix sums of their sizes
  have hplace := @List.placeLoop_bucketed _ (fun ki => (getCharacter ki st.character).2) _
    (points.segment st.begin st.size) (fun ki _ => getCharacter_lt ki st.character)
  rw [List.length_segment hb] at hplace
  rw [hplace _ fun c hc => ?_]
  · simpa using h.radix
  · rw [if_pos hc]
    simp [List.bucketed, List.length_flatMap]

lemma potential_childTasks_succ (D : ℕ) (st : SortTask) (counts : ℕ → ℕ) (R : ℕ) :
    potential D (childTasks st counts (R + 1)) = potential D (childTasks st counts R) +
      if 1 < counts R then 1 + counts R * (D - (st.character + 1)) else 0 := by
  unfold childTasks potential
  rw [List.range_succ, List.filterMap_append, List.reverse_append, List.map_append, List.sum_append]
  by_cases hR : 1 < counts R
  · simp [hR, SortTask.weight, Nat.add_comm]
  · simp [hR]

lemma potential_childTasks_le (D : ℕ) (st : SortTask) (counts : ℕ → ℕ) (hD : st.character < D) :
    ∀ R, potential D (childTasks st counts R) ≤ ((List.range R).map counts).sum * (D - st.character)
  | 0 => by simp [potential, childTasks]
  | R + 1 => by
    have ih := potential_childTasks_le D st counts hD R
    obtain ⟨k, hk⟩ : ∃ k, D - st.character = k + 1 := ⟨D - st.character - 1, by omega⟩
    have hk' : D - (st.character + 1) = k := by omega
    rw [potential_childTasks_succ, List.range_succ, List.map_append, List.sum_append,
      List.map_singleton, List.sum_singleton, Nat.add_mul, hk, hk']
    rw [hk] at ih
    split_ifs with hR
    · -- each child weighs at most its points times the characters left
      have : 1 + counts R * k ≤ counts R * (k + 1) := by rw [Nat.mul_succ]; omega
      omega
    · omega

lemma potential_sortTask_lt {D : ℕ} (h : SortInv input points (st :: tasks))
    (hD : ∀ ki ∈ input, ki.key.length + 2 ≤ D) :
    potential D (sortTask points st tasks).2 < potential D (st :: tasks) := by
  have hb := h.bounded st List.mem_cons_self
  have hcons : potential D (st :: tasks) = st.weight D + potential D tasks := by
    simp [potential]
  have hw : 0 < st.weight D := by simp [SortTask.weight]
  unfold sortTask
  by_cases hsmall : st.size < 10
  · rw [if_pos hsmall, hcons]
    dsimp only
    omega
  rw [if_neg hsmall]
  dsimp only
  rw [foldl_countStep, Bool.true_and]
  by_cases hdone : ((points.segment st.begin st.size).all fun ki => (getCharacter ki st.character).1)
  · rw [if_pos hdone, hcons]
    dsimp only
    omega
  rw [if_neg hdone, foldl_offsetStep]
  dsimp only
  simp only [Nat.zero_add]
  -- a point not yet done with bounds the character from above
  obtain ⟨ki, hki, hnd⟩ : ∃ ki ∈ points.segment st.begin st.size,
      (getCharacter ki st.character).1 = false := by simpa using hdone
  have hlt : st.character < D := by
    have hin : ki ∈ input := h.perm.subset (List.mem_of_mem_drop (List.mem_of_mem_take hki))
    rw [getCharacter_eq, decide_eq_false_iff_not, not_le, length_characters] at hnd
    have := hD ki hin
    omega
  have hsum : ((List.range (256 + 5)).map fun c => ((points.segment st.begin st.size).bucket
      (fun ki => (getCharacter ki st.character).2) c).length).sum = st.size := by
    rw [← List.length_flatMap, ← List.bucketed,
      (List.bucketed_perm_self _ fun ki _ => getCharacter_lt ki st.character).length_eq,
      List.length_segment hb]
  have hchildren := potential_childTasks_le D st (fun c => ((points.segment st.begin st.size).bucket
      (fun ki => (getCharacter ki st.character).2) c).length) hlt (256 + 5)
  rw [hsum] at hchildren
  have happ : potential D (childTasks st (fun c => ((points.segment st.begin st.size).bucket
      (fun ki => (getCharacter ki st.character).2) c).length) (256 + 5) ++ tasks) =
      potential D (childTasks st (fun c => ((points.segment st.begin st.size).bucket
      (fun ki => (getCharacter ki st.character).2) c).length) (256 + 5)) + potential D tasks := by
    simp [potential]
  rw [happ, hcons]
  unfold SortTask.weight
  omega

lemma sortPointsLoop_sortInv {D : ℕ} (hD : ∀ ki ∈ input, ki.key.length + 2 ≤ D) :
    ∀ (fuel : ℕ) (points : List KeyInfo) (tasks : List SortTask), SortInv input points tasks →
      potential D tasks ≤ fuel → SortInv input (sortPointsLoop fuel points tasks) []
  | _, points, [], h, _ => by rwa [sortPointsLoop]
  | 0, points, st :: tasks, _, hf => by
    simp [potential, SortTask.weight] at hf
  | fuel + 1, points, st :: tasks, h, hf => by
    rw [sortPointsLoop]
    exact sortPointsLoop_sortInv hD fuel _ _ h.step
      (by have := potential_sortTask_lt h hD; omega)

end Invariant

lemma sortInv_init (points : List KeyInfo) : SortInv points points [⟨0, points.length, 0⟩] := by
  refine ⟨List.Perm.refl _, by simp, List.pairwise_singleton _ _, ?_, ?_⟩
  · intro st hst i j _ _ c hc
    rw [List.mem_singleton.mp hst] at hc
    cases hc
  · intro i j hij hj hnot
    refine absurd ?_ (hnot _ (List.mem_singleton_self _))
    unfold SortTask.Covers
    dsimp only
    omega

lemma sortInv_sortPoints (points : List KeyInfo) : SortInv points (sortPoints points) [] := by
  have hD : ∀ ki ∈ points, ki.key.length + 2 ≤ keyLengthBound points + 2 := by
    intro ki hki
    have hmem : ki.key.length ∈ points.map fun ki => ki.key.length := List.mem_map.mpr ⟨ki, hki, rfl⟩
    exact Nat.add_le_add_right (List.le_sum_of_mem hmem) 2
  refine sortPointsLoop_sortInv hD _ points _ (sortInv_init points) ?_
  simp [potential, SortTask.weight, sortFuel]

lemma sortPoints_perm (points : List KeyInfo) : (sortPoints points).Perm points :=
  (sortInv_sortPoints points).perm

lemma pairwise_sortPoints (points : List KeyInfo) :
    (sortPoints points).Pairwise fun a b => ¬ b < a := by
  have h := sortInv_sortPoints points
  refine List.pairwise_iff_getElem.mpr fun i j hi hj hij => ?_
  have := h.ordered i j hij hj (by simp)
  rwa [List.getD_eq_getElem _ _ hi, List.getD_eq_getElem _ _ hj] at this

/-- `sortPoints` sorts: its result rearranges its input in `operator<`'s order, and the
character strings `getCharacter` reads order points as `operator<` does. -/
theorem sortPoints_sortedPermutation (points : List KeyInfo) :
    (sortPoints points).Perm points ∧ (sortPoints points).Pairwise (fun a b => ¬ b < a) ∧
      ∀ a b : KeyInfo, a < b ↔ a.characters < b.characters :=
  ⟨sortPoints_perm points, pairwise_sortPoints points, lt_iff_characters_lt⟩

end FoundationDB.Resolver
