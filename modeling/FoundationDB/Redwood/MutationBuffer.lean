import FoundationDB.Client.CommitTransaction
import FoundationDB.RYW.Segments
import FoundationDB.Library.Keyed
import Mathlib.Data.List.GetD

/-! Redwood's buffer of pending writes (`VersionedBTree::set` and `clear`, `RangeMutation`,
`MutationBuffer::insert`). The buffer maps boundary keys to range mutations: a boundary may be
set or cleared itself, and may clear the keys after it up to the next boundary. It starts with
the boundaries `dbBegin` and a cleared `dbEnd`. A new boundary inside a cleared range is
cleared with it. A range clear inserts both ends, clears from the first and erases the
boundaries between them.

The buffer is the list of its entries in order of key. `insert` returns the buffer, and the
caller changes the entry at the key it inserted (`modify`); the erase takes the positions of
the two iterators. -/

namespace FoundationDB.Redwood

structure RangeMutation where
  boundaryChanged : Bool
  /-- Not present means cleared. -/
  boundaryValue : Option Value
  clearAfterBoundary : Bool
deriving DecidableEq, Inhabited

namespace RangeMutation

/-- `RangeMutation()`. -/
def init : RangeMutation := ⟨false, none, false⟩

def clearBoundary (m : RangeMutation) : RangeMutation :=
  { m with boundaryChanged := true, boundaryValue := none }

def clearAll (m : RangeMutation) : RangeMutation :=
  { m.clearBoundary with clearAfterBoundary := true }

def setBoundaryValue (m : RangeMutation) (v : Value) : RangeMutation :=
  { m with boundaryChanged := true, boundaryValue := some v }

@[simp] lemma clearAfterBoundary_clearBoundary (m : RangeMutation) :
    m.clearBoundary.clearAfterBoundary = m.clearAfterBoundary := rfl

@[simp] lemma clearAfterBoundary_setBoundaryValue (m : RangeMutation) (v : Value) :
    (m.setBoundaryValue v).clearAfterBoundary = m.clearAfterBoundary := rfl

end RangeMutation

def dbBegin : Key := []

def dbEnd : Key := [255, 255, 255, 255, 255]

lemma dbBegin_le (k : Key) : dbBegin ≤ k := by
  cases k with
  | nil => exact le_rfl
  | cons a l => exact le_of_lt List.Lex.nil

structure MutationBuffer where
  mutations : List (Key × RangeMutation)

namespace MutationBuffer

open RangeMutation

/-- The buffer covering the whole key space, with `dbEnd` cleared. -/
def init : MutationBuffer := ⟨[(dbBegin, RangeMutation.init), (dbEnd, RangeMutation.init.clearBoundary)]⟩

/-- `insert(boundary)`: a missing boundary is added, cleared when the range it splits was. -/
def insert (buf : MutationBuffer) (boundary : Key) : MutationBuffer :=
  let ib := Keyed.lowerBound Prod.fst buf.mutations boundary
  if ib < buf.mutations.length ∧ (buf.mutations.getD ib default).1 = boundary then buf
  else
    let iPrevious := ib - 1
    let previousClears := ib ≠ 0 ∧ (buf.mutations.getD iPrevious default).2.clearAfterBoundary
    let m := if previousClears then RangeMutation.init.clearAll else RangeMutation.init
    ⟨buf.mutations.take ib ++ (boundary, m) :: buf.mutations.drop ib⟩

/-- `mutation()` of the boundary at `key`, changed by `f`. -/
def modify (buf : MutationBuffer) (key : Key) (f : RangeMutation → RangeMutation) : MutationBuffer :=
  ⟨buf.mutations.map fun e => if e.1 = key then (e.1, f e.2) else e⟩

/-- `erase(begin, end)` of the boundaries at positions `[i, j)`. -/
def erase (buf : MutationBuffer) (i j : ℕ) : MutationBuffer :=
  ⟨buf.mutations.take i ++ buf.mutations.drop j⟩

end MutationBuffer

open MutationBuffer RangeMutation

/-- `VersionedBTree::set`. -/
def set (buf : MutationBuffer) (key : Key) (value : Value) : MutationBuffer :=
  (buf.insert key).modify key (·.setBoundaryValue value)

/-- `clear(range)` of a single key: `range.end` is `range.begin` followed by a zero byte. -/
def IsSingleKeyClear (clearedRange : KeyRangeRef) : Prop :=
  (clearedRange.begin.length : ℤ) = clearedRange.end.length - 1 ∧
    clearedRange.end.getLast? = some 0 ∧ clearedRange.begin <+: clearedRange.end

instance (clearedRange : KeyRangeRef) : Decidable (IsSingleKeyClear clearedRange) :=
  inferInstanceAs (Decidable (_ ∧ _))

/-- `VersionedBTree::clear`. -/
def clear (buf : MutationBuffer) (clearedRange : KeyRangeRef) : MutationBuffer :=
  -- one boundary instead of two for a single key
  if IsSingleKeyClear clearedRange then
    (buf.insert clearedRange.begin).modify clearedRange.begin clearBoundary
  else
    let buf := (buf.insert clearedRange.begin).insert clearedRange.end
    let iBegin := Keyed.lowerBound Prod.fst buf.mutations clearedRange.begin
    let iEnd := Keyed.lowerBound Prod.fst buf.mutations clearedRange.end
    let buf := buf.modify clearedRange.begin clearAll
    buf.erase (iBegin + 1) iEnd

/-- A call on the tree's write buffer. -/
inductive BufferOp
  | set (key : Key) (value : Value)
  | clear (range : KeyRangeRef)

def BufferOp.apply (buf : MutationBuffer) : BufferOp → MutationBuffer
  | .set key value => Redwood.set buf key value
  | .clear range => Redwood.clear buf range

/-- The calls made one after another. -/
def run (buf : MutationBuffer) (ops : List BufferOp) : MutationBuffer :=
  ops.foldl BufferOp.apply buf

/-! What the buffer means. A key's pending write is nothing (`none`) or a value, where the value
`none` clears the key. -/

/-- What a boundary entry does to a key at or after it: its own change at the boundary, the
clear of the range after it elsewhere. -/
def entryEffect (k : Key) (e : Key × RangeMutation) : Option (Option Value) :=
  if e.1 = k then (if e.2.boundaryChanged then some e.2.boundaryValue else none)
  else if e.2.clearAfterBoundary then some none else none

namespace MutationBuffer

/-- The write pending on `k`: that of the greatest boundary at or before it. -/
def effect (buf : MutationBuffer) (k : Key) : Option (Option Value) :=
  (Keyed.lastLE Prod.fst buf.mutations k).bind (entryEffect k)

/-- The buffer applied to a map. -/
def denote (buf : MutationBuffer) (M : Key → Option Value) (k : Key) : Option Value :=
  (buf.effect k).getD (M k)

/-- A second reading of the buffer, in which every key that is not a changed boundary takes the
range of the greatest boundary below it, unchanged boundaries included. -/
def inheritedEffect (buf : MutationBuffer) (k : Key) : Option (Option Value) :=
  let below : Option (Option Value) :=
    if (buf.mutations.filter fun e => e.1 < k).getLast?.map (·.2.clearAfterBoundary) = some true
    then some none else none
  match buf.mutations.find? (·.1 = k) with
  | some (_, m) => if m.boundaryChanged then some m.boundaryValue else below
  | none => below

def inheritedDenote (buf : MutationBuffer) (M : Key → Option Value) (k : Key) : Option Value :=
  (buf.inheritedEffect k).getD (M k)

end MutationBuffer

namespace BufferOp

/-- A call applied to a map. -/
def applyTo (M : Key → Option Value) : BufferOp → Key → Option Value
  | .set key value => Function.update M key (some value)
  | .clear range => fun k => if range.contains k then none else M k

/-- What a call does to the write pending on `k`. -/
def effectOn (k : Key) (w : Option (Option Value)) : BufferOp → Option (Option Value)
  | .set key value => if k = key then some (some value) else w
  | .clear range => if range.contains k then some none else w

/-- A clear of a range that is not empty. The source erases from after the begin boundary to
the end one, which for an empty range is no range of the map. -/
def WellFormed : BufferOp → Prop
  | .set _ _ => True
  | .clear range => range.begin < range.end

end BufferOp

/-- The calls applied to a map one after another. -/
def applyAll (M : Key → Option Value) (ops : List BufferOp) : Key → Option Value :=
  ops.foldl BufferOp.applyTo M

section Insert

open Keyed

variable {buf : MutationBuffer}

lemma insert_cases (hs : Sorted Prod.fst buf.mutations) (b : Key) :
    ((∃ m, (b, m) ∈ buf.mutations) ∧ buf.insert b = buf) ∨
      ∃ T R m, buf.mutations = T ++ R ∧ (buf.insert b).mutations = T ++ (b, m) :: R ∧
        (∀ y ∈ T, y.1 < b) ∧ (∀ y ∈ R, b < y.1) ∧
        ∀ k, b ≤ k → entryEffect k (b, m) = T.getLast?.bind (entryEffect k) := by
  have hT : ∀ y ∈ buf.mutations.take (lowerBound Prod.fst buf.mutations b), y.1 < b :=
    fun y hy => ((mem_take_lowerBound hs).mp hy).2
  have hR : ∀ y ∈ buf.mutations.drop (lowerBound Prod.fst buf.mutations b), b ≤ y.1 :=
    fun y hy => (hs.mem_drop_lowerBound.mp hy).2
  have hle : lowerBound Prod.fst buf.mutations b ≤ buf.mutations.length := lowerBound_le_length
  simp only [MutationBuffer.insert]
  generalize lowerBound Prod.fst buf.mutations b = ib at hT hR hle ⊢
  by_cases hfound : ib < buf.mutations.length ∧ (buf.mutations.getD ib default).1 = b
  · rw [if_pos hfound]
    left
    obtain ⟨hlt, hkey⟩ := hfound
    rw [List.getD_eq_getElem _ _ hlt] at hkey
    have hmem := List.getElem_mem hlt
    revert hkey hmem
    generalize buf.mutations[ib] = x
    rintro rfl hmem
    exact ⟨⟨x.2, hmem⟩, rfl⟩
  · rw [if_neg hfound]
    right
    refine ⟨_, _, _, (List.take_append_drop _ _).symm, rfl, hT, ?_, ?_⟩
    · -- the first entry from `ib` on is not `b`, and the others are above it
      intro y hy
      cases hd : buf.mutations.drop ib with
      | nil => rw [hd] at hy; cases hy
      | cons h R =>
        have hsd : Sorted Prod.fst (h :: R) := hd ▸ hs.sublist (List.drop_sublist _ _)
        have hhb : b ≤ h.1 := hR h (by rw [hd]; exact List.mem_cons_self)
        have hlt : ib < buf.mutations.length := by
          have := congrArg List.length hd
          rw [List.length_drop, List.length_cons] at this
          omega
        have hget : buf.mutations.getD ib default = h := by
          have := congrArg (·[0]?) hd
          simp only [List.getElem?_drop, Nat.add_zero, List.getElem?_cons_zero] at this
          rw [List.getD_eq_getElem?_getD, this, Option.getD_some]
        have hhne : h.1 ≠ b := fun heq => hfound ⟨hlt, hget ▸ heq⟩
        rw [hd] at hy
        rcases List.mem_cons.mp hy with rfl | hy
        · exact lt_of_le_of_ne hhb hhne.symm
        · exact (lt_of_le_of_ne hhb hhne.symm).trans ((List.pairwise_cons.mp hsd).1 y hy)
    · intro k hbk
      rw [List.getLast?_take]
      by_cases hzero : ib = 0
      · simp [hzero, entryEffect, RangeMutation.init]
      · -- the entry before the new boundary lies below `k`
        have hprev : ib - 1 < buf.mutations.length := by omega
        have hmemT : buf.mutations[ib - 1] ∈ buf.mutations.take ib :=
          List.mem_take_iff_getElem.mpr ⟨ib - 1, by simp; omega, rfl⟩
        have hne : buf.mutations[ib - 1].1 ≠ k := ((hT _ hmemT).trans_le hbk).ne
        rw [if_neg hzero, List.getElem?_eq_getElem hprev, Option.some_or, Option.bind_some,
          List.getD_eq_getElem _ _ hprev]
        cases hc : buf.mutations[ib - 1].2.clearAfterBoundary <;>
          simp [entryEffect, hne, hc, hzero, RangeMutation.init, RangeMutation.clearAll,
            RangeMutation.clearBoundary]

lemma sorted_insert (hs : Sorted Prod.fst buf.mutations) (b : Key) :
    Sorted Prod.fst (buf.insert b).mutations := by
  rcases insert_cases hs b with ⟨-, h⟩ | ⟨T, R, m, hl, hins, hT, hR, -⟩
  · rwa [h]
  · rw [hl] at hs
    rw [hins]
    exact sorted_append_cons (hs.sublist (List.sublist_append_left T R))
      (hs.sublist (List.sublist_append_right T R)) hT hR

lemma mem_insert_of_mem (hs : Sorted Prod.fst buf.mutations) (b : Key) {x : Key × RangeMutation}
    (hx : x ∈ buf.mutations) : x ∈ (buf.insert b).mutations := by
  rcases insert_cases hs b with ⟨-, h⟩ | ⟨T, R, m, hl, hins, -⟩
  · rwa [h]
  · rw [hl] at hx
    rw [hins]
    rcases List.mem_append.mp hx with hx | hx
    · exact List.mem_append_left _ hx
    · exact List.mem_append_right _ (List.mem_cons_of_mem _ hx)

lemma exists_mem_insert (hs : Sorted Prod.fst buf.mutations) (b : Key) :
    ∃ m, (b, m) ∈ (buf.insert b).mutations := by
  rcases insert_cases hs b with ⟨hb, h⟩ | ⟨T, R, m, -, hins, -⟩
  · rwa [h]
  · exact ⟨m, by rw [hins]; exact List.mem_append_right _ List.mem_cons_self⟩

lemma effect_insert (hs : Sorted Prod.fst buf.mutations) (b k : Key) :
    (buf.insert b).effect k = buf.effect k := by
  rcases insert_cases hs b with ⟨-, h⟩ | ⟨T, R, m, hl, hins, hT, hR, hm⟩
  · rw [h]
  · simp only [MutationBuffer.effect, hins, hl]
    rcases lt_or_ge k b with hkb | hbk
    · -- the new boundary and all after it lie above `k`
      have hR' : ∀ y ∈ R, k < y.1 := fun y hy => hkb.trans (hR y hy)
      have hbR : ∀ y ∈ (b, m) :: R, k < y.1 := by
        intro y hy
        rcases List.mem_cons.mp hy with rfl | hy
        · exact hkb
        · exact hR' y hy
      rw [lastLE_append_of_lt hbR, lastLE_append_of_lt hR']
    · -- below the boundaries of `R` at or before `k`, the new one takes the place of `T`'s last
      rw [lastLE_append_cons_of_le hbk, lastLE_append, ← List.singleton_append, lastLE_append]
      cases hr : lastLE Prod.fst R k with
      | some e => rfl
      | none =>
        have hTk : ∀ y ∈ T, y.1 ≤ k := fun y hy => (hT y hy).le.trans hbk
        rw [lastLE_eq_getLast? hTk]
        simp [lastLE, hbk, hm k hbk]

end Insert

section Modify

open Keyed

variable {buf : MutationBuffer}

lemma sorted_modify (hs : Sorted Prod.fst buf.mutations) (b : Key) (f : RangeMutation → RangeMutation) :
    Sorted Prod.fst (buf.modify b f).mutations := by
  simp only [MutationBuffer.modify, Sorted, List.pairwise_map]
  refine hs.imp fun {x y} hxy => ?_
  split_ifs <;> exact hxy

lemma effect_modify (hs : Sorted Prod.fst buf.mutations) {b : Key} {m : RangeMutation}
    (hb : (b, m) ∈ buf.mutations) {f : RangeMutation → RangeMutation}
    (hf : ∀ m, (f m).clearAfterBoundary = m.clearAfterBoundary) (k : Key) :
    (buf.modify b f).effect k = if k = b then entryEffect b (b, f m) else buf.effect k := by
  have hkey : ∀ e : Key × RangeMutation, (if e.1 = b then (e.1, f e.2) else e).1 = e.1 := by
    intro e
    split_ifs <;> rfl
  simp only [MutationBuffer.effect, MutationBuffer.modify, lastLE_map hkey]
  split_ifs with hk
  · subst hk
    rw [hs.lastLE_eq_of hb le_rfl fun y _ hy => hy]
    simp
  · cases lastLE Prod.fst buf.mutations k with
    | none => rfl
    | some e =>
      simp only [Option.map_some, Option.bind_some]
      split_ifs with he
      · -- the range after the boundary is cleared as before
        simp [entryEffect, he, Ne.symm hk, hf]
      · rfl

lemma erase_modify_clearAll (hs : Sorted Prod.fst buf.mutations) {a b : Key} {ma mb : RangeMutation}
    (ha : (a, ma) ∈ buf.mutations) (hb : (b, mb) ∈ buf.mutations) (hab : a < b) :
    ∃ T B C, buf.mutations = T ++ (a, ma) :: (B ++ (b, mb) :: C) ∧
      ((buf.modify a clearAll).erase (lowerBound Prod.fst buf.mutations a + 1)
        (lowerBound Prod.fst buf.mutations b)).mutations = T ++ (a, ma.clearAll) :: (b, mb) :: C ∧
      (∀ y ∈ T, y.1 < a) ∧ (∀ y ∈ B, a < y.1 ∧ y.1 < b) ∧ ∀ y ∈ C, b < y.1 := by
  obtain ⟨T, R, hl, hT, hR⟩ := hs.split_of_mem ha
  have hbR : (b, mb) ∈ R := by
    rw [hl] at hb
    rcases List.mem_append.mp hb with hb | hb
    · exact absurd (hT _ hb) (not_lt.mpr hab.le)
    · rcases List.mem_cons.mp hb with heq | hb
      · exact absurd (congrArg Prod.fst heq) hab.ne'
      · exact hb
  have hRs : Sorted Prod.fst R := by
    rw [hl] at hs
    exact hs.sublist ((List.sublist_cons_self _ R).trans (List.sublist_append_right T _))
  obtain ⟨B, C, rfl, hB, hC⟩ := hRs.split_of_mem hbR
  have hia : lowerBound Prod.fst buf.mutations a = T.length := by
    rw [hl]
    refine lowerBound_append hT fun y hy => ?_
    rcases List.mem_cons.mp hy with rfl | hy
    · exact le_rfl
    · exact (hR y hy).le
  have hib : lowerBound Prod.fst buf.mutations b = T.length + (B.length + 1) := by
    have hsplit : buf.mutations = (T ++ (a, ma) :: B) ++ (b, mb) :: C := by simp [hl]
    have hlow : ∀ y ∈ T ++ (a, ma) :: B, y.1 < b := by
      intro y hy
      simp only [List.mem_append, List.mem_cons] at hy
      rcases hy with hy | rfl | hy
      · exact (hT y hy).trans hab
      · exact hab
      · exact hB y hy
    have hhigh : ∀ y ∈ (b, mb) :: C, b ≤ y.1 := by
      intro y hy
      rcases List.mem_cons.mp hy with rfl | hy
      · exact le_rfl
      · exact (hC y hy).le
    rw [hsplit, lowerBound_append hlow hhigh]
    simp
  -- the change reaches the first boundary only
  have hid : ∀ y ∈ T ++ (b, mb) :: C, (if y.1 = a then (y.1, clearAll y.2) else y) = y := by
    intro y hy
    have hne : y.1 ≠ a := by
      simp only [List.mem_append, List.mem_cons] at hy
      rcases hy with hy | rfl | hy
      · exact (hT y hy).ne
      · exact hab.ne'
      · exact (hab.trans (hC y hy)).ne'
    simp [hne]
  have hT' : T.map (fun y => if y.1 = a then (y.1, clearAll y.2) else y) = T :=
    (List.map_congr_left fun y hy => hid y (List.mem_append_left _ hy)).trans (List.map_id T)
  have hC' : C.map (fun y => if y.1 = a then (y.1, clearAll y.2) else y) = C :=
    (List.map_congr_left fun y hy => hid y (List.mem_append_right _ (List.mem_cons_of_mem _ hy))).trans
      (List.map_id C)
  refine ⟨T, B, C, hl, ?_, hT, fun y hy => ⟨hR y (List.mem_append_left _ hy), hB y hy⟩, hC⟩
  rw [MutationBuffer.erase, MutationBuffer.modify, hia, hib]
  simp only [hl, List.map_append, List.map_cons, hT', hC', if_neg hab.ne', if_true,
    List.take_length_add_append, List.drop_length_add_append, List.take_succ_cons, List.take_zero,
    List.drop_succ_cons]
  rw [List.drop_left' (List.length_map _), List.append_assoc, List.singleton_append]

end Modify

section Calls

open Keyed

variable {buf : MutationBuffer}

lemma sorted_set (hs : Sorted Prod.fst buf.mutations) (key : Key) (value : Value) :
    Sorted Prod.fst (set buf key value).mutations :=
  sorted_modify (sorted_insert hs key) key _

lemma effect_set (hs : Sorted Prod.fst buf.mutations) (key : Key) (value : Value) (k : Key) :
    (set buf key value).effect k = if k = key then some (some value) else buf.effect k := by
  obtain ⟨m, hm⟩ := exists_mem_insert hs key
  rw [set, effect_modify (sorted_insert hs key) hm (clearAfterBoundary_setBoundaryValue · value),
    effect_insert hs]
  simp [entryEffect, setBoundaryValue]

lemma IsSingleKeyClear.end_eq {r : KeyRangeRef} (h : IsSingleKeyClear r) :
    r.end = RYW.keyAfter r.begin := by
  obtain ⟨hlen, hlast, t, ht⟩ := h
  have ht1 : t.length = 1 := by
    rw [← ht, List.length_append] at hlen
    omega
  obtain ⟨x, rfl⟩ := List.length_eq_one_iff.mp ht1
  rw [← ht, List.getLast?_append, List.getLast?_singleton, Option.some_or, Option.some.injEq] at hlast
  rw [← ht, hlast]
  rfl

lemma IsSingleKeyClear.contains_iff {r : KeyRangeRef} (h : IsSingleKeyClear r) {k : Key} :
    r.contains k ↔ k = r.begin := by
  rw [KeyRangeRef.contains, h.end_eq, RYW.lt_keyAfter_iff, le_antisymm_iff, and_comm]

lemma clear_eq_of_not_single (hs : Sorted Prod.fst buf.mutations) {r : KeyRangeRef}
    (hr : r.begin < r.end) (hsingle : ¬IsSingleKeyClear r) :
    ∃ T B C ma mb,
      ((buf.insert r.begin).insert r.end).mutations = T ++ (r.begin, ma) :: (B ++ (r.end, mb) :: C) ∧
      (clear buf r).mutations = T ++ (r.begin, ma.clearAll) :: (r.end, mb) :: C ∧
      (∀ y ∈ T, y.1 < r.begin) ∧ (∀ y ∈ B, r.begin < y.1 ∧ y.1 < r.end) ∧ ∀ y ∈ C, r.end < y.1 := by
  have hs₁ := sorted_insert hs r.begin
  obtain ⟨ma, ha⟩ := exists_mem_insert hs r.begin
  obtain ⟨mb, hb⟩ := exists_mem_insert hs₁ r.end
  obtain ⟨T, B, C, hl, herase, hT, hB, hC⟩ :=
    erase_modify_clearAll (sorted_insert hs₁ r.end) (mem_insert_of_mem hs₁ r.end ha) hb hr
  refine ⟨T, B, C, ma, mb, hl, ?_, hT, hB, hC⟩
  rw [clear, if_neg hsingle]
  exact herase

lemma sorted_clear (hs : Sorted Prod.fst buf.mutations) {r : KeyRangeRef} (hr : r.begin < r.end) :
    Sorted Prod.fst (clear buf r).mutations := by
  by_cases hsingle : IsSingleKeyClear r
  · rw [clear, if_pos hsingle]
    exact sorted_modify (sorted_insert hs _) _ _
  · obtain ⟨T, B, C, ma, mb, hl, hclear, hT, -, hC⟩ := clear_eq_of_not_single hs hr hsingle
    have hs₂ := sorted_insert (sorted_insert hs r.begin) r.end
    rw [hl] at hs₂
    rw [hclear]
    refine sorted_append_cons (hs₂.sublist (List.sublist_append_left _ _))
      (List.pairwise_cons.mpr ⟨hC, ?_⟩) hT fun y hy => ?_
    · exact hs₂.sublist ((List.sublist_cons_self (r.end, mb) C).trans ((List.sublist_append_right B _).trans
        ((List.sublist_cons_self (r.begin, ma) _).trans (List.sublist_append_right T _))))
    · rcases List.mem_cons.mp hy with rfl | hy
      · exact hr
      · exact hr.trans (hC y hy)

lemma effect_clear (hs : Sorted Prod.fst buf.mutations) {r : KeyRangeRef} (hr : r.begin < r.end)
    (k : Key) : (clear buf r).effect k = if r.contains k then some none else buf.effect k := by
  by_cases hsingle : IsSingleKeyClear r
  · obtain ⟨m, hm⟩ := exists_mem_insert hs r.begin
    rw [clear, if_pos hsingle, effect_modify (sorted_insert hs _) hm clearAfterBoundary_clearBoundary,
      effect_insert hs]
    simp only [hsingle.contains_iff]
    split_ifs <;> simp [entryEffect, clearBoundary]
  obtain ⟨T, B, C, ma, mb, hl, hclear, hT, hB, hC⟩ := clear_eq_of_not_single hs hr hsingle
  rw [← effect_insert hs r.begin k, ← effect_insert (sorted_insert hs r.begin) r.end k]
  simp only [MutationBuffer.effect, hclear, hl]
  rcases lt_or_ge k r.begin with hka | hak
  · -- below the range both lists read `T`
    have hafter : ∀ y ∈ (r.begin, ma.clearAll) :: (r.end, mb) :: C, k < y.1 := by
      intro y hy
      simp only [List.mem_cons] at hy
      rcases hy with rfl | rfl | hy
      · exact hka
      · exact hka.trans hr
      · exact (hka.trans hr).trans (hC y hy)
    have hafter' : ∀ y ∈ (r.begin, ma) :: (B ++ (r.end, mb) :: C), k < y.1 := by
      intro y hy
      simp only [List.mem_cons, List.mem_append] at hy
      rcases hy with rfl | hy | rfl | hy
      · exact hka
      · exact hka.trans (hB y hy).1
      · exact hka.trans hr
      · exact (hka.trans hr).trans (hC y hy)
    rw [if_neg fun h => absurd h.1 (not_le.mpr hka), lastLE_append_of_lt hafter,
      lastLE_append_of_lt hafter']
  rcases lt_or_ge k r.end with hkb | hbk
  · -- inside the range the begin boundary, now cleared with all after it, is the last one
    have hafter : ∀ y ∈ (r.end, mb) :: C, k < y.1 := by
      intro y hy
      rcases List.mem_cons.mp hy with rfl | hy
      · exact hkb
      · exact hkb.trans (hC y hy)
    have hak' : (r.begin, ma.clearAll).1 ≤ k := hak
    rw [if_pos ⟨hak, hkb⟩, lastLE_append_cons_of_le hak', lastLE_cons_of_lt hak' hafter]
    simp [entryEffect, clearAll, clearBoundary]
  · -- from the end boundary on both lists read the same entries
    rw [if_neg fun h => absurd h.2 (not_lt.mpr hbk)]
    have hL : T ++ (r.begin, ma.clearAll) :: (r.end, mb) :: C =
        (T ++ [(r.begin, ma.clearAll)]) ++ (r.end, mb) :: C := by simp
    have hR : T ++ (r.begin, ma) :: (B ++ (r.end, mb) :: C) =
        (T ++ (r.begin, ma) :: B) ++ (r.end, mb) :: C := by simp
    have hbk' : (r.end, mb).1 ≤ k := hbk
    rw [hL, hR, lastLE_append_cons_of_le hbk', lastLE_append_cons_of_le hbk']

lemma effect_apply (hs : Sorted Prod.fst buf.mutations) {op : BufferOp} (hop : op.WellFormed)
    (k : Key) : (op.apply buf).effect k = op.effectOn k (buf.effect k) := by
  cases op with
  | set key value => exact effect_set hs key value k
  | clear range => exact effect_clear hs hop k

lemma sorted_apply (hs : Sorted Prod.fst buf.mutations) {op : BufferOp} (hop : op.WellFormed) :
    Sorted Prod.fst (op.apply buf).mutations := by
  cases op with
  | set key value => exact sorted_set hs key value
  | clear range => exact sorted_clear hs hop

lemma effect_run (hs : Sorted Prod.fst buf.mutations) (ops : List BufferOp)
    (hops : ∀ op ∈ ops, op.WellFormed) (k : Key) :
    (run buf ops).effect k = ops.foldl (fun w op => op.effectOn k w) (buf.effect k) := by
  induction ops generalizing buf with
  | nil => rfl
  | cons op ops ih =>
    have hop := hops op List.mem_cons_self
    rw [run, List.foldl_cons, ← run, List.foldl_cons,
      ih (sorted_apply hs hop) (fun op' h => hops op' (List.mem_cons_of_mem _ h)), effect_apply hs hop]

end Calls

section Init

open Keyed

lemma sorted_init : Sorted Prod.fst MutationBuffer.init.mutations := by
  decide

lemma effect_init {k : Key} (hk : k ≠ dbEnd) : MutationBuffer.init.effect k = none := by
  have hbegin : (dbBegin, RangeMutation.init).1 ≤ k := dbBegin_le k
  rcases lt_or_gt_of_ne hk with hlt | hgt
  · have hafter : ∀ y ∈ [(dbEnd, RangeMutation.init.clearBoundary)], k < y.1 := by simpa using hlt
    rw [MutationBuffer.effect, MutationBuffer.init, lastLE_cons_of_lt hbegin hafter]
    simp [entryEffect, RangeMutation.init]
  · have hend : (dbEnd, RangeMutation.init.clearBoundary).1 ≤ k := hgt.le
    rw [MutationBuffer.effect, MutationBuffer.init, ← List.singleton_append,
      lastLE_append_cons_of_le hend, lastLE_cons_of_lt hend fun y hy => by cases hy]
    simp [entryEffect, hk.symm, RangeMutation.init]

end Init

section Meaning

lemma applyTo_getD (M : Key → Option Value) (w : Key → Option (Option Value)) (op : BufferOp) :
    op.applyTo (fun x => (w x).getD (M x)) = fun x => (op.effectOn x (w x)).getD (M x) := by
  funext x
  cases op with
  | set key value => by_cases hx : x = key <;> simp [BufferOp.applyTo, BufferOp.effectOn, hx]
  | clear range => by_cases hx : range.contains x <;> simp [BufferOp.applyTo, BufferOp.effectOn, hx]

lemma applyAll_getD (M : Key → Option Value) (w : Key → Option (Option Value)) (ops : List BufferOp)
    (k : Key) : applyAll (fun x => (w x).getD (M x)) ops k =
      (ops.foldl (fun w op => op.effectOn k w) (w k)).getD (M k) := by
  induction ops generalizing w with
  | nil => rfl
  | cons op ops ih =>
    rw [applyAll, List.foldl_cons, ← applyAll, applyTo_getD, ih, List.foldl_cons]

theorem denote_run_init (ops : List BufferOp) (hops : ∀ op ∈ ops, op.WellFormed)
    (M : Key → Option Value) {k : Key} (hk : k ≠ dbEnd) :
    (run MutationBuffer.init ops).denote M k = applyAll M ops k := by
  have happly := applyAll_getD M (fun _ => none) ops k
  rw [MutationBuffer.denote, effect_run sorted_init ops hops, effect_init hk]
  exact happly.symm

/-- A clear of `[1, 2)` over a map holding `7` everywhere: the key `2` keeps its value. -/
theorem denote_run_init_clear :
    (run MutationBuffer.init [.clear ⟨[1], [2], by decide⟩]).denote (fun _ => some [7]) [2] =
      applyAll (fun _ => some [7]) [.clear ⟨[1], [2], by decide⟩] [2] :=
  denote_run_init [.clear ⟨[1], [2], by decide⟩]
    (by simp only [List.mem_singleton, forall_eq, BufferOp.WellFormed]; decide) _ (by decide)

/-- Read with unchanged boundaries taking the range below them, the same buffer clears the key
`2`, the end of the range, which the clear leaves. -/
theorem inheritedDenote_run_clear_ne :
    (run MutationBuffer.init [.clear ⟨[1], [2], by decide⟩]).inheritedDenote (fun _ => some [7]) [2] ≠
      applyAll (fun _ => some [7]) [.clear ⟨[1], [2], by decide⟩] [2] := by
  decide

end Meaning

end FoundationDB.Redwood
