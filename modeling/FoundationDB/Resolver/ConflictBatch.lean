import FoundationDB.Resolver.SortPoints

/-! A resolver's batch of transactions against one another (`ConflictBatch` in `SkipList.cpp`).
`addTransaction` turns each conflict range into two points. Once the points are sorted, each
point's position becomes the index of its end of its range. A read of a transaction then
conflicts with the batch when its index interval meets a write interval that an earlier,
committing transaction set in a `MiniConflictSet`. The write ranges of the committing
transactions are combined into disjoint ranges by a sweep over the sorted points that counts
the open ones. -/

namespace FoundationDB.Resolver

/-- `TransactionInfo`. Its index pairs live in the slots the points' `pIndex` name, so the
model keeps how many of them there are and reads them from the slots (`readRanges`). -/
structure TransactionInfo where
  readRangeCount : ℕ
  writeRangeCount : ℕ
  tooOld : Bool
  reportConflictingKeys : Bool
deriving DecidableEq, Inhabited, Repr

structure ConflictBatch where
  transactionInfo : List TransactionInfo
  points : List KeyInfo
  transactionCount : ℕ

def ConflictBatch.empty : ConflictBatch := ⟨[], [], 0⟩

/-- What a `pIndex` points at: the first (`begin`) or second index of range `range` among a
transaction's read or write ranges. -/
structure Slot where
  transaction : ℕ
  write : Bool
  range : ℕ
  begin : Bool
deriving DecidableEq, Repr

def KeyInfo.slot (ki : KeyInfo) : Slot := ⟨ki.transaction, ki.write, ki.pIndex, ki.begin⟩

/-- `tr.read_snapshot < cs->oldestVersion && tr.read_conflict_ranges.size()`. -/
def isTooOld (oldestVersion : ℤ) (tr : CommitTransactionRef) : Bool :=
  decide (tr.readSnapshot < oldestVersion) && !tr.readConflictRanges.isEmpty

/-- The two points of each range: its begin, then its end. -/
def rangePoints (t : ℕ) (write : Bool) (ranges : List KeyRangeRef) : List KeyInfo :=
  ranges.zipIdx.flatMap fun (range, r) =>
    [{ key := range.begin, pIndex := r, begin := true, write := write, transaction := t },
      { key := range.end, pIndex := r, begin := false, write := write, transaction := t }]

/-- `addTransaction`: a transaction too old gives no points; another gives its read ranges'
points, then its write ranges'. -/
def addTransaction (oldestVersion : ℤ) (cb : ConflictBatch) (tr : CommitTransactionRef) :
    ConflictBatch :=
  let t := cb.transactionCount
  if isTooOld oldestVersion tr then
    { cb with
      transactionInfo := cb.transactionInfo ++ [⟨0, 0, true, tr.reportConflictingKeys⟩]
      transactionCount := t + 1 }
  else
    { transactionInfo := cb.transactionInfo ++
        [⟨tr.readConflictRanges.length, tr.writeConflictRanges.length, false,
          tr.reportConflictingKeys⟩]
      points := cb.points ++ rangePoints t false tr.readConflictRanges ++
        rangePoints t true tr.writeConflictRanges
      transactionCount := t + 1 }

/-- The batch of a resolve request's transactions, in order. -/
def addTransactions (oldestVersion : ℤ) (trs : List CommitTransactionRef) : ConflictBatch :=
  trs.foldl (addTransaction oldestVersion) ConflictBatch.empty

/-- `*points[p].pIndex = index++`: each slot gets its point's position. -/
def assignIndices (points : List KeyInfo) : Slot → ℕ :=
  points.zipIdx.foldl (fun slots pi => Function.update slots pi.1.slot pi.2) fun _ => 0

def TransactionInfo.readRanges (info : TransactionInfo) (t : ℕ) (slots : Slot → ℕ) :
    List (ℕ × ℕ) :=
  (List.range info.readRangeCount).map fun r => (slots ⟨t, false, r, true⟩, slots ⟨t, false, r, false⟩)

def TransactionInfo.writeRanges (info : TransactionInfo) (t : ℕ) (slots : Slot → ℕ) :
    List (ℕ × ℕ) :=
  (List.range info.writeRangeCount).map fun r => (slots ⟨t, true, r, true⟩, slots ⟨t, true, r, false⟩)

/-- `MiniConflictSet`: a bit for each point index. -/
structure MiniConflictSet where
  values : ℕ → Bool

namespace MiniConflictSet

def init : MiniConflictSet := ⟨fun _ => false⟩

def set (mcs : MiniConflictSet) (begin «end» : ℕ) : MiniConflictSet :=
  ⟨fun i => mcs.values i || (decide (begin ≤ i) && decide (i < «end»))⟩

def any (mcs : MiniConflictSet) (begin «end» : ℕ) : Bool :=
  (List.range' begin («end» - begin)).any mcs.values

end MiniConflictSet

/-- The state `checkIntraBatchConflicts` carries over the transactions. -/
structure IntraBatchState where
  mcs : MiniConflictSet
  transactionConflictStatus : ℕ → Bool
  conflictingKeyRangeMap : ℕ → List ℕ

/-- One turn of `checkIntraBatchConflicts`: a transaction not already conflicting conflicts
when it is too old or one of its reads meets the writes set so far (the first such read is
reported when asked); when it does not, its writes are set. -/
def checkTransaction (transactionInfo : List TransactionInfo) (slots : Slot → ℕ)
    (s : IntraBatchState) (t : ℕ) : IntraBatchState :=
  let tr := transactionInfo.getD t default
  if s.transactionConflictStatus t then s
  else
    let hit := (tr.readRanges t slots).findIdx? fun r => s.mcs.any r.1 r.2
    let conflict := tr.tooOld || hit.isSome
    { mcs := if conflict then s.mcs
        else (tr.writeRanges t slots).foldl (fun mcs w => mcs.set w.1 w.2) s.mcs
      transactionConflictStatus := Function.update s.transactionConflictStatus t conflict
      conflictingKeyRangeMap := match hit with
        | some i => if tr.reportConflictingKeys then
            Function.update s.conflictingKeyRangeMap t (s.conflictingKeyRangeMap t ++ [i])
          else s.conflictingKeyRangeMap
        | none => s.conflictingKeyRangeMap }

/-- `checkIntraBatchConflicts`, from the statuses `checkReadConflictRanges` left. -/
def checkIntraBatchConflicts (cb : ConflictBatch) (transactionConflictStatus : ℕ → Bool)
    (conflictingKeyRangeMap : ℕ → List ℕ) : IntraBatchState :=
  (List.range cb.transactionInfo.length).foldl
    (checkTransaction cb.transactionInfo (assignIndices cb.points))
    ⟨MiniConflictSet.init, transactionConflictStatus, conflictingKeyRangeMap⟩

/-- One point of the sweep of `combineWriteConflictRanges`: the write points of transactions
that commit count the open ranges; a range opens when the count reaches one and closes when it
falls back to zero. -/
def combineStep (transactionConflictStatus : ℕ → Bool) (s : ℤ × List (Key × Key))
    (point : KeyInfo) : ℤ × List (Key × Key) :=
  if point.write && !transactionConflictStatus point.transaction then
    if point.begin then
      (s.1 + 1, if s.1 + 1 = 1 then s.2 ++ [(point.key, [])] else s.2)
    else
      (s.1 - 1, if s.1 - 1 = 0 then s.2.modifyLast (fun r => (r.1, point.key)) else s.2)
  else s

def combineWriteConflictRanges (points : List KeyInfo) (transactionConflictStatus : ℕ → Bool) :
    List (Key × Key) :=
  (points.foldl (combineStep transactionConflictStatus) (0, [])).2

/-- `detectConflicts` up to the conflict set's history: the points sorted, the statuses
`checkReadConflictRanges` leaves taken as given, the batch checked against itself, the writes
of the committing transactions combined; the transactions that commit and those too old. -/
def detectConflicts (cb : ConflictBatch) (readConflicts : ℕ → Bool) :
    List ℕ × List ℕ × List (Key × Key) :=
  let cb := { cb with points := sortPoints cb.points }
  let status := (checkIntraBatchConflicts cb readConflicts fun _ => []).transactionConflictStatus
  let tooOld := (List.range cb.transactionCount).filter fun i => (cb.transactionInfo.getD i default).tooOld
  let nonConflicting := (List.range cb.transactionCount).filter fun i =>
    !(cb.transactionInfo.getD i default).tooOld && !status i
  (nonConflicting, tooOld, combineWriteConflictRanges cb.points status)

section Batch

variable (oldestVersion : ℤ)

/-- The info `addTransaction` records for a transaction. -/
def transactionInfoOf (tr : CommitTransactionRef) : TransactionInfo :=
  if isTooOld oldestVersion tr then ⟨0, 0, true, tr.reportConflictingKeys⟩
  else ⟨tr.readConflictRanges.length, tr.writeConflictRanges.length, false, tr.reportConflictingKeys⟩

/-- The points `addTransaction` adds for the transaction numbered `t`. -/
def transactionPoints (tr : CommitTransactionRef) (t : ℕ) : List KeyInfo :=
  if isTooOld oldestVersion tr then []
  else rangePoints t false tr.readConflictRanges ++ rangePoints t true tr.writeConflictRanges

lemma foldl_addTransaction (trs : List CommitTransactionRef) (cb : ConflictBatch) :
    trs.foldl (addTransaction oldestVersion) cb =
      ⟨cb.transactionInfo ++ trs.map (transactionInfoOf oldestVersion),
        cb.points ++ (trs.zipIdx cb.transactionCount).flatMap
          fun p => transactionPoints oldestVersion p.1 p.2,
        cb.transactionCount + trs.length⟩ := by
  induction trs generalizing cb with
  | nil => simp
  | cons tr trs ih =>
    rw [List.foldl_cons, ih, List.zipIdx_cons, List.flatMap_cons]
    by_cases htr : isTooOld oldestVersion tr
    · simp [addTransaction, transactionInfoOf, transactionPoints, htr, Nat.add_assoc, Nat.add_comm 1]
    · simp [addTransaction, transactionInfoOf, transactionPoints, htr, Nat.add_assoc, Nat.add_comm 1]

lemma transactionInfo_addTransactions (trs : List CommitTransactionRef) :
    (addTransactions oldestVersion trs).transactionInfo = trs.map (transactionInfoOf oldestVersion) := by
  simp [addTransactions, foldl_addTransaction, ConflictBatch.empty]

lemma points_addTransactions (trs : List CommitTransactionRef) :
    (addTransactions oldestVersion trs).points =
      trs.zipIdx.flatMap fun p => transactionPoints oldestVersion p.1 p.2 := by
  simp [addTransactions, foldl_addTransaction, ConflictBatch.empty]

end Batch

section Slots

lemma map_slot_rangePoints (t : ℕ) (write : Bool) (ranges : List KeyRangeRef) (n : ℕ) :
    ((ranges.zipIdx n).flatMap fun (range, r) =>
      [{ key := range.begin, pIndex := r, begin := true, write := write, transaction := t },
        { key := range.end, pIndex := r, begin := false, write := write, transaction := t }]).map
        KeyInfo.slot =
      (List.range' n ranges.length).flatMap fun r => [⟨t, write, r, true⟩, ⟨t, write, r, false⟩] := by
  induction ranges generalizing n with
  | nil => rfl
  | cons range ranges ih =>
    rw [List.zipIdx_cons, List.flatMap_cons, List.map_append, ih, List.length_cons,
      List.range'_succ, List.flatMap_cons]
    rfl

lemma nodup_rangeSlots (t : ℕ) (write : Bool) (n m : ℕ) :
    ((List.range' n m).flatMap fun r => ([⟨t, write, r, true⟩, ⟨t, write, r, false⟩] : List Slot)).Nodup := by
  refine List.nodup_flatMap.mpr ⟨fun r _ => by simp, ?_⟩
  refine (@List.pairwise_lt_range' n m 1 Nat.one_pos).imp fun {r r'} hrr' s hs hs' => ?_
  -- a slot names the range it belongs to
  have hrange : ∀ r, s ∈ ([⟨t, write, r, true⟩, ⟨t, write, r, false⟩] : List Slot) → s.range = r := by
    intro r hr
    simp only [List.mem_cons, List.not_mem_nil, or_false] at hr
    rcases hr with rfl | rfl <;> rfl
  have h₁ := hrange r hs
  have h₂ := hrange r' hs'
  omega

lemma map_slot_transactionPoints (oldestVersion : ℤ) (tr : CommitTransactionRef) (t : ℕ) :
    (transactionPoints oldestVersion tr t).map KeyInfo.slot =
      if isTooOld oldestVersion tr then []
      else (List.range' 0 tr.readConflictRanges.length).flatMap
          (fun r => [⟨t, false, r, true⟩, ⟨t, false, r, false⟩]) ++
        (List.range' 0 tr.writeConflictRanges.length).flatMap
          (fun r => [⟨t, true, r, true⟩, ⟨t, true, r, false⟩]) := by
  unfold transactionPoints rangePoints
  split_ifs
  · rfl
  · rw [List.map_append, map_slot_rangePoints, map_slot_rangePoints]

lemma nodup_slots_addTransactions (oldestVersion : ℤ) (trs : List CommitTransactionRef) :
    ((addTransactions oldestVersion trs).points.map KeyInfo.slot).Nodup := by
  rw [points_addTransactions, List.map_flatMap]
  -- one transaction's slots name it, and each of them once
  have hone : ∀ (tr : CommitTransactionRef) t, ((transactionPoints oldestVersion tr t).map
      KeyInfo.slot).Nodup ∧ ∀ s ∈ (transactionPoints oldestVersion tr t).map KeyInfo.slot,
        s.transaction = t := by
    intro tr t
    rw [map_slot_transactionPoints]
    split_ifs
    · simp
    · refine ⟨List.nodup_append.mpr ⟨nodup_rangeSlots _ _ _ _, nodup_rangeSlots _ _ _ _, ?_⟩, ?_⟩
      · intro a ha b hb hab
        simp only [List.mem_flatMap, List.mem_cons, List.not_mem_nil] at ha hb
        obtain ⟨_, _, ha⟩ := ha
        obtain ⟨_, _, hb⟩ := hb
        subst hab
        rcases ha with rfl | rfl | h <;> rcases hb with h' | h' | h' <;> simp_all
      · intro s hs
        simp only [List.mem_append, List.mem_flatMap, List.mem_cons, List.not_mem_nil] at hs
        rcases hs with ⟨_, _, rfl | rfl | h⟩ | ⟨_, _, rfl | rfl | h⟩ <;> simp_all
  refine List.nodup_flatMap.mpr ⟨fun p _ => (hone p.1 p.2).1, ?_⟩
  refine (List.pairwise_iff_getElem.mpr fun i j hi hj hij => ?_)
  intro s hs hs'
  have h1 := (hone _ _).2 s hs
  have h2 := (hone _ _).2 s hs'
  simp only [List.getElem_zipIdx] at h1 h2
  omega

end Slots

section Indices

lemma foldl_update_zipIdx_of_not_mem {l : List KeyInfo} {s : Slot} (hs : s ∉ l.map KeyInfo.slot)
    (n : ℕ) (init : Slot → ℕ) :
    (l.zipIdx n).foldl (fun slots pi => Function.update slots pi.1.slot pi.2) init s = init s := by
  induction l generalizing n init with
  | nil => rfl
  | cons p l ih =>
    rw [List.map_cons, List.mem_cons, not_or] at hs
    rw [List.zipIdx_cons, List.foldl_cons, ih hs.2]
    exact Function.update_of_ne hs.1 _ _

lemma foldl_update_zipIdx {l : List KeyInfo} (hnd : (l.map KeyInfo.slot).Nodup) (n : ℕ)
    (init : Slot → ℕ) : ∀ i (hi : i < l.length),
    (l.zipIdx n).foldl (fun slots pi => Function.update slots pi.1.slot pi.2) init l[i].slot =
      n + i := by
  induction l generalizing n init with
  | nil => intro i hi; simp at hi
  | cons p l ih =>
    intro i hi
    rw [List.map_cons, List.nodup_cons] at hnd
    rw [List.zipIdx_cons, List.foldl_cons]
    cases i with
    | zero =>
      -- no later point writes the first one's slot
      rw [List.getElem_cons_zero, foldl_update_zipIdx_of_not_mem hnd.1, Function.update_self]
      rfl
    | succ i =>
      rw [List.getElem_cons_succ, ih hnd.2 (n + 1) _ i (by simpa using hi)]
      omega

lemma assignIndices_getElem {points : List KeyInfo} (hnd : (points.map KeyInfo.slot).Nodup)
    (i : ℕ) (hi : i < points.length) : assignIndices points points[i].slot = i := by
  rw [assignIndices, foldl_update_zipIdx hnd 0 _ i hi, Nat.zero_add]

variable {sorted : List KeyInfo} (hnd : (sorted.map KeyInfo.slot).Nodup)
  (hsorted : sorted.Pairwise fun a b => ¬ b < a)
include hnd hsorted

lemma assignIndices_lt_of_lt {p q : KeyInfo} (hp : p ∈ sorted) (hq : q ∈ sorted) (hpq : p < q) :
    assignIndices sorted p.slot < assignIndices sorted q.slot := by
  obtain ⟨i, hi, rfl⟩ := List.getElem_of_mem hp
  obtain ⟨j, hj, rfl⟩ := List.getElem_of_mem hq
  rw [assignIndices_getElem hnd i hi, assignIndices_getElem hnd j hj]
  rcases lt_trichotomy i j with h | rfl | h
  · exact h
  · exact absurd hpq (fun h => lt_asymm h h)
  · exact absurd hpq (List.pairwise_iff_getElem.mp hsorted j i hj hi h)

lemma assignIndices_lt_iff {p q : KeyInfo} (hp : p ∈ sorted) (hq : q ∈ sorted)
    (hpq : extraOrdering p ≠ extraOrdering q) :
    assignIndices sorted p.slot < assignIndices sorted q.slot ↔ p < q := by
  refine ⟨fun h => ?_, assignIndices_lt_of_lt hnd hsorted hp hq⟩
  rcases lt_or_gt_of_extraOrdering_ne hpq with hlt | hlt
  · exact hlt
  · exact absurd (assignIndices_lt_of_lt hnd hsorted hq hp hlt) (by omega)

end Indices

section Intervals

variable (oldestVersion : ℤ) (trs : List CommitTransactionRef)

lemma mem_rangePoints {ranges : List KeyRangeRef} {r : ℕ} {range : KeyRangeRef}
    (h : ranges[r]? = some range) (t : ℕ) (write : Bool) :
    { key := range.begin, pIndex := r, begin := true, write := write, transaction := t } ∈
        rangePoints t write ranges ∧
      { key := range.end, pIndex := r, begin := false, write := write, transaction := t } ∈
        rangePoints t write ranges := by
  have hmem : (range, r) ∈ ranges.zipIdx := List.mem_zipIdx_iff_getElem?.mpr h
  constructor <;> exact List.mem_flatMap.mpr ⟨(range, r), hmem, by simp⟩

lemma mem_points_of_mem_transactionPoints {t : ℕ} {tr : CommitTransactionRef}
    (htr : trs[t]? = some tr) {x : KeyInfo} (hx : x ∈ transactionPoints oldestVersion tr t) :
    x ∈ (addTransactions oldestVersion trs).points := by
  rw [points_addTransactions]
  exact List.mem_flatMap.mpr ⟨(tr, t), List.mem_zipIdx_iff_getElem?.mpr htr, hx⟩

lemma mem_points_read {t r : ℕ} {tr : CommitTransactionRef} {rr : KeyRangeRef}
    (htr : trs[t]? = some tr) (hold : isTooOld oldestVersion tr = false)
    (hrr : tr.readConflictRanges[r]? = some rr) :
    { key := rr.begin, pIndex := r, begin := true, write := false, transaction := t } ∈
        (addTransactions oldestVersion trs).points ∧
      { key := rr.end, pIndex := r, begin := false, write := false, transaction := t } ∈
        (addTransactions oldestVersion trs).points := by
  have h := mem_rangePoints hrr t false
  constructor <;> refine mem_points_of_mem_transactionPoints oldestVersion trs htr ?_ <;>
    rw [transactionPoints, hold, if_neg Bool.false_ne_true] <;> exact List.mem_append_left _ (by tauto)

lemma mem_points_write {t w : ℕ} {tr : CommitTransactionRef} {wr : KeyRangeRef}
    (htr : trs[t]? = some tr) (hold : isTooOld oldestVersion tr = false)
    (hwr : tr.writeConflictRanges[w]? = some wr) :
    { key := wr.begin, pIndex := w, begin := true, write := true, transaction := t } ∈
        (addTransactions oldestVersion trs).points ∧
      { key := wr.end, pIndex := w, begin := false, write := true, transaction := t } ∈
        (addTransactions oldestVersion trs).points := by
  have h := mem_rangePoints hwr t true
  constructor <;> refine mem_points_of_mem_transactionPoints oldestVersion trs htr ?_ <;>
    rw [transactionPoints, hold, if_neg Bool.false_ne_true] <;> exact List.mem_append_right _ (by tauto)

lemma intervals_meet_iff {sorted : List KeyInfo}
    (hperm : sorted.Perm (addTransactions oldestVersion trs).points)
    (hsorted : sorted.Pairwise fun a b => ¬ b < a) {t t' r w : ℕ} {tr tr' : CommitTransactionRef}
    {rr wr : KeyRangeRef} (htr : trs[t]? = some tr) (htr' : trs[t']? = some tr')
    (hold : isTooOld oldestVersion tr = false) (hold' : isTooOld oldestVersion tr' = false)
    (hrr : tr.readConflictRanges[r]? = some rr) (hwr : tr'.writeConflictRanges[w]? = some wr) :
    (∃ i, assignIndices sorted ⟨t, false, r, true⟩ ≤ i ∧ i < assignIndices sorted ⟨t, false, r, false⟩ ∧
        assignIndices sorted ⟨t', true, w, true⟩ ≤ i ∧ i < assignIndices sorted ⟨t', true, w, false⟩) ↔
      rr.begin < wr.end ∧ wr.begin < rr.end ∧ rr.begin < rr.end ∧ wr.begin < wr.end := by
  have hnd : (sorted.map KeyInfo.slot).Nodup :=
    ((hperm.map _).nodup_iff).mpr (nodup_slots_addTransactions oldestVersion trs)
  obtain ⟨hrb, hre⟩ := mem_points_read oldestVersion trs htr hold hrr
  obtain ⟨hwb, hwe⟩ := mem_points_write oldestVersion trs htr' hold' hwr
  -- each pair of the four points is ordered by its keys alone
  have h₁ : assignIndices sorted ⟨t, false, r, true⟩ < assignIndices sorted ⟨t, false, r, false⟩ ↔
      rr.begin < rr.end :=
    (assignIndices_lt_iff hnd hsorted (hperm.symm.subset hrb) (hperm.symm.subset hre)
      (by simp [extraOrdering])).trans (by simp [lt_def, extraOrdering])
  have h₂ : assignIndices sorted ⟨t, false, r, true⟩ < assignIndices sorted ⟨t', true, w, false⟩ ↔
      rr.begin < wr.end :=
    (assignIndices_lt_iff hnd hsorted (hperm.symm.subset hrb) (hperm.symm.subset hwe)
      (by simp [extraOrdering])).trans (by simp [lt_def, extraOrdering])
  have h₃ : assignIndices sorted ⟨t', true, w, true⟩ < assignIndices sorted ⟨t, false, r, false⟩ ↔
      wr.begin < rr.end :=
    (assignIndices_lt_iff hnd hsorted (hperm.symm.subset hwb) (hperm.symm.subset hre)
      (by simp [extraOrdering])).trans (by simp [lt_def, extraOrdering])
  have h₄ : assignIndices sorted ⟨t', true, w, true⟩ < assignIndices sorted ⟨t', true, w, false⟩ ↔
      wr.begin < wr.end :=
    (assignIndices_lt_iff hnd hsorted (hperm.symm.subset hwb) (hperm.symm.subset hwe)
      (by simp [extraOrdering])).trans (by simp [lt_def, extraOrdering])
  constructor
  · rintro ⟨i, hi₁, hi₂, hi₃, hi₄⟩
    exact ⟨h₂.mp (by omega), h₃.mp (by omega), h₁.mp (by omega), h₄.mp (by omega)⟩
  · rintro ⟨hrw, hwr', hrr', hww⟩
    have := h₁.mpr hrr'
    have := h₂.mpr hrw
    have := h₃.mpr hwr'
    have := h₄.mpr hww
    exact ⟨max (assignIndices sorted ⟨t, false, r, true⟩) (assignIndices sorted ⟨t', true, w, true⟩),
      by omega, by omega, by omega, by omega⟩

end Intervals

namespace MiniConflictSet

lemma any_eq_true (mcs : MiniConflictSet) (begin «end» : ℕ) :
    mcs.any begin «end» = true ↔ ∃ i, begin ≤ i ∧ i < «end» ∧ mcs.values i = true := by
  rw [any, List.any_eq_true]
  constructor
  · rintro ⟨i, hi, hv⟩
    rw [List.mem_range'_1] at hi
    exact ⟨i, hi.1, by omega, hv⟩
  · rintro ⟨i, hi, hi', hv⟩
    exact ⟨i, List.mem_range'_1.mpr ⟨hi, by omega⟩, hv⟩

lemma values_foldl_set (ws : List (ℕ × ℕ)) (mcs : MiniConflictSet) (i : ℕ) :
    (ws.foldl (fun mcs w => mcs.set w.1 w.2) mcs).values i = true ↔
      mcs.values i = true ∨ ∃ w ∈ ws, w.1 ≤ i ∧ i < w.2 := by
  induction ws generalizing mcs with
  | nil => simp
  | cons w ws ih =>
    rw [List.foldl_cons, ih]
    simp only [set, Bool.or_eq_true, Bool.and_eq_true, decide_eq_true_eq, List.mem_cons,
      exists_eq_or_imp]
    tauto

end MiniConflictSet

section IntraBatch

variable (transactionInfo : List TransactionInfo) (slots : Slot → ℕ)

lemma checkTransaction_status_of_ne (s : IntraBatchState) {t t' : ℕ} (h : t' ≠ t) :
    (checkTransaction transactionInfo slots s t).transactionConflictStatus t' =
      s.transactionConflictStatus t' := by
  unfold checkTransaction
  split_ifs
  · rfl
  · exact Function.update_of_ne h _ _

lemma checkTransaction_spec (s : IntraBatchState) (t : ℕ) :
    let s' := checkTransaction transactionInfo slots s t
    (s'.transactionConflictStatus t = false → (transactionInfo.getD t default).tooOld = false) ∧
      ∀ i, s'.mcs.values i = true ↔ s.mcs.values i = true ∨
        (s'.transactionConflictStatus t = false ∧
          ∃ w ∈ (transactionInfo.getD t default).writeRanges t slots, w.1 ≤ i ∧ i < w.2) := by
  intro s'
  by_cases hs : s.transactionConflictStatus t
  · have hs' : s' = s := by simp only [s', checkTransaction, if_pos hs]
    rw [hs', hs]
    simp
  · set conflict := (transactionInfo.getD t default).tooOld ||
      (((transactionInfo.getD t default).readRanges t slots).findIdx?
        fun r => s.mcs.any r.1 r.2).isSome with hconflict
    have hstatus : s'.transactionConflictStatus t = conflict := by
      simp only [s', checkTransaction, if_neg hs, Function.update_self, conflict]
    rw [hstatus]
    refine ⟨fun h => by simp_all [conflict], fun i => ?_⟩
    by_cases hc : conflict = true
    · have hmcs : s'.mcs = s.mcs := by simp only [s', checkTransaction, if_neg hs, ← hconflict, if_pos hc]
      simp [hmcs, hc]
    · have hmcs : s'.mcs = ((transactionInfo.getD t default).writeRanges t slots).foldl
          (fun mcs w => mcs.set w.1 w.2) s.mcs := by
        simp only [s', checkTransaction, if_neg hs, ← hconflict, if_neg hc]
      rw [hmcs, MiniConflictSet.values_foldl_set]
      simp [hc]

variable (transactionConflictStatus : ℕ → Bool) (conflictingKeyRangeMap : ℕ → List ℕ)

/-- The state in which `checkIntraBatchConflicts` comes to transaction `k`. -/
def intraState (k : ℕ) : IntraBatchState :=
  (List.range k).foldl (checkTransaction transactionInfo slots)
    ⟨MiniConflictSet.init, transactionConflictStatus, conflictingKeyRangeMap⟩

lemma intraState_succ (k : ℕ) :
    intraState transactionInfo slots transactionConflictStatus conflictingKeyRangeMap (k + 1) =
      checkTransaction transactionInfo slots
        (intraState transactionInfo slots transactionConflictStatus conflictingKeyRangeMap k) k := by
  rw [intraState, List.range_succ, List.foldl_append, List.foldl_cons, List.foldl_nil]
  rfl

lemma intraState_status_stable {t k : ℕ} (ht : t < k) : ∀ k', k ≤ k' →
    (intraState transactionInfo slots transactionConflictStatus conflictingKeyRangeMap k').transactionConflictStatus t =
      (intraState transactionInfo slots transactionConflictStatus conflictingKeyRangeMap k).transactionConflictStatus t := by
  intro k' hk'
  induction k', hk' using Nat.le_induction with
  | base => rfl
  | succ k' hk' ih =>
    rw [intraState_succ, checkTransaction_status_of_ne _ _ _ (by omega), ih]

lemma intraState_values (k : ℕ) :
    (∀ t < k, (intraState transactionInfo slots transactionConflictStatus conflictingKeyRangeMap k).transactionConflictStatus t = false →
      (transactionInfo.getD t default).tooOld = false) ∧
    ∀ i, (intraState transactionInfo slots transactionConflictStatus conflictingKeyRangeMap k).mcs.values i = true ↔
      ∃ t < k, (intraState transactionInfo slots transactionConflictStatus conflictingKeyRangeMap k).transactionConflictStatus t = false ∧
        ∃ w ∈ (transactionInfo.getD t default).writeRanges t slots, w.1 ≤ i ∧ i < w.2 := by
  induction k with
  | zero => simp [intraState, MiniConflictSet.init]
  | succ k ih =>
    obtain ⟨hold, hvalues⟩ := ih
    obtain ⟨hold', hvalues'⟩ := checkTransaction_spec transactionInfo slots
      (intraState transactionInfo slots transactionConflictStatus conflictingKeyRangeMap k) k
    have hstable : ∀ t < k,
        (checkTransaction transactionInfo slots (intraState transactionInfo slots
          transactionConflictStatus conflictingKeyRangeMap k) k).transactionConflictStatus t =
        (intraState transactionInfo slots transactionConflictStatus conflictingKeyRangeMap k).transactionConflictStatus t :=
      fun t ht => checkTransaction_status_of_ne _ _ _ (by omega)
    rw [intraState_succ]
    refine ⟨fun t ht hst => ?_, fun i => ?_⟩
    · rcases Nat.lt_succ_iff_lt_or_eq.mp ht with ht | rfl
      · exact hold t ht (by rwa [hstable t ht] at hst)
      · exact hold' hst
    · rw [hvalues', hvalues]
      constructor
      · rintro (⟨t, ht, hst, hw⟩ | ⟨hst, hw⟩)
        · exact ⟨t, by omega, by rwa [hstable t ht], hw⟩
        · exact ⟨k, by omega, hst, hw⟩
      · rintro ⟨t, ht, hst, hw⟩
        rcases Nat.lt_succ_iff_lt_or_eq.mp ht with ht | rfl
        · exact .inl ⟨t, ht, by rwa [hstable t ht] at hst, hw⟩
        · exact .inr ⟨hst, hw⟩

end IntraBatch

section BatchInfo

variable (oldestVersion : ℤ) (trs : List CommitTransactionRef)

lemma tooOld_transactionInfoOf (tr : CommitTransactionRef) :
    (transactionInfoOf oldestVersion tr).tooOld = isTooOld oldestVersion tr := by
  unfold transactionInfoOf
  split_ifs with h
  · exact h.symm
  · simpa using h

lemma getD_transactionInfo {t : ℕ} {tr : CommitTransactionRef} (htr : trs[t]? = some tr) :
    (addTransactions oldestVersion trs).transactionInfo.getD t default =
      transactionInfoOf oldestVersion tr := by
  rw [transactionInfo_addTransactions, List.getD_eq_getElem?_getD, List.getElem?_map, htr]
  rfl

lemma mem_writeRanges_iff {tr : CommitTransactionRef} (hold : isTooOld oldestVersion tr = false)
    (t : ℕ) (slots : Slot → ℕ) {x : ℕ × ℕ} :
    x ∈ (transactionInfoOf oldestVersion tr).writeRanges t slots ↔
      ∃ w wr, tr.writeConflictRanges[w]? = some wr ∧
        x = (slots ⟨t, true, w, true⟩, slots ⟨t, true, w, false⟩) := by
  simp only [transactionInfoOf, hold, Bool.false_eq_true, if_false, TransactionInfo.writeRanges,
    List.mem_map, List.mem_range]
  constructor
  · rintro ⟨w, hw, rfl⟩
    exact ⟨w, _, List.getElem?_eq_getElem hw, rfl⟩
  · rintro ⟨w, wr, hwr, rfl⟩
    exact ⟨w, (List.getElem?_eq_some_iff.mp hwr).1, rfl⟩

end BatchInfo

/-- Once the points are sorted, the index intervals `checkIntraBatchConflicts` gives a read
range and a write range meet exactly when the key ranges overlap and neither is empty; and so
the bits set before a transaction's turn meet one of its reads exactly when the read overlaps a
write range of an earlier transaction of the batch that does not conflict. -/
theorem checkIntraBatchConflicts_intervals (oldestVersion : ℤ) (trs : List CommitTransactionRef)
    (transactionConflictStatus : ℕ → Bool) (conflictingKeyRangeMap : ℕ → List ℕ) :
    let cb := addTransactions oldestVersion trs
    let sorted := { cb with points := sortPoints cb.points }
    let slots := assignIndices sorted.points
    let before := fun t => (List.range t).foldl (checkTransaction sorted.transactionInfo slots)
      ⟨MiniConflictSet.init, transactionConflictStatus, conflictingKeyRangeMap⟩
    (∀ (t t' r w : ℕ) (tr tr' : CommitTransactionRef) (rr wr : KeyRangeRef),
      trs[t]? = some tr → trs[t']? = some tr' →
      isTooOld oldestVersion tr = false → isTooOld oldestVersion tr' = false →
      tr.readConflictRanges[r]? = some rr → tr'.writeConflictRanges[w]? = some wr →
      ((∃ i, slots ⟨t, false, r, true⟩ ≤ i ∧ i < slots ⟨t, false, r, false⟩ ∧
          slots ⟨t', true, w, true⟩ ≤ i ∧ i < slots ⟨t', true, w, false⟩) ↔
        rr.begin < wr.end ∧ wr.begin < rr.end ∧ rr.begin < rr.end ∧ wr.begin < wr.end)) ∧
    ∀ (t r : ℕ) (tr : CommitTransactionRef) (rr : KeyRangeRef),
      trs[t]? = some tr → isTooOld oldestVersion tr = false →
      tr.readConflictRanges[r]? = some rr →
      ((before t).mcs.any (slots ⟨t, false, r, true⟩) (slots ⟨t, false, r, false⟩) = true ↔
        ∃ t' < t, ∃ (tr' : CommitTransactionRef) (w : ℕ) (wr : KeyRangeRef), trs[t']? = some tr' ∧
          (checkIntraBatchConflicts sorted transactionConflictStatus
            conflictingKeyRangeMap).transactionConflictStatus t' = false ∧
          tr'.writeConflictRanges[w]? = some wr ∧
          rr.begin < wr.end ∧ wr.begin < rr.end ∧ rr.begin < rr.end ∧ wr.begin < wr.end) := by
  intro cb sorted slots before
  have hperm : sorted.points.Perm cb.points := sortPoints_perm cb.points
  have hsorted := pairwise_sortPoints cb.points
  refine ⟨fun t t' r w tr tr' rr wr htr htr' hold hold' hrr hwr =>
    intervals_meet_iff oldestVersion trs hperm hsorted htr htr' hold hold' hrr hwr, ?_⟩
  intro t r tr rr htr hold hrr
  have ht : t < sorted.transactionInfo.length := by
    change t < (addTransactions oldestVersion trs).transactionInfo.length
    rw [transactionInfo_addTransactions, List.length_map]
    exact (List.getElem?_eq_some_iff.mp htr).1
  obtain ⟨hold₀, hvalues⟩ := intraState_values sorted.transactionInfo slots
    transactionConflictStatus conflictingKeyRangeMap t
  -- the statuses of the earlier transactions are already the final ones
  have hfinal : ∀ t' < t, (checkIntraBatchConflicts sorted transactionConflictStatus
      conflictingKeyRangeMap).transactionConflictStatus t' =
      (intraState sorted.transactionInfo slots transactionConflictStatus conflictingKeyRangeMap
        t).transactionConflictStatus t' :=
    fun t' ht' => intraState_status_stable _ _ _ _ ht' _ ht.le
  have hinfo : ∀ t' tr', trs[t']? = some tr' →
      sorted.transactionInfo.getD t' default = transactionInfoOf oldestVersion tr' :=
    fun t' tr' htr' => getD_transactionInfo oldestVersion trs htr'
  change (intraState sorted.transactionInfo slots transactionConflictStatus conflictingKeyRangeMap
    t).mcs.any _ _ = true ↔ _
  rw [MiniConflictSet.any_eq_true]
  constructor
  · rintro ⟨i, hi, hi', hv⟩
    obtain ⟨t', ht', hst, x, hx, hxi, hxi'⟩ := (hvalues i).mp hv
    have ht'len : t' < trs.length := lt_trans ht' (List.getElem?_eq_some_iff.mp htr).1
    obtain ⟨tr', htr'⟩ : ∃ tr', trs[t']? = some tr' := ⟨trs[t'], List.getElem?_eq_getElem ht'len⟩
    have hold' : isTooOld oldestVersion tr' = false := by
      rw [← tooOld_transactionInfoOf, ← hinfo t' tr' htr']
      exact hold₀ t' ht' hst
    rw [hinfo t' tr' htr', mem_writeRanges_iff oldestVersion hold'] at hx
    obtain ⟨w, wr, hwr, rfl⟩ := hx
    refine ⟨t', ht', tr', w, wr, htr', by rw [hfinal t' ht']; exact hst, hwr, ?_⟩
    exact (intervals_meet_iff oldestVersion trs hperm hsorted htr htr' hold hold' hrr hwr).mp
      ⟨i, hi, hi', hxi, hxi'⟩
  · rintro ⟨t', ht', tr', w, wr, htr', hst, hwr, hmeet⟩
    rw [hfinal t' ht'] at hst
    have hold' : isTooOld oldestVersion tr' = false := by
      rw [← tooOld_transactionInfoOf, ← hinfo t' tr' htr']
      exact hold₀ t' ht' hst
    obtain ⟨i, hi, hi', hwi, hwi'⟩ :=
      (intervals_meet_iff oldestVersion trs hperm hsorted htr htr' hold hold' hrr hwr).mpr hmeet
    have hx : (slots ⟨t', true, w, true⟩, slots ⟨t', true, w, false⟩) ∈
        (sorted.transactionInfo.getD t' default).writeRanges t' slots := by
      rw [hinfo t' tr' htr', mem_writeRanges_iff oldestVersion hold']
      exact ⟨w, wr, hwr, rfl⟩
    exact ⟨i, hi, hi', (hvalues i).mpr ⟨t', ht', hst, _, hx, hwi, hwi'⟩⟩

section Sweep

variable (status : ℕ → Bool)

/-- The points the sweep counts: write points of transactions that commit. -/
def active (point : KeyInfo) : Bool := point.write && !status point.transaction

/-- Begins less ends: how far a list of points moves the count of open ranges. -/
def net (points : List KeyInfo) : ℤ :=
  (points.countP (·.begin) : ℤ) - points.countP fun p => !p.begin

lemma net_cons (p : KeyInfo) (points : List KeyInfo) :
    net (p :: points) = (if p.begin then 1 else -1) + net points := by
  cases hp : p.begin
  · simp [net, hp]
    omega
  · simp [net, hp]
    omega

lemma foldl_combineStep_filter (points : List KeyInfo) (s : ℤ × List (Key × Key)) :
    points.foldl (combineStep status) s = (points.filter (active status)).foldl (combineStep status) s := by
  induction points generalizing s with
  | nil => rfl
  | cons p points ih =>
    by_cases hp : active status p
    · rw [List.filter_cons_of_pos hp, List.foldl_cons, List.foldl_cons, ih]
    · rw [List.filter_cons_of_neg hp, List.foldl_cons, ← ih]
      simp only [combineStep, show (p.write && !status p.transaction) = false by simpa [active] using hp]
      rfl

lemma foldl_combineStep_count {points : List KeyInfo} (hact : ∀ p ∈ points, active status p)
    (s : ℤ × List (Key × Key)) :
    (points.foldl (combineStep status) s).1 = s.1 + net points := by
  induction points generalizing s with
  | nil => simp [net]
  | cons p points ih =>
    rw [List.foldl_cons, ih fun q hq => hact q (List.mem_cons_of_mem p hq), net_cons]
    have hp : (p.write && !status p.transaction) = true := hact p List.mem_cons_self
    cases hb : p.begin <;> simp [combineStep, hp, hb] <;> omega

/-- Up to a key `k`: while the count is positive, one range is open, from a key up to `k`; all
the others end at `k` or before. -/
def ClosedUpTo (k : Key) (s : ℤ × List (Key × Key)) : Prop :=
  (s.1 ≤ 0 → ∀ r ∈ s.2, r.2 ≤ k) ∧
    (1 ≤ s.1 → ∃ closed b, s.2 = closed ++ [(b, [])] ∧ b ≤ k ∧ ∀ r ∈ closed, r.2 ≤ k)

lemma closedUpTo_combineStep {k : Key} {s : ℤ × List (Key × Key)} (h : ClosedUpTo k s)
    {p : KeyInfo} (hp : active status p) (hk : p.key ≤ k) :
    ClosedUpTo k (combineStep status s p) := by
  obtain ⟨hle, hpos⟩ := h
  have hp' : (p.write && !status p.transaction) = true := hp
  by_cases hb : p.begin
  · by_cases hopen : s.1 + 1 = 1
    · -- the count reaches one: a range opens at `p`
      have hs : s.1 = 0 := by omega
      simp only [combineStep, hp', hb, if_true, if_pos hopen]
      exact ⟨fun h => by omega, fun _ => ⟨s.2, p.key, rfl, hk, hle (by omega)⟩⟩
    · simp only [combineStep, hp', hb, if_true, if_neg hopen]
      exact ⟨fun h => hle (by omega), fun h => hpos (by omega)⟩
  · by_cases hclose : s.1 - 1 = 0
    · -- the count falls to zero: the open range closes at `p`
      obtain ⟨closed, b, hs, -, hclosed⟩ := hpos (by omega)
      simp only [combineStep, hp', hb, if_true, Bool.false_eq_true, if_false, if_pos hclose, hs,
        List.modifyLast_concat]
      refine ⟨fun _ r hr => ?_, fun h => by omega⟩
      rcases List.mem_append.mp hr with hr | hr
      · exact hclosed r hr
      · rw [List.mem_singleton.mp hr]
        exact hk
    · simp only [combineStep, hp', hb, if_true, Bool.false_eq_true, if_false, if_neg hclose]
      exact ⟨fun h => hle (by omega), fun h => hpos (by omega)⟩

lemma closedUpTo_foldl {k : Key} {points : List KeyInfo}
    (hact : ∀ p ∈ points, active status p ∧ p.key ≤ k) {s : ℤ × List (Key × Key)}
    (h : ClosedUpTo k s) : ClosedUpTo k (points.foldl (combineStep status) s) := by
  induction points generalizing s with
  | nil => exact h
  | cons p points ih =>
    rw [List.foldl_cons]
    exact ih (fun q hq => hact q (List.mem_cons_of_mem p hq))
      (closedUpTo_combineStep status h (hact p List.mem_cons_self).1 (hact p List.mem_cons_self).2)

lemma foldl_combineStep_past {k : Key} {points : List KeyInfo}
    (hact : ∀ p ∈ points, active status p ∧ k < p.key) :
    ∀ s : ℤ × List (Key × Key), s.1 + net points ≤ 0 →
      (s.1 ≤ 0 → ∃ later, (points.foldl (combineStep status) s).2 = s.2 ++ later ∧
        ∀ r ∈ later, k < r.1) ∧
      (1 ≤ s.1 → ∀ closed b y, s.2 = closed ++ [(b, y)] → ∃ k' later, k < k' ∧
        (points.foldl (combineStep status) s).2 = closed ++ [(b, k')] ++ later ∧
        ∀ r ∈ later, k < r.1) := by
  induction points with
  | nil =>
    intro s hs
    exact ⟨fun _ => ⟨[], by simp, by simp⟩, fun h => absurd hs (by simp [net]; omega)⟩
  | cons p points ih =>
    intro s hs
    have hp : (p.write && !status p.transaction) = true := (hact p List.mem_cons_self).1
    have hk : k < p.key := (hact p List.mem_cons_self).2
    have ih := ih fun q hq => hact q (List.mem_cons_of_mem p hq)
    rw [net_cons] at hs
    rw [List.foldl_cons]
    by_cases hb : p.begin
    · rw [if_pos hb] at hs
      by_cases hopen : s.1 + 1 = 1
      · -- a range opens at `p`, past `k`, and closes later still
        have hstep : combineStep status s p = (s.1 + 1, s.2 ++ [(p.key, [])]) := by
          simp only [combineStep, hp, hb, if_true, if_pos hopen]
        rw [hstep]
        obtain ⟨k', later, hk', hlater, hlater'⟩ :=
          (ih (s.1 + 1, s.2 ++ [(p.key, [])]) (by dsimp only; omega)).2 (by dsimp only; omega)
            s.2 p.key [] rfl
        refine ⟨fun _ => ⟨(p.key, k') :: later, by simpa using hlater, ?_⟩, fun h => by omega⟩
        intro r hr
        rcases List.mem_cons.mp hr with rfl | hr
        · exact hk
        · exact hlater' r hr
      · have hstep : combineStep status s p = (s.1 + 1, s.2) := by
          simp only [combineStep, hp, hb, if_true, if_neg hopen]
        rw [hstep]
        have ih' := ih (s.1 + 1, s.2) (by dsimp only; omega)
        exact ⟨fun h => ih'.1 (by dsimp only; omega), fun h => ih'.2 (by dsimp only; omega)⟩
    · rw [if_neg hb] at hs
      by_cases hclose : s.1 - 1 = 0
      · -- the open range closes at `p`, past `k`
        refine ⟨fun h => by omega, fun _ closed b y hs2 => ?_⟩
        have hstep : combineStep status s p = (s.1 - 1, closed ++ [(b, p.key)]) := by
          simp only [combineStep, hp, hb, Bool.false_eq_true, if_true, if_false, if_pos hclose, hs2,
            List.modifyLast_concat]
        rw [hstep]
        obtain ⟨later, hlater, hlater'⟩ :=
          (ih (s.1 - 1, closed ++ [(b, p.key)]) (by dsimp only; omega)).1 (by dsimp only; omega)
        exact ⟨p.key, later, hk, by simpa using hlater, hlater'⟩
      · have hstep : combineStep status s p = (s.1 - 1, s.2) := by
          simp only [combineStep, hp, hb, Bool.false_eq_true, if_true, if_false, if_neg hclose]
        rw [hstep]
        have ih' := ih (s.1 - 1, s.2) (by dsimp only; omega)
        exact ⟨fun h => ih'.1 (by dsimp only; omega), fun h => ih'.2 (by dsimp only; omega)⟩

lemma extraOrdering_of_write {p : KeyInfo} (h : p.write = true) :
    extraOrdering p = if p.begin then 2 else 1 := by
  cases hb : p.begin <;> simp [extraOrdering, h, hb]

/-- What the sweep has built before the points `rest`: closed ranges, non-empty and in order,
ending no later than the points to come; while the count is positive, one more range open
from a key before every end to come. -/
def SweepOrdered (s : ℤ × List (Key × Key)) (rest : List KeyInfo) : Prop :=
  ∃ closed : List (Key × Key), (∀ r ∈ closed, r.1 < r.2) ∧
    closed.Pairwise (fun r r' => r.2 ≤ r'.1) ∧ (∀ r ∈ closed, ∀ q ∈ rest, r.2 ≤ q.key) ∧
    (s.1 ≤ 0 ∧ s.2 = closed ∨
      1 ≤ s.1 ∧ ∃ b, s.2 = closed ++ [(b, [])] ∧ (∀ r ∈ closed, r.2 ≤ b) ∧
        ∀ q ∈ rest, q.begin = false → b < q.key)

lemma sweepOrdered_combineStep {s : ℤ × List (Key × Key)} {p : KeyInfo} {rest : List KeyInfo}
    (h : SweepOrdered s (p :: rest)) (hp : active status p)
    (hact : ∀ q ∈ rest, active status q) (hrest : ∀ q ∈ rest, ¬ q < p) :
    SweepOrdered (combineStep status s p) rest := by
  obtain ⟨closed, hne, hord, hbefore, hshape⟩ := h
  have hp' : (p.write && !status p.transaction) = true := hp
  have hwrite : ∀ q, active status q = true → q.write = true := fun q hq => by
    simp only [active, Bool.and_eq_true] at hq
    exact hq.1
  -- the points to come are at `p`'s key or past it, and an end is past a begin
  have hle : ∀ q ∈ rest, p.key ≤ q.key := by
    intro q hq
    have := hrest q hq
    rw [lt_def, not_or] at this
    exact not_lt.mp this.1
  have hlt : p.begin = true → ∀ q ∈ rest, q.begin = false → p.key < q.key := by
    intro hb q hq hqb
    have := hrest q hq
    rw [lt_def, not_or, extraOrdering_of_write (hwrite q (hact q hq)),
      extraOrdering_of_write (hwrite p hp), hb, hqb] at this
    simp only [Bool.false_eq_true, if_false, if_true, Nat.one_lt_ofNat, and_true] at this
    exact lt_of_le_of_ne (not_lt.mp this.1) (Ne.symm this.2)
  have hbefore' : ∀ r ∈ closed, ∀ q ∈ rest, r.2 ≤ q.key :=
    fun r hr q hq => hbefore r hr q (List.mem_cons_of_mem p hq)
  by_cases hb : p.begin
  · by_cases hopen : s.1 + 1 = 1
    · -- the count reaches one: a range opens at `p`
      have hs : s.2 = closed := by
        rcases hshape with ⟨-, hs⟩ | ⟨h1, -⟩
        · exact hs
        · omega
      simp only [combineStep, hp', hb, if_true, if_pos hopen, hs]
      exact ⟨closed, hne, hord, hbefore', .inr ⟨by omega, p.key, rfl,
        fun r hr => hbefore r hr p List.mem_cons_self, fun q hq hqb => hlt hb q hq hqb⟩⟩
    · simp only [combineStep, hp', hb, if_true, if_neg hopen]
      refine ⟨closed, hne, hord, hbefore', ?_⟩
      rcases hshape with ⟨h0, hs⟩ | ⟨h1, b, hs, hcb, hbq⟩
      · exact .inl ⟨by dsimp only; omega, hs⟩
      · exact .inr ⟨by dsimp only; omega, b, hs, hcb,
          fun q hq hqb => hbq q (List.mem_cons_of_mem p hq) hqb⟩
  · have hb' : p.begin = false := by simpa using hb
    by_cases hclose : s.1 - 1 = 0
    · -- the count falls to zero: the open range closes at `p`
      obtain ⟨b, hs, hcb, hbq⟩ : ∃ b, s.2 = closed ++ [(b, [])] ∧ (∀ r ∈ closed, r.2 ≤ b) ∧
          ∀ q ∈ p :: rest, q.begin = false → b < q.key := by
        rcases hshape with ⟨h0, -⟩ | ⟨-, hopen⟩
        · omega
        · exact hopen
      simp only [combineStep, hp', hb, if_true, Bool.false_eq_true, if_false, if_pos hclose, hs,
        List.modifyLast_concat]
      refine ⟨closed ++ [(b, p.key)], ?_, ?_, ?_, .inl ⟨by omega, rfl⟩⟩
      · intro r hr
        rcases List.mem_append.mp hr with hr | hr
        · exact hne r hr
        · rw [List.mem_singleton.mp hr]
          exact hbq p List.mem_cons_self hb'
      · exact List.pairwise_append.mpr ⟨hord, List.pairwise_singleton _ _,
          fun r hr r' hr' => by rw [List.mem_singleton.mp hr']; exact hcb r hr⟩
      · intro r hr q hq
        rcases List.mem_append.mp hr with hr | hr
        · exact hbefore' r hr q hq
        · rw [List.mem_singleton.mp hr]
          exact hle q hq
    · simp only [combineStep, hp', hb, if_true, Bool.false_eq_true, if_false, if_neg hclose]
      refine ⟨closed, hne, hord, hbefore', ?_⟩
      rcases hshape with ⟨h0, hs⟩ | ⟨h1, b, hs, hcb, hbq⟩
      · exact .inl ⟨by dsimp only; omega, hs⟩
      · exact .inr ⟨by dsimp only; omega, b, hs, hcb,
          fun q hq hqb => hbq q (List.mem_cons_of_mem p hq) hqb⟩

lemma sweepOrdered_foldl : ∀ {points : List KeyInfo}, (∀ p ∈ points, active status p) →
    points.Pairwise (fun a b => ¬ b < a) → ∀ {s : ℤ × List (Key × Key)},
    SweepOrdered s points → SweepOrdered (points.foldl (combineStep status) s) []
  | [], _, _, _, h => h
  | p :: points, hact, hsorted, s, h => by
    rw [List.pairwise_cons] at hsorted
    rw [List.foldl_cons]
    exact sweepOrdered_foldl (fun q hq => hact q (List.mem_cons_of_mem p hq)) hsorted.2
      (sweepOrdered_combineStep status h (hact p List.mem_cons_self)
        (fun q hq => hact q (List.mem_cons_of_mem p hq)) hsorted.1)

lemma combine_ordered {points : List KeyInfo} (hact : ∀ p ∈ points, active status p)
    (hsorted : points.Pairwise (fun a b => ¬ b < a)) (hnet : net points = 0) :
    (∀ r ∈ (points.foldl (combineStep status) (0, [])).2, r.1 < r.2) ∧
      (points.foldl (combineStep status) (0, [])).2.Pairwise (fun r r' => r.2 ≤ r'.1) := by
  have hinit : SweepOrdered (0, []) points := ⟨[], by simp, List.Pairwise.nil, by simp, .inl ⟨le_rfl, rfl⟩⟩
  obtain ⟨closed, hne, hord, -, hshape⟩ := sweepOrdered_foldl status hact hsorted hinit
  have hcount := foldl_combineStep_count status hact (0, [])
  rw [hnet] at hcount
  rcases hshape with ⟨-, hs⟩ | ⟨h1, -⟩
  · rw [hs]
    exact ⟨hne, hord⟩
  · simp at hcount
    omega

lemma mem_combine_iff {points : List KeyInfo} (hact : ∀ p ∈ points, active status p)
    (hsorted : points.Pairwise (fun a b => ¬ b < a)) (hnet : net points = 0) (k : Key) :
    (∃ r ∈ (points.foldl (combineStep status) (0, [])).2, r.1 ≤ k ∧ k < r.2) ↔
      1 ≤ net (points.filter fun p => decide (p.key ≤ k)) := by
  have hkeys : points.Pairwise (fun a b => a.key ≤ b.key) := hsorted.imp fun h => by
    rw [lt_def, not_or] at h
    exact not_lt.mp h.1
  set upTo := points.filter fun p => decide (p.key ≤ k)
  set past := points.filter fun p => !decide (p.key ≤ k)
  have hsplit : points = upTo ++ past := List.filter_le_append_filter_not_le KeyInfo.key k hkeys
  have hupTo : ∀ p ∈ upTo, active status p ∧ p.key ≤ k := fun p hp => by
    obtain ⟨hp, hk⟩ := List.mem_filter.mp hp
    exact ⟨hact p hp, by simpa using hk⟩
  have hpast : ∀ p ∈ past, active status p ∧ k < p.key := fun p hp => by
    obtain ⟨hp, hk⟩ := List.mem_filter.mp hp
    exact ⟨hact p hp, by simpa using hk⟩
  have hnet' : net upTo + net past = 0 := by
    rw [← hnet, hsplit]
    simp only [net, List.countP_append]
    omega
  -- the state at `k`: its count is `net upTo`
  set s := upTo.foldl (combineStep status) (0, [])
  have hcount : s.1 = net upTo := by
    rw [foldl_combineStep_count status (fun p hp => (hupTo p hp).1)]
    simp
  have hclosed : ClosedUpTo k s :=
    closedUpTo_foldl status hupTo ⟨fun _ r hr => by simp at hr, fun h => by simp at h⟩
  obtain ⟨hneg, hpos⟩ := foldl_combineStep_past status hpast s (by omega)
  rw [hsplit, List.foldl_append]
  change (∃ r ∈ (past.foldl (combineStep status) s).2, r.1 ≤ k ∧ k < r.2) ↔ _
  by_cases h1 : 1 ≤ net upTo
  · -- a range open at `k` closes past it
    obtain ⟨closed, b, hs, hb, -⟩ := hclosed.2 (by omega)
    obtain ⟨k', later, hk', hfinal, -⟩ := hpos (by omega) closed b [] hs
    refine ⟨fun _ => h1, fun _ => ⟨(b, k'), ?_, hb, hk'⟩⟩
    rw [hfinal]
    simp
  · -- everything closed by `k` ends at it or before, everything later begins past it
    obtain ⟨later, hfinal, hlater⟩ := hneg (by omega)
    refine ⟨fun ⟨r, hr, hrk, hkr⟩ => ?_, fun h => absurd h h1⟩
    rw [hfinal, List.mem_append] at hr
    rcases hr with hr | hr
    · exact absurd (hclosed.1 (by omega) r hr) (not_le.mpr hkr)
    · exact absurd hrk (not_le.mpr (hlater r hr))

end Sweep


section Cover

variable (oldestVersion : ℤ) (trs : List CommitTransactionRef) (status : ℕ → Bool)

/-- The write ranges the sweep counts: those of the batch's transactions that commit. A
transaction too old holds none in the batch. -/
def activeWrites : List KeyRangeRef :=
  trs.zipIdx.flatMap fun (tr, t) =>
    if isTooOld oldestVersion tr || status t then [] else tr.writeConflictRanges

lemma mem_activeWrites {wr : KeyRangeRef} :
    wr ∈ activeWrites oldestVersion trs status ↔ ∃ (t : ℕ) (tr : CommitTransactionRef) (w : ℕ),
      trs[t]? = some tr ∧
      isTooOld oldestVersion tr = false ∧ status t = false ∧ tr.writeConflictRanges[w]? = some wr := by
  simp only [activeWrites, List.mem_flatMap, Prod.exists, List.mem_zipIdx_iff_getElem?]
  constructor
  · rintro ⟨tr, t, htr, hwr⟩
    cases hold : isTooOld oldestVersion tr <;> cases hst : status t <;>
      simp only [hold, hst, Bool.or_false, Bool.or_true, Bool.false_eq_true, if_true, if_false,
        List.not_mem_nil] at hwr
    obtain ⟨w, hw⟩ := List.mem_iff_getElem?.mp hwr
    exact ⟨t, tr, w, htr, hold, hst, hw⟩
  · rintro ⟨t, tr, w, htr, hold, hst, hwr⟩
    exact ⟨tr, t, htr, by simpa [hold, hst] using List.mem_of_getElem? hwr⟩

lemma map_rangePoints (t : ℕ) (write : Bool) (ranges : List KeyRangeRef) :
    (rangePoints t write ranges).map (fun p => (p.key, p.begin)) =
      ranges.flatMap fun r => [(r.begin, true), (r.end, false)] := by
  rw [rangePoints, List.map_flatMap]
  conv_rhs => rw [← List.zipIdx_map_fst 0 ranges, List.flatMap_map]
  rfl

lemma filter_active_rangePoints (t : ℕ) (write : Bool) (ranges : List KeyRangeRef) :
    (rangePoints t write ranges).filter (active status) =
      if write && !status t then rangePoints t write ranges else [] := by
  have hmem : ∀ p ∈ rangePoints t write ranges, active status p = (write && !status t) := by
    intro p hp
    obtain ⟨⟨range, r⟩, -, hp⟩ := List.mem_flatMap.mp hp
    rcases List.mem_pair.mp hp with rfl | rfl <;> rfl
  split
  · exact List.filter_eq_self.mpr fun p hp => (hmem p hp).trans (by assumption)
  · exact List.filter_eq_nil_iff.mpr fun p hp => by simp_all

lemma map_filter_active_points :
    ((addTransactions oldestVersion trs).points.filter (active status)).map
        (fun p => (p.key, p.begin)) =
      (activeWrites oldestVersion trs status).flatMap fun r => [(r.begin, true), (r.end, false)] := by
  rw [points_addTransactions, activeWrites, List.filter_flatMap, List.map_flatMap, List.flatMap_assoc]
  congr 1
  funext ⟨tr, t⟩
  cases hold : isTooOld oldestVersion tr <;> cases hst : status t <;>
    simp [transactionPoints, hold, hst, filter_active_rangePoints, map_rangePoints]

lemma countP_bounds (k : Key) : ∀ ranges : List KeyRangeRef,
    ((ranges.flatMap fun r => [(r.begin, true), (r.end, false)]).countP
        (fun e => e.2 && decide (e.1 ≤ k)) : ℤ) -
      (ranges.flatMap fun r => [(r.begin, true), (r.end, false)]).countP
        (fun e => !e.2 && decide (e.1 ≤ k)) =
      ranges.countP fun r => decide (r.contains k)
  | [] => by simp
  | r :: ranges => by
    have ih := countP_bounds k ranges
    simp only [List.flatMap_cons, List.countP_append, List.countP_cons, List.countP_nil,
      Bool.true_and, Bool.false_and, Bool.not_true, Bool.not_false, Bool.false_eq_true,
      if_false, decide_eq_true_eq, Nat.zero_add, Nat.cast_add]
    by_cases he : r.end ≤ k
    · have hb : r.begin ≤ k := r.begin_le_end.trans he
      have hc : ¬ r.contains k := fun h => not_lt.mpr he h.2
      simp only [hb, he, hc, if_true, if_false]
      push_cast
      omega
    · by_cases hb : r.begin ≤ k
      · have hc : r.contains k := ⟨hb, not_le.mp he⟩
        simp only [hb, he, hc, if_true, if_false]
        push_cast
        omega
      · have hc : ¬ r.contains k := fun h => hb h.1
        simp only [hb, he, hc, if_false]
        push_cast
        omega

lemma countP_bounds_fst (ranges : List KeyRangeRef) :
    (ranges.flatMap fun r => [(r.begin, true), (r.end, false)]).countP (·.2) = ranges.length ∧
      (ranges.flatMap fun r => [(r.begin, true), (r.end, false)]).countP (!·.2) = ranges.length := by
  induction ranges with
  | nil => simp
  | cons r ranges ih => simp [ih.1, ih.2]

variable {oldestVersion trs} {sorted : List KeyInfo}
  (hperm : sorted.Perm (addTransactions oldestVersion trs).points)
include hperm

lemma net_filter_active : net (sorted.filter (active status)) = 0 := by
  have hp := hperm.filter (active status)
  obtain ⟨hb, he⟩ := countP_bounds_fst (activeWrites oldestVersion trs status)
  rw [← map_filter_active_points, List.countP_map] at hb he
  change List.countP (fun p : KeyInfo => p.begin) _ = _ at hb
  change List.countP (fun p : KeyInfo => !p.begin) _ = _ at he
  simp only [net, hp.countP_eq, hb, he, sub_self]

lemma net_filter_active_le (k : Key) :
    net ((sorted.filter (active status)).filter fun p => decide (p.key ≤ k)) =
      (activeWrites oldestVersion trs status).countP fun r => decide (r.contains k) := by
  have hp := hperm.filter (active status)
  rw [← countP_bounds k, ← map_filter_active_points, List.countP_map, List.countP_map]
  simp only [net, List.countP_filter, hp.countP_eq]
  rfl

end Cover

/-- `combineWriteConflictRanges` over any sorted arrangement of a batch's points: the ranges are
non-empty and each ends before the next begins, and a key is in one of them exactly when it is
in a write range of a transaction of the batch that commits (too old ones hold none). -/
theorem combineWriteConflictRanges_cover (oldestVersion : ℤ) (trs : List CommitTransactionRef)
    (sorted : List KeyInfo) (hperm : sorted.Perm (addTransactions oldestVersion trs).points)
    (hsorted : sorted.Pairwise fun a b => ¬ b < a) (status : ℕ → Bool) :
    let ranges := combineWriteConflictRanges sorted status
    (∀ r ∈ ranges, r.1 < r.2) ∧ ranges.Pairwise (fun r r' => r.2 ≤ r'.1) ∧
      ∀ k, (∃ r ∈ ranges, r.1 ≤ k ∧ k < r.2) ↔
        ∃ (t : ℕ) (tr : CommitTransactionRef) (w : ℕ) (wr : KeyRangeRef), trs[t]? = some tr ∧
        isTooOld oldestVersion tr = false ∧ status t = false ∧
        tr.writeConflictRanges[w]? = some wr ∧ wr.contains k := by
  intro ranges
  -- the sweep reads only the counted points, which stay sorted and close every range
  have hact : ∀ p ∈ sorted.filter (active status), active status p :=
    fun p hp => (List.mem_filter.mp hp).2
  have hsorted' := hsorted.filter (active status)
  have hnet := net_filter_active status hperm
  have hranges : ranges = ((sorted.filter (active status)).foldl (combineStep status) (0, [])).2 := by
    simp only [ranges, combineWriteConflictRanges]
    rw [foldl_combineStep_filter]
  obtain ⟨hne, hord⟩ := combine_ordered status hact hsorted' hnet
  refine ⟨hranges ▸ hne, hranges ▸ hord, fun k => ?_⟩
  rw [hranges, mem_combine_iff status hact hsorted' hnet k, net_filter_active_le status hperm k,
    show ∀ n : ℕ, (1 : ℤ) ≤ n ↔ 0 < n from fun n => by omega, List.countP_pos_iff]
  simp only [decide_eq_true_eq, mem_activeWrites]
  constructor
  · rintro ⟨wr, ⟨t, tr, w, htr, hold, hst, hwr⟩, hk⟩
    exact ⟨t, tr, w, wr, htr, hold, hst, hwr, hk⟩
  · rintro ⟨t, tr, w, wr, htr, hold, hst, hwr, hk⟩
    exact ⟨wr, ⟨t, tr, w, htr, hold, hst, hwr⟩, hk⟩

/-- Two transactions writing overlapping ranges, in the order `sortPoints` gives. -/
theorem combineWriteConflictRanges_cover_overlap :
    let trs : List CommitTransactionRef :=
      [⟨[], [⟨[1], [3], by decide⟩], [], 0, false⟩, ⟨[], [⟨[2], [5], by decide⟩], [], 0, false⟩]
    let sorted := sortPoints (addTransactions 0 trs).points
    let ranges := combineWriteConflictRanges sorted fun _ => false
    sorted.Perm (addTransactions 0 trs).points ∧ sorted.Pairwise (fun a b => ¬ b < a) ∧
      (∀ r ∈ ranges, r.1 < r.2) ∧ ranges.Pairwise (fun r r' => r.2 ≤ r'.1) ∧
      ∀ k, (∃ r ∈ ranges, r.1 ≤ k ∧ k < r.2) ↔
        ∃ (t : ℕ) (tr : CommitTransactionRef) (w : ℕ) (wr : KeyRangeRef), trs[t]? = some tr ∧
          isTooOld 0 tr = false ∧ false = false ∧ tr.writeConflictRanges[w]? = some wr ∧
          wr.contains k :=
  ⟨sortPoints_perm _, pairwise_sortPoints _,
    combineWriteConflictRanges_cover 0 _ _ (sortPoints_perm _) (pairwise_sortPoints _) _⟩

end FoundationDB.Resolver
