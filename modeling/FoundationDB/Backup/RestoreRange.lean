import FoundationDB.Backup.FileFormat
import FoundationDB.Backup.LogValue
import FoundationDB.Library.Blocks
import FoundationDB.Library.PrefixOrder
import FoundationDB.Library.Trim
import FoundationDB.Library.Overwrite

/-! The restore of one block of a range file (`RestoreRangeTaskFunc::_execute` in
`FileBackupAgent.actor.cpp`). The block's first and last keys are its range. For each restore
range that range meets, the task slides two cursors in from the ends of the block's pairs past
the keys outside the restore range, shrinks the file range to the restore range and moves it
from under `removePrefix` to under `addPrefix`. It then writes the pairs in transactions of
about `dataSizeLimit` bytes; each clears its stretch of the range and sets its pairs. A
transaction that is too large halves the limit; other errors are retried. What becomes of each
commit is an input of the model, a list of outcomes. -/

namespace FoundationDB.Backup

/-- The database the restore writes into. -/
abbrev Database := Key → Option Value

inductive CommitOutcome
  | committed
  /-- `transaction_too_large`: the loop halves `dataSizeLimit`. -/
  | transactionTooLarge
  /-- An error that `onError` retries. -/
  | retryable
deriving DecidableEq, Repr

/-- `key.removePrefix(removePrefix).withPrefix(addPrefix)`. -/
def moveKey (removePrefix addPrefix key : Key) : Except BackupError Key := do
  pure (addPrefix ++ (← StringRef.removePrefix key removePrefix))

/-- `while (rangeStart < rangeEnd && !restoreRange.contains(blockData[rangeStart].key))
++rangeStart;` -/
def slideStart (blockData : List (Key × Value)) (restoreRange : KeyRangeRef) (rangeEnd : ℕ)
    (rangeStart : ℕ) : ℕ :=
  if rangeStart < rangeEnd ∧ ¬ restoreRange.contains (blockData.getD rangeStart default).1 then
    slideStart blockData restoreRange rangeEnd (rangeStart + 1)
  else rangeStart
termination_by rangeEnd - rangeStart

/-- `while (rangeEnd > rangeStart && !restoreRange.contains(blockData[rangeEnd - 1].key))
--rangeEnd;` -/
def slideEnd (blockData : List (Key × Value)) (restoreRange : KeyRangeRef) (rangeStart : ℕ) :
    ℕ → ℕ
  | 0 => 0
  | rangeEnd + 1 =>
    if rangeStart < rangeEnd + 1 ∧ ¬ restoreRange.contains (blockData.getD rangeEnd default).1 then
      slideEnd blockData restoreRange rangeStart rangeEnd
    else rangeEnd + 1

/-- `data`: `blockData.slice(rangeStart, rangeEnd)` once the cursors, started on the second
entry and the last one, have slid past the keys outside the restore range. -/
def restoreData (blockData : List (Key × Value)) (restoreRange : KeyRangeRef) :
    List (Key × Value) :=
  let rangeStart := slideStart blockData restoreRange (blockData.length - 1) 1
  let rangeEnd := slideEnd blockData restoreRange rangeStart (blockData.length - 1)
  (blockData.drop rangeStart).take (rangeEnd - rangeStart)

/-- A transaction of the task: the range it clears, then the pairs it sets. -/
structure RestoreTransaction where
  trRange : KeyRangeRef
  sets : List (Key × Value)

/-- What a transaction does to the database once it commits: `tr->clear(trRange)`, then each
`tr->set` in turn. -/
def RestoreTransaction.commit (tr : RestoreTransaction) (db : Database) : Database :=
  tr.sets.foldl (fun db kv => Function.update db kv.1 (some kv.2))
    fun k => if tr.trRange.contains k then none else db k

/-- `iend` after `for (; iend < end && txBytes < dataSizeLimit; ++iend)`, which adds the sizes of
each key and value to `txBytes`. -/
def chunkEnd (data : List (Key × Value)) (dataSizeLimit : ℕ) (iend txBytes : ℕ) : ℕ :=
  if iend < data.length ∧ txBytes < dataSizeLimit then
    chunkEnd data dataSizeLimit (iend + 1)
      (txBytes + (data.getD iend default).1.length + (data.getD iend default).2.length)
  else iend
termination_by data.length - iend

/-- The transaction for the pairs from `start` to `iend`. It clears from the file range's begin,
or the pair at `start`, to the file range's end, or the pair at `iend`, and sets the pairs, their
keys moved. -/
def restoreTransaction (data : List (Key × Value)) (fileRange : KeyRangeRef)
    (removePrefix addPrefix : Key) (start iend : ℕ) : Except BackupError RestoreTransaction := do
  let trBegin ← (if start = 0 then pure fileRange.begin
    else moveKey removePrefix addPrefix (data.getD start default).1)
  let trEnd ← (if iend = data.length then pure fileRange.end
    else moveKey removePrefix addPrefix (data.getD iend default).1)
  let trRange ← keyRange trBegin trEnd
  let sets ← ((data.drop start).take (iend - start)).mapM fun kv => do
    pure (← moveKey removePrefix addPrefix kv.1, kv.2)
  pure ⟨trRange, sets⟩

/-- The write loop of one restore range, from pair `start` and limit `dataSizeLimit`, one
outcome per attempt: the transactions committed, and the outcomes left once the last pairs are
committed (`none` while the loop still runs). -/
def writeLoop (data : List (Key × Value)) (fileRange : KeyRangeRef) (removePrefix addPrefix : Key) :
    List CommitOutcome → ℕ → ℕ →
      Except BackupError (List RestoreTransaction × Option (List CommitOutcome))
  | [], _, _ => pure ([], none)
  | outcome :: outcomes, start, dataSizeLimit => do
    let iend := chunkEnd data dataSizeLimit start 0
    let tr ← restoreTransaction data fileRange removePrefix addPrefix start iend
    match outcome with
    | .committed =>
      if iend = data.length then pure ([tr], some outcomes)
      else do
        let (trs, rest) ← writeLoop data fileRange removePrefix addPrefix outcomes iend dataSizeLimit
        pure (tr :: trs, rest)
    | .transactionTooLarge =>
      writeLoop data fileRange removePrefix addPrefix outcomes start (dataSizeLimit / 2)
    | .retryable => writeLoop data fileRange removePrefix addPrefix outcomes start dataSizeLimit

/-- The end of the shrunk file range, moved: the end of the keys under `removePrefix` becomes
the end of those under `addPrefix`. -/
def shrunkFileEnd (removePrefix addPrefix fileEnd : Key) : Except BackupError Key := do
  let prefixEnd ← (if removePrefix = [] then pure normalKeysEnd else strinc removePrefix)
  if fileEnd = prefixEnd then
    if addPrefix = [] then pure normalKeysEnd else strinc addPrefix
  else moveKey removePrefix addPrefix fileEnd

/-- `fileRange` shrunk to `restoreRange` and moved. -/
def shrinkFileRange (removePrefix addPrefix : Key) (fileRange restoreRange : KeyRangeRef) :
    Except BackupError KeyRangeRef := do
  let fileEnd ← shrunkFileEnd removePrefix addPrefix (min fileRange.end restoreRange.end)
  keyRange (← moveKey removePrefix addPrefix (max fileRange.begin restoreRange.begin)) fileEnd

/-- The loop over `restoreRanges`: the transactions committed, `originalFileRanges`, and the
outcomes left once the loop is done (`none` while a write loop still runs). A turn that writes
replaces `fileRange` by its shrunk and moved range, which the next turns test. -/
def restoreRangesLoop (blockData : List (Key × Value)) (removePrefix addPrefix : Key)
    (dataSizeLimit : ℕ) : List KeyRangeRef → List CommitOutcome → KeyRangeRef →
      Except BackupError (List RestoreTransaction × List KeyRangeRef × Option (List CommitOutcome))
  | [], outcomes, _ => pure ([], [], some outcomes)
  | restoreRange :: restoreRanges, outcomes, fileRange =>
    if fileRange.intersects restoreRange then do
      let originalFileRange ← keyRange (max fileRange.begin restoreRange.begin)
        (min fileRange.end restoreRange.end)
      let fileRange ← shrinkFileRange removePrefix addPrefix fileRange restoreRange
      let (trs, rest) ← writeLoop (restoreData blockData restoreRange) fileRange removePrefix
        addPrefix outcomes 0 dataSizeLimit
      match rest with
      | none => pure (trs, [originalFileRange], none)
      | some outcomes => do
        let (trs', originalFileRanges, rest) ← restoreRangesLoop blockData removePrefix addPrefix
          dataSizeLimit restoreRanges outcomes fileRange
        pure (trs ++ trs', originalFileRange :: originalFileRanges, rest)
    else restoreRangesLoop blockData removePrefix addPrefix dataSizeLimit restoreRanges outcomes
      fileRange

/-- `RestoreRangeTaskFunc::_execute` from the decoded block on, with `dataSizeLimit` the
`RESTORE_WRITE_TX_SIZE` each restore range starts from. -/
def restoreRangeTask (blockData : List (Key × Value)) (restoreRanges : List KeyRangeRef)
    (removePrefix addPrefix : Key) (dataSizeLimit : ℕ) (outcomes : List CommitOutcome) :
    Except BackupError (List RestoreTransaction × List KeyRangeRef × Option (List CommitOutcome)) := do
  let fileRange ← keyRange (blockRange blockData).1 (blockRange blockData).2
  restoreRangesLoop blockData removePrefix addPrefix dataSizeLimit restoreRanges outcomes fileRange

/-! ### The pairs of a restore range -/

section Slice

variable {α : Type} [Inhabited α]

lemma drop_take_eq_cons {l : List α} {s e : ℕ} (hs : s < e) (he : e ≤ l.length) :
    (l.drop s).take (e - s) = l.getD s default :: (l.drop (s + 1)).take (e - (s + 1)) := by
  have hsl : s < l.length := lt_of_lt_of_le hs he
  rw [List.drop_eq_getElem_cons hsl, show e - s = e - (s + 1) + 1 by omega, List.take_succ_cons,
    List.getD_eq_getElem _ _ hsl]

lemma drop_take_succ {l : List α} {s e : ℕ} (hs : s ≤ e) (he : e < l.length) :
    (l.drop s).take (e + 1 - s) = (l.drop s).take (e - s) ++ [l.getD e default] := by
  rw [show e + 1 - s = e - s + 1 by omega, List.take_add_one, List.getElem?_drop,
    show s + (e - s) = e by omega, List.getElem?_eq_getElem he, Option.toList_some,
    List.getD_eq_getElem _ _ he]

variable (blockData : List (Key × Value)) (restoreRange : KeyRangeRef)

lemma slideStart_le {rangeEnd rangeStart : ℕ} (h : rangeStart ≤ rangeEnd) :
    slideStart blockData restoreRange rangeEnd rangeStart ≤ rangeEnd := by
  fun_induction slideStart blockData restoreRange rangeEnd rangeStart with
  | case1 s hs ih => exact ih hs.1
  | case2 s _ => exact h

lemma slideEnd_le (rangeStart : ℕ) :
    ∀ rangeEnd, slideEnd blockData restoreRange rangeStart rangeEnd ≤ rangeEnd
  | 0 => le_rfl
  | e + 1 => by
    rw [slideEnd]
    split_ifs
    · exact (slideEnd_le rangeStart e).trans (Nat.le_succ e)
    · exact le_rfl

lemma slideStart_drop_take {rangeEnd rangeStart : ℕ} (he : rangeEnd ≤ blockData.length) :
    (blockData.drop (slideStart blockData restoreRange rangeEnd rangeStart)).take
        (rangeEnd - slideStart blockData restoreRange rangeEnd rangeStart) =
      ((blockData.drop rangeStart).take (rangeEnd - rangeStart)).dropWhile
        fun kv => !decide (restoreRange.contains kv.1) := by
  fun_induction slideStart blockData restoreRange rangeEnd rangeStart with
  | case1 s hs ih =>
    rw [ih, drop_take_eq_cons hs.1 he, List.dropWhile_cons_of_pos (by simpa using hs.2)]
  | case2 s hs =>
    by_cases hlt : s < rangeEnd
    · have hin : restoreRange.contains (blockData.getD s default).1 := by
        by_contra hout
        exact hs ⟨hlt, hout⟩
      rw [drop_take_eq_cons hlt he, List.dropWhile_cons_of_neg (by simpa using hin)]
    · rw [show rangeEnd - s = 0 by omega, List.take_zero, List.dropWhile_nil]

lemma slideEnd_drop_take {rangeStart : ℕ} :
    ∀ {rangeEnd : ℕ}, rangeStart ≤ rangeEnd → rangeEnd ≤ blockData.length →
      (blockData.drop rangeStart).take
          (slideEnd blockData restoreRange rangeStart rangeEnd - rangeStart) =
        ((blockData.drop rangeStart).take (rangeEnd - rangeStart)).rdropWhile
          fun kv => !decide (restoreRange.contains kv.1)
  | 0, _, _ => by simp [slideEnd]
  | e + 1, hs, he => by
    by_cases h : rangeStart < e + 1 ∧ ¬ restoreRange.contains (blockData.getD e default).1
    · rw [slideEnd, if_pos h, slideEnd_drop_take (by omega) (by omega),
        drop_take_succ (by omega) (by omega), List.rdropWhile_concat_pos _ _ _ (by simpa using h.2)]
    · rw [slideEnd, if_neg h]
      by_cases hlt : rangeStart < e + 1
      · have hin : restoreRange.contains (blockData.getD e default).1 := by
          by_contra hout
          exact h ⟨hlt, hout⟩
        rw [drop_take_succ (by omega) (by omega), List.rdropWhile_concat_neg _ _ _ (by simpa using hin)]
      · rw [show e + 1 - rangeStart = 0 by omega, List.take_zero, List.rdropWhile_nil]

/-- On a block whose pairs are sorted, `data` is the block's pairs in the restore range. -/
theorem restoreData_eq_filter (hsorted : ((blockPairs blockData).map Prod.fst).Pairwise (· < ·)) :
    restoreData blockData restoreRange =
      (blockPairs blockData).filter fun kv => decide (restoreRange.contains kv.1) := by
  by_cases hlen : 2 ≤ blockData.length
  · have hpairs : (blockData.drop 1).take (blockData.length - 1 - 1) = blockPairs blockData := by
      rw [blockPairs, List.dropLast_eq_take, List.length_drop]
    have hs := slideStart_le blockData restoreRange (show 1 ≤ blockData.length - 1 by omega)
    rw [restoreData, slideEnd_drop_take _ _ hs (by omega), slideStart_drop_take _ _ (by omega),
      hpairs]
    -- the lemma decides the interval with the order's own instances
    convert List.rdropWhile_dropWhile_outside hsorted restoreRange.begin restoreRange.end <;>
      exact Iff.rfl
  · have hnil : blockPairs blockData = [] := by
      rw [blockPairs, List.dropLast_eq_take, List.length_drop]
      simp [show blockData.length - 1 - 1 = 0 by omega]
    have hend := slideEnd_le blockData restoreRange
      (slideStart blockData restoreRange (blockData.length - 1) 1) (blockData.length - 1)
    rw [hnil, List.filter_nil, restoreData, show slideEnd blockData restoreRange (slideStart blockData restoreRange
      (blockData.length - 1) 1) (blockData.length - 1) - slideStart blockData restoreRange
      (blockData.length - 1) 1 = 0 by omega, List.take_zero]

end Slice

/-! ### The write loop -/

/-- The pairs with their keys moved from under `removePrefix` to under `addPrefix`. -/
def movePairs (removePrefix addPrefix : Key) (data : List (Key × Value)) : List (Key × Value) :=
  data.map fun kv => (addPrefix ++ kv.1.drop removePrefix.length, kv.2)

/-- A transaction that, once committed, gives the keys of its cleared range the values of
`target` and leaves the other keys alone. -/
def RestoreTransaction.Writes (tr : RestoreTransaction) (target : Database) : Prop :=
  ∀ db k, tr.commit db k = if tr.trRange.contains k then target k else db k

namespace RestoreTransaction

variable {trs : List RestoreTransaction} {target : Database}

lemma foldl_commit_of_exists (h : ∀ tr ∈ trs, tr.Writes target) (db : Database) {k : Key}
    (hk : ∃ tr ∈ trs, tr.trRange.contains k) :
    trs.foldl (fun db tr => tr.commit db) db k = target k :=
  Overwrite.foldl_of_exists (fun tr : RestoreTransaction => tr.trRange.contains)
    (fun tr db => tr.commit db) _ trs h db k hk

lemma foldl_commit_of_forall_not (h : ∀ tr ∈ trs, tr.Writes target) (db : Database) {k : Key}
    (hk : ∀ tr ∈ trs, ¬ tr.trRange.contains k) :
    trs.foldl (fun db tr => tr.commit db) db k = db k :=
  Overwrite.foldl_of_forall_not (fun tr : RestoreTransaction => tr.trRange.contains)
    (fun tr db => tr.commit db) _ trs h db k hk

lemma Writes.congr {tr : RestoreTransaction} {target' : Database} (h : tr.Writes target)
    (heq : ∀ k, tr.trRange.contains k → target k = target' k) : tr.Writes target' :=
  fun db k => by
    rw [h db k]
    split_ifs with hk
    · exact heq k hk
    · rfl

end RestoreTransaction

/-- What the write loop needs of its pairs and its file range: every key is under
`removePrefix`, and the moved keys increase strictly and lie in the file range. -/
structure Movable (removePrefix addPrefix : Key) (data : List (Key × Value))
    (fileRange : KeyRangeRef) : Prop where
  isPrefix : ∀ kv ∈ data, removePrefix <+: kv.1
  sorted : ((movePairs removePrefix addPrefix data).map Prod.fst).Pairwise (· < ·)
  mem : ∀ kv ∈ movePairs removePrefix addPrefix data, fileRange.contains kv.1

/-- Where the transaction from pair `start` begins its clear. -/
def trBeginAt (fileRange : KeyRangeRef) (M : List (Key × Value)) (start : ℕ) : Key :=
  if start = 0 then fileRange.begin else (M.getD start default).1

/-- Where the transaction up to pair `iend` ends its clear. -/
def trEndAt (fileRange : KeyRangeRef) (M : List (Key × Value)) (iend : ℕ) : Key :=
  if iend = M.length then fileRange.end else (M.getD iend default).1

lemma getD_mem_drop {M : List (Key × Value)} {j : ℕ} (hj : j < M.length) :
    M.getD j default ∈ M.drop j := by
  rw [List.drop_eq_getElem_cons hj, List.getD_eq_getElem _ _ hj]
  exact List.mem_cons_self

lemma getD_mem_drop_of_le {M : List (Key × Value)} {i j : ℕ} (hle : i ≤ j) (hj : j < M.length) :
    M.getD j default ∈ M.drop i := by
  have h := getD_mem_drop hj
  rw [show j = i + (j - i) by omega, ← List.drop_drop] at h
  exact List.mem_of_mem_drop (by rwa [show i + (j - i) = j by omega] at h)

section Sorted

variable {M : List (Key × Value)} (hM : (M.map Prod.fst).Pairwise (· < ·))
include hM

lemma lt_of_mem_take_of_mem_drop {j : ℕ} {p q : Key × Value} (hp : p ∈ M.take j)
    (hq : q ∈ M.drop j) : p.1 < q.1 := by
  have h := hM
  rw [← List.take_append_drop j M, List.map_append, List.pairwise_append] at h
  exact h.2.2 _ (List.mem_map_of_mem hp) _ (List.mem_map_of_mem hq)

lemma lt_getD_of_mem_take {j : ℕ} (hj : j < M.length) {p : Key × Value} (hp : p ∈ M.take j) :
    p.1 < (M.getD j default).1 :=
  lt_of_mem_take_of_mem_drop hM hp (getD_mem_drop hj)

lemma getD_le_of_mem_drop {j : ℕ} (hj : j < M.length) {q : Key × Value} (hq : q ∈ M.drop j) :
    (M.getD j default).1 ≤ q.1 := by
  rw [List.drop_eq_getElem_cons hj] at hq
  rw [List.getD_eq_getElem _ _ hj]
  rcases List.mem_cons.mp hq with rfl | hq
  · exact le_rfl
  · exact (lt_of_mem_take_of_mem_drop hM (List.mem_take_iff_getElem.mpr ⟨j, by omega, rfl⟩) hq).le

end Sorted

section WriteLoop

variable {removePrefix addPrefix : Key} {data : List (Key × Value)} {fileRange : KeyRangeRef}

lemma moveKey_of_isPrefix {key : Key} (h : removePrefix <+: key) :
    moveKey removePrefix addPrefix key = .ok (addPrefix ++ key.drop removePrefix.length) := by
  simp [moveKey, StringRef.removePrefix, h.length_le]

@[simp] lemma length_movePairs : (movePairs removePrefix addPrefix data).length = data.length :=
  List.length_map _

lemma getD_movePairs {j : ℕ} (hj : j < data.length) :
    ((movePairs removePrefix addPrefix data).getD j default).1 =
      addPrefix ++ (data.getD j default).1.drop removePrefix.length := by
  rw [movePairs, List.getD_eq_getElem _ _ (by simpa using hj), List.getElem_map,
    List.getD_eq_getElem _ _ hj]

section ChunkEnd

variable (data : List (Key × Value)) (dataSizeLimit : ℕ)

lemma le_chunkEnd (iend txBytes : ℕ) : iend ≤ chunkEnd data dataSizeLimit iend txBytes := by
  fun_induction chunkEnd data dataSizeLimit iend txBytes with
  | case1 iend txBytes _ ih => exact (Nat.le_succ iend).trans ih
  | case2 => exact le_rfl

lemma chunkEnd_le {iend : ℕ} (txBytes : ℕ) (h : iend ≤ data.length) :
    chunkEnd data dataSizeLimit iend txBytes ≤ data.length := by
  fun_induction chunkEnd data dataSizeLimit iend txBytes with
  | case1 iend txBytes hlt ih => exact ih hlt.1
  | case2 => exact h

lemma lt_chunkEnd {iend txBytes : ℕ} (h : iend < data.length) (hlim : txBytes < dataSizeLimit) :
    iend < chunkEnd data dataSizeLimit iend txBytes := by
  rw [chunkEnd, if_pos ⟨h, hlim⟩]
  exact Nat.lt_of_succ_le (le_chunkEnd data dataSizeLimit _ _)

end ChunkEnd

namespace Movable

variable (hM : Movable removePrefix addPrefix data fileRange)
include hM

lemma begin_le_getD {j : ℕ} (hj : j < data.length) :
    fileRange.begin ≤ ((movePairs removePrefix addPrefix data).getD j default).1 :=
  (hM.mem _ (List.mem_of_mem_drop (getD_mem_drop (by simpa using hj)))).1

lemma getD_lt_end {j : ℕ} (hj : j < data.length) :
    ((movePairs removePrefix addPrefix data).getD j default).1 < fileRange.end :=
  (hM.mem _ (List.mem_of_mem_drop (getD_mem_drop (by simpa using hj)))).2

lemma trBeginAt_le_getD {start j : ℕ} (hle : start ≤ j) (hj : j < data.length) :
    trBeginAt fileRange (movePairs removePrefix addPrefix data) start ≤
      ((movePairs removePrefix addPrefix data).getD j default).1 := by
  unfold trBeginAt
  split_ifs with h0
  · exact hM.begin_le_getD hj
  · exact getD_le_of_mem_drop hM.sorted (by simpa using hle.trans_lt hj)
      (getD_mem_drop_of_le hle (by simpa using hj))

lemma trBeginAt_le_trEndAt {start iend : ℕ} (hle : start ≤ iend) (hiend : iend ≤ data.length)
    (hstart : start = 0 ∨ start < data.length) :
    trBeginAt fileRange (movePairs removePrefix addPrefix data) start ≤
      trEndAt fileRange (movePairs removePrefix addPrefix data) iend := by
  unfold trEndAt
  rw [length_movePairs]
  split_ifs with h
  · unfold trBeginAt
    split_ifs with h0
    · exact fileRange.begin_le_end
    · exact (hM.getD_lt_end (hstart.resolve_left h0)).le
  · exact hM.trBeginAt_le_getD hle (by omega)

lemma restoreTransaction_eq {start iend : ℕ} (hle : start ≤ iend) (hiend : iend ≤ data.length)
    (hstart : start = 0 ∨ start < data.length) :
    ∃ tr, restoreTransaction data fileRange removePrefix addPrefix start iend = .ok tr ∧
      tr.trRange.begin = trBeginAt fileRange (movePairs removePrefix addPrefix data) start ∧
      tr.trRange.end = trEndAt fileRange (movePairs removePrefix addPrefix data) iend ∧
      tr.sets = ((movePairs removePrefix addPrefix data).drop start).take (iend - start) := by
  have hmove : ∀ kv ∈ data, moveKey removePrefix addPrefix kv.1 =
      .ok (addPrefix ++ kv.1.drop removePrefix.length) := fun kv hkv =>
    moveKey_of_isPrefix (hM.isPrefix kv hkv)
  have hgetD : ∀ j < data.length, moveKey removePrefix addPrefix (data.getD j default).1 =
      .ok ((movePairs removePrefix addPrefix data).getD j default).1 := fun j hj => by
    rw [getD_movePairs hj]
    exact hmove _ (List.mem_of_mem_drop (getD_mem_drop hj))
  have hB : (if start = 0 then pure fileRange.begin
      else moveKey removePrefix addPrefix (data.getD start default).1 : Except BackupError Key) =
      .ok (trBeginAt fileRange (movePairs removePrefix addPrefix data) start) := by
    unfold trBeginAt
    split_ifs with h0
    · rfl
    · exact hgetD start (hstart.resolve_left h0)
  have hE : (if iend = data.length then pure fileRange.end
      else moveKey removePrefix addPrefix (data.getD iend default).1 : Except BackupError Key) =
      .ok (trEndAt fileRange (movePairs removePrefix addPrefix data) iend) := by
    unfold trEndAt
    rw [length_movePairs]
    split_ifs with h
    · rfl
    · exact hgetD iend (by omega)
  have hrange := hM.trBeginAt_le_trEndAt hle hiend hstart
  have hf : ∀ kv ∈ (data.drop start).take (iend - start),
      (do pure (← moveKey removePrefix addPrefix kv.1, kv.2) : Except BackupError (Key × Value)) =
        pure (addPrefix ++ kv.1.drop removePrefix.length, kv.2) := fun kv hkv => by
    rw [hmove kv (List.mem_of_mem_drop (List.take_subset _ _ hkv))]
    rfl
  have hsets := Blocks.mapM_eq_pure_map _ hf
  refine ⟨⟨⟨_, _, hrange⟩, _⟩, ?_, rfl, rfl, rfl⟩
  rw [restoreTransaction, hB, Flow.ok_bind, hE, Flow.ok_bind, keyRange, dif_pos hrange,
    Flow.ok_bind, hsets, List.map_take, List.map_drop]
  rfl

lemma writes {start iend : ℕ} (hle : start ≤ iend) (hiend : iend ≤ data.length) (hstart : start = 0 ∨ start < data.length)
    {tr : RestoreTransaction}
    (hbegin : tr.trRange.begin = trBeginAt fileRange (movePairs removePrefix addPrefix data) start)
    (hend : tr.trRange.end = trEndAt fileRange (movePairs removePrefix addPrefix data) iend)
    (hsets : tr.sets = ((movePairs removePrefix addPrefix data).drop start).take (iend - start)) :
    tr.Writes fun k => (movePairs removePrefix addPrefix data).lookup k := by
  have hsorted := hM.sorted
  -- the pairs before `start` lie below the cleared range, those from `iend` on above it
  have hbelow : ∀ p ∈ (movePairs removePrefix addPrefix data).take start,
      p.1 < tr.trRange.begin := fun p hp => by
    rw [hbegin, trBeginAt]
    split_ifs with h0
    · simp [h0] at hp
    · exact lt_getD_of_mem_take hsorted (by simpa using hstart.resolve_left h0) hp
  have habove : ∀ p ∈ (movePairs removePrefix addPrefix data).drop iend,
      tr.trRange.end ≤ p.1 := fun p hp => by
    rw [hend, trEndAt]
    split_ifs with h
    · rw [h, List.drop_length] at hp
      exact absurd hp List.not_mem_nil
    · exact getD_le_of_mem_drop hsorted (by simp at h ⊢; omega) hp
  have hsplit : movePairs removePrefix addPrefix data =
      (movePairs removePrefix addPrefix data).take start ++ tr.sets ++
        (movePairs removePrefix addPrefix data).drop iend := by
    have hdrop : (movePairs removePrefix addPrefix data).drop iend =
        ((movePairs removePrefix addPrefix data).drop start).drop (iend - start) := by
      rw [List.drop_drop, show start + (iend - start) = iend by omega]
    rw [hsets, hdrop, List.append_assoc, List.take_append_drop, List.take_append_drop]
  have hsub : ∀ p ∈ tr.sets, p ∈ (movePairs removePrefix addPrefix data).drop start :=
    fun p hp => List.take_subset _ _ (hsets ▸ hp)
  have hcross : ∀ p ∈ tr.sets, ∀ q ∈ (movePairs removePrefix addPrefix data).drop iend,
      p.1 < q.1 := by
    have h := hsorted
    rw [hsplit, List.map_append, List.pairwise_append] at h
    exact fun p hp q hq =>
      h.2.2 _ (List.mem_map_of_mem (List.mem_append_right _ hp)) _ (List.mem_map_of_mem hq)
  have hnodup : (tr.sets.map Prod.fst).Nodup :=
    (hsorted.sublist (List.Sublist.map _ (hsets ▸ (List.take_sublist _ _).trans
      (List.drop_sublist _ _)))).imp ne_of_lt
  have hS : ∀ p ∈ tr.sets, tr.trRange.contains p.1 := by
    intro p hp
    refine ⟨?_, ?_⟩
    · rw [hbegin, trBeginAt]
      split_ifs with h0
      · exact (hM.mem p (List.mem_of_mem_drop (hsub p hp))).1
      · exact getD_le_of_mem_drop hsorted (by simpa using hstart.resolve_left h0) (hsub p hp)
    · rw [hend, trEndAt]
      split_ifs with h
      · exact (hM.mem p (List.mem_of_mem_drop (hsub p hp))).2
      · exact hcross p hp _ (getD_mem_drop (by simp at h ⊢; omega))
  intro db k
  rw [RestoreTransaction.commit, Overwrite.foldl_update_clear _ db tr.sets hS hnodup k]
  split_ifs with hk
  · beta_reduce
    rw [hsplit, Overwrite.lookup_append_append (fun p hp => ((hbelow p hp).trans_le hk.1).ne)
      (fun p hp => (hk.2.trans_le (habove p hp)).ne')]
  · rfl

lemma trEndAt_le_end {iend : ℕ} (hiend : iend ≤ data.length) :
    trEndAt fileRange (movePairs removePrefix addPrefix data) iend ≤ fileRange.end := by
  unfold trEndAt
  split_ifs with h
  · exact le_rfl
  · exact (hM.getD_lt_end (by simp at h; omega)).le

lemma trBeginAt_mono {start iend : ℕ} (hle : start ≤ iend) (hiend : iend < data.length) :
    trBeginAt fileRange (movePairs removePrefix addPrefix data) start ≤
      trBeginAt fileRange (movePairs removePrefix addPrefix data) iend := by
  unfold trBeginAt
  split_ifs with h0 h1 h1
  · exact le_rfl
  · exact hM.begin_le_getD hiend
  · omega
  · exact getD_le_of_mem_drop hM.sorted (by simpa using hle.trans_lt hiend)
      (getD_mem_drop_of_le hle (by simpa using hiend))

lemma writeLoop_finishes : ∀ (outcomes : List CommitOutcome) (start dataSizeLimit : ℕ),
    start ≤ data.length → (start = 0 ∨ start < data.length) →
    max 1 (data.length - start) ≤ outcomes.count .committed →
    2 ^ outcomes.count .transactionTooLarge ≤ dataSizeLimit →
    ∃ trs rest, writeLoop data fileRange removePrefix addPrefix outcomes start dataSizeLimit =
      .ok (trs, some rest)
  | [], _, _, _, _, hcount, _ => by simp at hcount
  | outcome :: outcomes, start, dataSizeLimit, hle, hstart, hcount, hlimit => by
    have hchunk := le_chunkEnd data dataSizeLimit start 0
    have hchunk' := chunkEnd_le data dataSizeLimit 0 hle
    obtain ⟨tr, htr, -⟩ := hM.restoreTransaction_eq hchunk hchunk' hstart
    cases outcome with
    | committed =>
      by_cases hfin : chunkEnd data dataSizeLimit start 0 = data.length
      · refine ⟨[tr], outcomes, ?_⟩
        rw [writeLoop, htr, Flow.ok_bind]
        simp only [if_pos hfin]
        rfl
      · have hlt : chunkEnd data dataSizeLimit start 0 < data.length := lt_of_le_of_ne hchunk' hfin
        have hpos : 0 < dataSizeLimit := lt_of_lt_of_le (pow_pos two_pos _) hlimit
        -- the limit is positive, so this transaction took a pair
        have hstep := lt_chunkEnd data dataSizeLimit (hchunk.trans_lt hlt) hpos
        simp only [List.count_cons_self] at hcount
        simp only [List.count_cons, reduceCtorEq, beq_iff_eq, if_false, add_zero] at hlimit
        obtain ⟨trs, rest, hrun⟩ := writeLoop_finishes outcomes _ dataSizeLimit hchunk' (.inr hlt)
          (by omega) hlimit
        refine ⟨tr :: trs, rest, ?_⟩
        rw [writeLoop, htr, Flow.ok_bind]
        simp only [if_neg hfin]
        rw [hrun, Flow.ok_bind]
        rfl
    | transactionTooLarge =>
      simp only [List.count_cons_self] at hlimit
      simp only [List.count_cons, reduceCtorEq, beq_iff_eq, if_false, add_zero] at hcount
      obtain ⟨trs, rest, hrun⟩ := writeLoop_finishes outcomes start (dataSizeLimit / 2) hle hstart
        hcount ((Nat.le_div_iff_mul_le two_pos).mpr (by rw [← pow_succ]; exact hlimit))
      exact ⟨trs, rest, by rw [writeLoop, htr, Flow.ok_bind]; exact hrun⟩
    | retryable =>
      simp only [List.count_cons, reduceCtorEq, beq_iff_eq, if_false, add_zero] at hcount hlimit
      obtain ⟨trs, rest, hrun⟩ := writeLoop_finishes outcomes start dataSizeLimit hle hstart
        hcount hlimit
      exact ⟨trs, rest, by rw [writeLoop, htr, Flow.ok_bind]; exact hrun⟩

lemma writeLoop_run : ∀ (outcomes : List CommitOutcome) (start dataSizeLimit : ℕ),
    start ≤ data.length → (start = 0 ∨ start < data.length) →
    ∃ trs rest, writeLoop data fileRange removePrefix addPrefix outcomes start dataSizeLimit =
        .ok (trs, rest) ∧
      (∀ tr ∈ trs, tr.Writes (fun k => (movePairs removePrefix addPrefix data).lookup k) ∧
        ∀ k, tr.trRange.contains k →
          trBeginAt fileRange (movePairs removePrefix addPrefix data) start ≤ k ∧
            k < fileRange.end) ∧
      (rest.isSome → ∀ k, trBeginAt fileRange (movePairs removePrefix addPrefix data) start ≤ k →
        k < fileRange.end → ∃ tr ∈ trs, tr.trRange.contains k)
  | [], _, _, _, _ => ⟨[], none, rfl, by simp, by simp⟩
  | outcome :: outcomes, start, dataSizeLimit, hle, hstart => by
    have hchunk := le_chunkEnd data dataSizeLimit start 0
    have hchunk' := chunkEnd_le data dataSizeLimit 0 hle
    obtain ⟨tr, htr, hbegin, hend, hsets⟩ := hM.restoreTransaction_eq hchunk hchunk' hstart
    have hw := hM.writes hchunk hchunk' hstart hbegin hend hsets
    -- the stretch this transaction clears
    have hin : ∀ k, tr.trRange.contains k →
        trBeginAt fileRange (movePairs removePrefix addPrefix data) start ≤ k ∧
          k < fileRange.end := fun k hk =>
      ⟨hbegin ▸ hk.1, (hend ▸ hk.2).trans_le (hM.trEndAt_le_end hchunk')⟩
    cases outcome with
    | committed =>
      by_cases hfin : chunkEnd data dataSizeLimit start 0 = data.length
      · refine ⟨[tr], some outcomes, ?_, by simpa using ⟨hw, hin⟩, fun _ k hk₁ hk₂ => ⟨tr, by simp,
          hbegin ▸ hk₁, ?_⟩⟩
        · rw [writeLoop, htr, Flow.ok_bind]
          simp only [if_pos hfin]
          rfl
        · rw [hend, trEndAt, length_movePairs, if_pos hfin]
          exact hk₂
      · have hlt : chunkEnd data dataSizeLimit start 0 < data.length := lt_of_le_of_ne hchunk' hfin
        obtain ⟨trs, rest, hrun, htrs, hcover⟩ :=
          writeLoop_run outcomes _ dataSizeLimit hchunk' (.inr hlt)
        have hmono := hM.trBeginAt_mono hchunk hlt
        refine ⟨tr :: trs, rest, ?_, ?_, ?_⟩
        · rw [writeLoop, htr, Flow.ok_bind]
          simp only [if_neg hfin]
          rw [hrun, Flow.ok_bind]
          rfl
        · intro tr' htr'
          rcases List.mem_cons.mp htr' with rfl | htr'
          · exact ⟨hw, hin⟩
          · exact ⟨(htrs tr' htr').1, fun k hk => ⟨hmono.trans ((htrs tr' htr').2 k hk).1,
              ((htrs tr' htr').2 k hk).2⟩⟩
        · intro hrest k hk₁ hk₂
          by_cases hk : k < tr.trRange.end
          · exact ⟨tr, List.mem_cons_self, hbegin ▸ hk₁, hk⟩
          · obtain ⟨tr', htr', hk'⟩ := hcover hrest k ((hM.trBeginAt_le_trEndAt le_rfl hchunk'
              (.inr hlt)).trans (hend ▸ not_lt.mp hk)) hk₂
            exact ⟨tr', List.mem_cons_of_mem tr htr', hk'⟩
    | transactionTooLarge =>
      obtain ⟨trs, rest, hrun, htrs, hcover⟩ :=
        writeLoop_run outcomes start (dataSizeLimit / 2) hle hstart
      refine ⟨trs, rest, ?_, htrs, hcover⟩
      rw [writeLoop, htr, Flow.ok_bind]
      exact hrun
    | retryable =>
      obtain ⟨trs, rest, hrun, htrs, hcover⟩ := writeLoop_run outcomes start dataSizeLimit hle hstart
      refine ⟨trs, rest, ?_, htrs, hcover⟩
      rw [writeLoop, htr, Flow.ok_bind]
      exact hrun

end Movable

end WriteLoop

/-! ### The shrunk and moved file range -/

section Shrink

variable {removePrefix addPrefix : Key}

lemma lt_add_one_of_ne {b : Fin 256} (hb : b.val ≠ 255) : b < b + 1 := by
  rw [Fin.lt_def, Fin.val_add]
  have := b.isLt
  simp only [Fin.val_one]
  omega

lemma le_of_lt_add_one {b c : Fin 256} (h : c < b + 1) : c ≤ b := by
  rw [Fin.lt_def, Fin.val_add] at h
  have := b.isLt
  simp only [Fin.val_one] at h
  rw [Fin.le_def]
  omega

lemma strinc_split {s : Key} (h : ∃ b ∈ s, b.val ≠ 255) :
    ∃ p b u, s = p ++ b :: u ∧ b.val ≠ 255 ∧ (∀ x ∈ u, x = 255) ∧
      strinc s = .ok (p ++ [b + 1]) := by
  unfold strinc
  cases hd : s.reverse.dropWhile (· = 255) with
  | nil =>
    obtain ⟨b, hb, hb255⟩ := h
    have h255 := List.dropWhile_eq_nil_iff.mp hd b (List.mem_reverse.mpr hb)
    simp only [decide_eq_true_eq] at h255
    exact absurd (congrArg Fin.val h255) hb255
  | cons b rest =>
    have hb : b ≠ 255 := by
      have := List.head_dropWhile_not (fun c : Fin 256 => decide (c = 255)) (l := s.reverse) (by simp [hd])
      simpa [hd] using this
    refine ⟨rest.reverse, b, (s.reverse.takeWhile (· = 255)).reverse, ?_, fun h => hb (Fin.ext h),
      fun x hx => ?_, rfl⟩
    · conv_lhs => rw [← List.reverse_reverse s, ← List.takeWhile_append_dropWhile (p := (· = 255))
        (l := s.reverse), hd]
      simp
    · simpa using List.mem_takeWhile_imp (List.mem_reverse.mp hx)

lemma exists_ne_of_strinc {s t : Key} (ht : strinc s = .ok t) : ∃ b ∈ s, b.val ≠ 255 := by
  by_contra hall
  simp only [not_exists, not_and, not_not] at hall
  have hd : s.reverse.dropWhile (· = 255) = [] := List.dropWhile_eq_nil_iff.mpr fun b hb => by
    simp [Fin.ext_iff, hall b (List.mem_reverse.mp hb)]
  simp [strinc, hd] at ht

lemma strinc_bound {s : Key} (h : ∃ b ∈ s, b.val ≠ 255) :
    ∃ t, strinc s = .ok t ∧ ∀ y, s <+: y → y < t := by
  obtain ⟨p, b, u, rfl, hb, -, ht⟩ := strinc_split h
  refine ⟨_, ht, fun y hy => ?_⟩
  obtain ⟨w, rfl⟩ := hy
  rw [List.append_assoc, List.cons_append]
  exact List.append_left_lt (List.cons_lt_cons_iff.mpr (.inl (lt_add_one_of_ne hb)))

lemma isPrefix_of_lt_strinc {s t k : Key} (ht : strinc s = .ok t) (h₁ : s ≤ k) (h₂ : k < t) :
    s <+: k := by
  obtain ⟨p, b, u, rfl, hb, hu, ht'⟩ := strinc_split (exists_ne_of_strinc ht)
  obtain rfl : t = p ++ [b + 1] := Except.ok.inj (ht.symm.trans ht')
  -- `k` goes on with `p`, with which both bounds begin
  obtain ⟨k', rfl⟩ := (List.prefix_append p (b :: u)).of_le_of_lt (List.prefix_append p [b + 1])
    h₁ h₂
  rw [List.append_le_append_left_iff] at h₁
  rw [List.append_lt_append_left_iff] at h₂
  cases k' with
  | nil => exact absurd h₁ (not_le.mpr (List.nil_lt_cons b u))
  | cons c k'' =>
    have hcb : c ≤ b := le_of_lt_add_one (by simpa [List.cons_lt_cons_iff] using h₂)
    rw [← not_lt, List.cons_lt_cons_iff] at h₁
    obtain rfl : c = b := le_antisymm hcb (not_lt.mp fun h => h₁ (.inl h))
    -- past `b`, `k` is at or above the run of `0xFF` that `s` ends with
    have hu' : u <+: k'' := List.prefix_of_forall_eq_top_of_le
      (fun x hx => (hu x hx).trans (by decide)) (not_lt.mp fun h => h₁ (.inr ⟨rfl, h⟩))
    exact (List.prefix_append_right_inj p).mpr (List.cons_prefix_cons.mpr ⟨rfl, hu'⟩)

/-- A prefix `strinc` can step past: empty, or with a byte below `0xFF`. -/
def Incrementable (p : Key) : Prop := p = [] ∨ ∃ b ∈ p, b.val ≠ 255

instance (p : Key) : Decidable (Incrementable p) := inferInstanceAs (Decidable (_ ∨ _))

lemma shrunkFileEnd_of_ne (hr : Incrementable removePrefix) {fileEnd : Key}
    (hend : removePrefix <+: fileEnd) (hne : removePrefix = [] → fileEnd ≠ normalKeysEnd) :
    shrunkFileEnd removePrefix addPrefix fileEnd = moveKey removePrefix addPrefix fileEnd := by
  rcases hr with rfl | hr
  · simp [shrunkFileEnd, hne rfl]
  · obtain ⟨t, ht, hbound⟩ := strinc_bound hr
    have hnil : removePrefix ≠ [] := by
      rintro rfl
      simp at hr
    simp [shrunkFileEnd, hnil, ht, (hbound fileEnd hend).ne]

lemma shrunkFileEnd_normalKeysEnd :
    shrunkFileEnd [] addPrefix normalKeysEnd =
      if addPrefix = [] then .ok normalKeysEnd else strinc addPrefix := by
  simp [shrunkFileEnd]

lemma shrunkFileEnd_spec (hr : Incrementable removePrefix) (ha : Incrementable addPrefix)
    {fileEnd : Key} (hend : removePrefix <+: fileEnd) :
    ∃ e, shrunkFileEnd removePrefix addPrefix fileEnd = .ok e ∧
      (∀ x, removePrefix <+: x → x ≤ fileEnd → addPrefix ++ x.drop removePrefix.length ≤ e) ∧
      (∀ x, removePrefix <+: x → x < fileEnd → addPrefix ++ x.drop removePrefix.length < e) ∧
      ∀ x, removePrefix <+: x → (removePrefix = [] → x < normalKeysEnd) →
        addPrefix ++ x.drop removePrefix.length < e → x < fileEnd := by
  by_cases hspecial : removePrefix = [] ∧ fileEnd = normalKeysEnd
  · -- the end of the keys becomes the end of those under `addPrefix`
    obtain ⟨rfl, rfl⟩ := hspecial
    rw [shrunkFileEnd_normalKeysEnd]
    rcases ha with rfl | ha
    · exact ⟨normalKeysEnd, rfl, fun x _ hle => by simpa using hle,
        fun x _ hlt => by simpa using hlt, fun x _ hx _ => hx rfl⟩
    · obtain ⟨t, ht, hbound⟩ := strinc_bound ha
      have hne : addPrefix ≠ [] := by
        rintro rfl
        simp at ha
      exact ⟨t, by simp [hne, ht], fun x _ _ => (hbound _ (List.prefix_append _ _)).le,
        fun x _ _ => hbound _ (List.prefix_append _ _), fun x _ hx _ => hx rfl⟩
  · rw [shrunkFileEnd_of_ne hr hend fun h h' => hspecial ⟨h, h'⟩, moveKey_of_isPrefix hend]
    exact ⟨_, rfl, fun x hx hle => (List.move_le_move_iff hx hend).mpr hle,
      fun x hx hlt => (List.move_lt_move_iff hx hend).mpr hlt,
      fun x hx _ hlt => (List.move_lt_move_iff hx hend).mp hlt⟩

lemma shrunkFileEnd_mono (hr : Incrementable removePrefix) (ha : Incrementable addPrefix)
    {x y e₁ e₂ : Key} (hx : removePrefix <+: x) (hy : removePrefix <+: y) (hxy : x ≤ y)
    (hside : removePrefix = [] → y ≤ normalKeysEnd)
    (he₁ : shrunkFileEnd removePrefix addPrefix x = .ok e₁)
    (he₂ : shrunkFileEnd removePrefix addPrefix y = .ok e₂) : e₁ ≤ e₂ := by
  rcases hxy.lt_or_eq with hlt | rfl
  · -- below `y`, `x` is not the end of the keys, so it is moved
    rw [shrunkFileEnd_of_ne hr hx fun h hx' => absurd (hx' ▸ hlt) (not_lt.mpr (hside h)),
      moveKey_of_isPrefix hx] at he₁
    obtain ⟨e, he, -, hlt_e, -⟩ := shrunkFileEnd_spec hr ha hy
    obtain rfl : e₂ = e := Except.ok.inj (he₂.symm.trans he)
    obtain rfl := Except.ok.inj he₁
    exact (hlt_e x hx hlt).le
  · exact (Except.ok.inj (he₁.symm.trans he₂)).le

lemma isPrefix_of_lt_shrunkFileEnd (hr : Incrementable removePrefix) {fileEnd e lo k : Key}
    (hend : removePrefix <+: fileEnd) (he : shrunkFileEnd removePrefix addPrefix fileEnd = .ok e)
    (h₁ : addPrefix ++ lo ≤ k) (h₂ : k < e) : addPrefix <+: k := by
  by_cases hspecial : removePrefix = [] ∧ fileEnd = normalKeysEnd
  · obtain ⟨rfl, rfl⟩ := hspecial
    rw [shrunkFileEnd_normalKeysEnd] at he
    split_ifs at he with ha
    · rw [ha]
      exact List.nil_prefix
    · exact isPrefix_of_lt_strinc he ((List.self_le_append _ _).trans h₁) h₂
  · rw [shrunkFileEnd_of_ne hr hend fun h h' => hspecial ⟨h, h'⟩, moveKey_of_isPrefix hend] at he
    obtain rfl := Except.ok.inj he
    exact (List.prefix_append _ _).of_le_of_lt (List.prefix_append _ _) h₁ h₂

lemma shrinkFileRange_spec (hr : Incrementable removePrefix) (ha : Incrementable addPrefix)
    {fileRange restoreRange : KeyRangeRef}
    (hpfx : removePrefix <+: restoreRange.begin ∧ removePrefix <+: restoreRange.end)
    (hmeets : fileRange.intersects restoreRange) :
    ∃ fileRange', shrinkFileRange removePrefix addPrefix fileRange restoreRange = .ok fileRange' ∧
      fileRange'.begin =
        addPrefix ++ (max fileRange.begin restoreRange.begin).drop removePrefix.length ∧
      (∀ x, removePrefix <+: x → x < min fileRange.end restoreRange.end →
        addPrefix ++ x.drop removePrefix.length < fileRange'.end) ∧
      (∀ x, removePrefix <+: x → (removePrefix = [] → x < normalKeysEnd) →
        addPrefix ++ x.drop removePrefix.length < fileRange'.end →
          x < min fileRange.end restoreRange.end) ∧
      shrunkFileEnd removePrefix addPrefix (min fileRange.end restoreRange.end) =
        .ok fileRange'.end := by
  have hlo_le : max fileRange.begin restoreRange.begin ≤ restoreRange.end :=
    max_le hmeets.1.le restoreRange.begin_le_end
  have hle : max fileRange.begin restoreRange.begin ≤ min fileRange.end restoreRange.end :=
    le_min (max_le fileRange.begin_le_end hmeets.2.le) hlo_le
  have hlo : removePrefix <+: max fileRange.begin restoreRange.begin :=
    hpfx.1.of_le_of_le hpfx.2 (le_max_right _ _) hlo_le
  have hhi : removePrefix <+: min fileRange.end restoreRange.end :=
    hpfx.1.of_le_of_le hpfx.2 ((le_max_right _ _).trans hle) (min_le_right _ _)
  obtain ⟨e, he, hle_e, hlt_e, hlt_e'⟩ := shrunkFileEnd_spec hr ha hhi
  have hrange := hle_e _ hlo hle
  refine ⟨⟨_, e, hrange⟩, ?_, rfl, hlt_e, hlt_e', he⟩
  rw [shrinkFileRange, he, Flow.ok_bind, moveKey_of_isPrefix hlo, Flow.ok_bind, keyRange,
    dif_pos hrange]

lemma movable_restoreData {blockData : List (Key × Value)}
    {fileRange restoreRange fileRange' : KeyRangeRef}
    (hsorted : ((blockPairs blockData).map Prod.fst).Pairwise (· < ·))
    (hpairs : ∀ kv ∈ blockPairs blockData, fileRange.contains kv.1)
    (hpfx : removePrefix <+: restoreRange.begin ∧ removePrefix <+: restoreRange.end)
    (hbegin : fileRange'.begin =
      addPrefix ++ (max fileRange.begin restoreRange.begin).drop removePrefix.length)
    (hend : ∀ x, removePrefix <+: x → x < min fileRange.end restoreRange.end →
      addPrefix ++ x.drop removePrefix.length < fileRange'.end) :
    Movable removePrefix addPrefix (restoreData blockData restoreRange) fileRange' := by
  rw [restoreData_eq_filter _ _ hsorted]
  have hmem : ∀ kv ∈ (blockPairs blockData).filter fun kv => decide (restoreRange.contains kv.1),
      fileRange.contains kv.1 ∧ restoreRange.contains kv.1 := fun kv hkv => by
    rw [List.mem_filter] at hkv
    exact ⟨hpairs kv hkv.1, by simpa using hkv.2⟩
  have hpre : ∀ kv ∈ (blockPairs blockData).filter fun kv => decide (restoreRange.contains kv.1),
      removePrefix <+: kv.1 := fun kv hkv =>
    hpfx.1.of_le_of_lt hpfx.2 (hmem kv hkv).2.1 (hmem kv hkv).2.2
  refine ⟨hpre, ?_, ?_⟩
  · rw [movePairs, List.map_map, List.pairwise_map]
    exact ((List.pairwise_map.mp hsorted).sublist List.filter_sublist).imp_of_mem
      fun ha hb hab => (List.move_lt_move_iff (hpre _ ha) (hpre _ hb)).mpr hab
  · intro kv hkv
    obtain ⟨kv', hkv', rfl⟩ := List.mem_map.mp hkv
    obtain ⟨⟨hf₁, hf₂⟩, hr₁, hr₂⟩ := hmem kv' hkv'
    have hlo : removePrefix <+: max fileRange.begin restoreRange.begin :=
      hpfx.1.of_le_of_lt hpfx.2 (le_max_right _ _) ((max_le hf₁ hr₁).trans_lt hr₂)
    refine ⟨?_, hend _ (hpre kv' hkv') (lt_min hf₂ hr₂)⟩
    rw [hbegin]
    exact (List.move_le_move_iff hlo (hpre kv' hkv')).mpr (max_le hf₁ hr₁)

end Shrink

/-! ### The task -/

/-- What a block's restore of `restoreRange` is meant to leave in the keys it clears: the block's
pairs in the restore range, moved from under `removePrefix` to under `addPrefix`. -/
def restoreTarget (removePrefix addPrefix : Key) (blockData : List (Key × Value))
    (restoreRange : KeyRangeRef) : Database := fun k =>
  (movePairs removePrefix addPrefix
    ((blockPairs blockData).filter fun kv => decide (restoreRange.contains kv.1))).lookup k

section Task

variable {blockData : List (Key × Value)} {removePrefix addPrefix : Key} {dataSizeLimit : ℕ}

lemma max_le_min_of_intersects {fileRange restoreRange : KeyRangeRef}
    (h : fileRange.intersects restoreRange) :
    max fileRange.begin restoreRange.begin ≤ min fileRange.end restoreRange.end :=
  le_min (max_le fileRange.begin_le_end h.2.le) (max_le h.1.le restoreRange.begin_le_end)

lemma restoreRangesLoop_singleton {restoreRange fileRange fileRange' : KeyRangeRef}
    {outcomes : List CommitOutcome} (h : fileRange.intersects restoreRange)
    (hshrink : shrinkFileRange removePrefix addPrefix fileRange restoreRange = .ok fileRange')
    {trs : List RestoreTransaction} {rest : Option (List CommitOutcome)}
    (hloop : writeLoop (restoreData blockData restoreRange) fileRange' removePrefix addPrefix
      outcomes 0 dataSizeLimit = .ok (trs, rest)) :
    ∃ originalFileRanges, restoreRangesLoop blockData removePrefix addPrefix dataSizeLimit
      [restoreRange] outcomes fileRange = .ok (trs, originalFileRanges, rest) := by
  have hle := max_le_min_of_intersects h
  rw [restoreRangesLoop, if_pos h, keyRange, dif_pos hle, Flow.ok_bind, hshrink, Flow.ok_bind,
    hloop, Flow.ok_bind]
  cases rest with
  | none => exact ⟨_, rfl⟩
  | some outcomes' =>
    refine ⟨[⟨_, _, hle⟩], ?_⟩
    simp only [restoreRangesLoop]
    rw [Flow.except_pure, Flow.ok_bind, List.append_nil]
    rfl

lemma restoreRangeTask_run (dataSizeLimit : ℕ) (outcomes : List CommitOutcome)
    (hsorted : ((blockPairs blockData).map Prod.fst).Pairwise (· < ·))
    (hpairs : ∀ kv ∈ blockPairs blockData,
      (blockRange blockData).1 ≤ kv.1 ∧ kv.1 < (blockRange blockData).2)
    (hrange : (blockRange blockData).1 ≤ (blockRange blockData).2) {restoreRange : KeyRangeRef}
    (hmeets : (blockRange blockData).1 < restoreRange.end ∧
      restoreRange.begin < (blockRange blockData).2)
    (hpfx : removePrefix <+: restoreRange.begin ∧ removePrefix <+: restoreRange.end)
    (hr : Incrementable removePrefix) (ha : Incrementable addPrefix) :
    ∃ fileRange', shrinkFileRange removePrefix addPrefix ⟨_, _, hrange⟩ restoreRange =
        .ok fileRange' ∧
      ∃ trs originalFileRanges rest, restoreRangeTask blockData [restoreRange] removePrefix
          addPrefix dataSizeLimit outcomes = .ok (trs, originalFileRanges, rest) ∧
        (∀ tr ∈ trs, tr.Writes (restoreTarget removePrefix addPrefix blockData restoreRange) ∧
          ∀ k, tr.trRange.contains k → fileRange'.contains k) ∧
        (rest.isSome → ∀ k, fileRange'.contains k → ∃ tr ∈ trs, tr.trRange.contains k) ∧
        (max 1 ((blockPairs blockData).filter fun kv => decide (restoreRange.contains kv.1)).length ≤
            outcomes.count .committed →
          2 ^ outcomes.count .transactionTooLarge ≤ dataSizeLimit → rest.isSome) := by
  have hint : (⟨_, _, hrange⟩ : KeyRangeRef).intersects restoreRange := hmeets
  obtain ⟨fileRange', hshrink, hbegin, hend, -, -⟩ := shrinkFileRange_spec hr ha hpfx hint
  have hpairs' : ∀ kv ∈ blockPairs blockData, (⟨_, _, hrange⟩ : KeyRangeRef).contains kv.1 := hpairs
  have hM := movable_restoreData hsorted hpairs' hpfx hbegin hend
  have htarget : (fun k => (movePairs removePrefix addPrefix
      (restoreData blockData restoreRange)).lookup k) =
      restoreTarget removePrefix addPrefix blockData restoreRange := by
    rw [restoreData_eq_filter _ _ hsorted]
    rfl
  have hbegin₀ : trBeginAt fileRange' (movePairs removePrefix addPrefix
      (restoreData blockData restoreRange)) 0 = fileRange'.begin := if_pos rfl
  obtain ⟨trs, rest, hrun, htrs, hcover⟩ :=
    hM.writeLoop_run outcomes 0 dataSizeLimit (Nat.zero_le _) (.inl rfl)
  obtain ⟨originalFileRanges, hloop⟩ := restoreRangesLoop_singleton hint hshrink hrun
  refine ⟨fileRange', hshrink, trs, originalFileRanges, rest, ?_, fun tr htr => ⟨?_, ?_⟩,
    fun hdone k hk => hcover hdone k (hbegin₀ ▸ hk.1) hk.2, fun hcount hlimit => ?_⟩
  · rw [restoreRangeTask, keyRange, dif_pos hrange, Flow.ok_bind]
    exact hloop
  · exact htarget ▸ (htrs tr htr).1
  · intro k hk
    have h := (htrs tr htr).2 k hk
    rw [hbegin₀] at h
    exact h
  · rw [← restoreData_eq_filter _ _ hsorted] at hcount
    obtain ⟨trs', rest', hrun'⟩ := hM.writeLoop_finishes outcomes 0 dataSizeLimit (Nat.zero_le _)
      (.inl rfl) hcount hlimit
    rw [hrun] at hrun'
    cases hrun'
    rfl

lemma restoreRangeTask_of_not_meets (hrange : (blockRange blockData).1 ≤ (blockRange blockData).2)
    {restoreRange : KeyRangeRef} (h : ¬ ((blockRange blockData).1 < restoreRange.end ∧
      restoreRange.begin < (blockRange blockData).2)) (outcomes : List CommitOutcome) :
    restoreRangeTask blockData [restoreRange] removePrefix addPrefix dataSizeLimit outcomes =
      .ok ([], [], some outcomes) := by
  have h' : ¬ (⟨_, _, hrange⟩ : KeyRangeRef).intersects restoreRange := h
  rw [restoreRangeTask, keyRange, dif_pos hrange, Flow.ok_bind, restoreRangesLoop, if_neg h']
  rfl

/-- A block's restore task over one restore range under `removePrefix` that the block's range
meets, whatever becomes of its commits: it fails on nothing, and each transaction it commits gives
the keys it clears the block's pairs in the restore range, moved under `addPrefix`, and clears
keys of the file range shrunk to the restore range and moved only. Once the task is done, that
range holds exactly those pairs and every other key its old value. The task is done once enough
commits succeed while the size limit is still positive. -/
theorem restoreRangeTask_restores (blockData : List (Key × Value)) (restoreRange : KeyRangeRef)
    (removePrefix addPrefix : Key) (dataSizeLimit : ℕ) (outcomes : List CommitOutcome)
    (hsorted : ((blockPairs blockData).map Prod.fst).Pairwise (· < ·))
    (hpairs : ∀ kv ∈ blockPairs blockData,
      (blockRange blockData).1 ≤ kv.1 ∧ kv.1 < (blockRange blockData).2)
    (hrange : (blockRange blockData).1 ≤ (blockRange blockData).2)
    (hmeets : (blockRange blockData).1 < restoreRange.end ∧
      restoreRange.begin < (blockRange blockData).2)
    (hpfx : removePrefix <+: restoreRange.begin ∧ removePrefix <+: restoreRange.end)
    (hr : Incrementable removePrefix) (ha : Incrementable addPrefix) :
    ∃ fileRange', shrinkFileRange removePrefix addPrefix ⟨_, _, hrange⟩ restoreRange =
        .ok fileRange' ∧
      ∃ trs originalFileRanges rest, restoreRangeTask blockData [restoreRange] removePrefix
          addPrefix dataSizeLimit outcomes = .ok (trs, originalFileRanges, rest) ∧
        (∀ tr ∈ trs, tr.Writes (restoreTarget removePrefix addPrefix blockData restoreRange) ∧
          ∀ k, tr.trRange.contains k → fileRange'.contains k) ∧
        (rest.isSome → ∀ db k, trs.foldl (fun db tr => tr.commit db) db k =
          if fileRange'.contains k then restoreTarget removePrefix addPrefix blockData restoreRange k
          else db k) ∧
        (max 1 ((blockPairs blockData).filter fun kv => decide (restoreRange.contains kv.1)).length ≤
            outcomes.count .committed →
          2 ^ outcomes.count .transactionTooLarge ≤ dataSizeLimit → rest.isSome) := by
  obtain ⟨fileRange', hshrink, trs, originalFileRanges, rest, htask, htrs, hcover, hdone⟩ :=
    restoreRangeTask_run dataSizeLimit outcomes hsorted hpairs hrange hmeets hpfx hr ha
  have hwrites : ∀ tr ∈ trs, tr.Writes (restoreTarget removePrefix addPrefix blockData restoreRange) :=
    fun tr htr => (htrs tr htr).1
  refine ⟨fileRange', hshrink, trs, originalFileRanges, rest, htask, htrs, fun hrest db k => ?_,
    hdone⟩
  split_ifs with hk
  · exact RestoreTransaction.foldl_commit_of_exists hwrites db (hcover hrest k hk)
  · exact RestoreTransaction.foldl_commit_of_forall_not hwrites db
      fun tr htr hk' => hk ((htrs tr htr).2 k hk')

/-- The block `[1, 9)` with pairs at `2` and `3` restores them into `[2, 4)` within two commits. -/
theorem restoreRangeTask_restores_sample :
    ∃ trs originalFileRanges rest, restoreRangeTask
        [([1], []), ([2], [5]), ([3], [6]), ([9], [])] [⟨[2], [4], by decide⟩] [] [] 100
        [.committed, .committed] = .ok (trs, originalFileRanges, rest) ∧ rest.isSome := by
  obtain ⟨_, -, trs, originalFileRanges, rest, htask, -, -, hdone⟩ :=
    restoreRangeTask_restores [([1], []), ([2], [5]), ([3], [6]), ([9], [])] ⟨[2], [4], by decide⟩
      [] [] 100 [.committed, .committed] (by decide) (by decide) (by decide) (by decide) (by decide)
      (by decide) (by decide)
  exact ⟨trs, originalFileRanges, rest, htask, hdone (by decide) (by decide)⟩

lemma restoreRangesLoop_skip {fileRange : KeyRangeRef} {outcomes : List CommitOutcome} :
    ∀ (skipped restoreRanges : List KeyRangeRef),
      (∀ r ∈ skipped, ¬ fileRange.intersects r) →
      restoreRangesLoop blockData removePrefix addPrefix dataSizeLimit (skipped ++ restoreRanges)
          outcomes fileRange =
        restoreRangesLoop blockData removePrefix addPrefix dataSizeLimit restoreRanges outcomes
          fileRange
  | [], _, _ => rfl
  | r :: skipped, restoreRanges, h => by
    rw [List.cons_append, restoreRangesLoop, if_neg (h r List.mem_cons_self),
      restoreRangesLoop_skip skipped restoreRanges fun r' hr' => h r' (List.mem_cons_of_mem r hr')]

lemma moveKey_nil (key : Key) : moveKey [] [] key = .ok key := by
  simp [moveKey, StringRef.removePrefix]

lemma shrunkFileEnd_nil (fileEnd : Key) : shrunkFileEnd [] [] fileEnd = .ok fileEnd := by
  by_cases h : fileEnd = normalKeysEnd
  · simp [shrunkFileEnd, h]
  · simp [shrunkFileEnd, h, moveKey_nil]

lemma shrinkFileRange_nil {fileRange restoreRange : KeyRangeRef}
    (h : fileRange.intersects restoreRange) :
    shrinkFileRange [] [] fileRange restoreRange =
      .ok ⟨_, _, max_le_min_of_intersects h⟩ := by
  rw [shrinkFileRange, shrunkFileEnd_nil, Flow.ok_bind, moveKey_nil, Flow.ok_bind, keyRange,
    dif_pos (max_le_min_of_intersects h)]

/-- With no prefixes to move, a block's restore task over restore ranges in key order does what
it does for the first one the block's range meets, alone: the shrunk file range it goes on with
ends inside that restore range, so the task skips every later restore range, even one holding
pairs of the block. -/
theorem restoreRangeTask_first_meeting (blockData : List (Key × Value))
    (before after : List KeyRangeRef) (restoreRange : KeyRangeRef) (dataSizeLimit : ℕ)
    (outcomes : List CommitOutcome) (hrange : (blockRange blockData).1 ≤ (blockRange blockData).2)
    (hbefore : ∀ r ∈ before,
      ¬ ((blockRange blockData).1 < r.end ∧ r.begin < (blockRange blockData).2))
    (hmeets : (blockRange blockData).1 < restoreRange.end ∧
      restoreRange.begin < (blockRange blockData).2)
    (hafter : ∀ r ∈ after, restoreRange.end ≤ r.begin) :
    restoreRangeTask blockData (before ++ restoreRange :: after) [] [] dataSizeLimit outcomes =
      restoreRangeTask blockData [restoreRange] [] [] dataSizeLimit outcomes := by
  have hint : (⟨_, _, hrange⟩ : KeyRangeRef).intersects restoreRange := hmeets
  have hskip : ∀ outcomes' : List CommitOutcome,
      restoreRangesLoop blockData [] [] dataSizeLimit after outcomes'
          ⟨_, _, max_le_min_of_intersects hint⟩ =
        restoreRangesLoop blockData [] [] dataSizeLimit [] outcomes'
          ⟨_, _, max_le_min_of_intersects hint⟩ := fun _ => by
    simpa using restoreRangesLoop_skip after [] fun r hr hr' =>
      absurd ((hr'.2.trans_le (min_le_right _ _)).trans_le (hafter r hr)) (lt_irrefl _)
  rw [restoreRangeTask, restoreRangeTask, keyRange, dif_pos hrange, Flow.ok_bind, Flow.ok_bind,
    restoreRangesLoop_skip _ _ hbefore, restoreRangesLoop, restoreRangesLoop, if_pos hint,
    if_pos hint, shrinkFileRange_nil hint, keyRange, dif_pos (max_le_min_of_intersects hint),
    Flow.ok_bind, Flow.ok_bind]
  -- the two tasks differ only once the write loop is done, in the restore ranges left
  congr 1
  funext result
  obtain ⟨trs, rest⟩ := result
  cases rest with
  | none => rfl
  | some outcomes' => simp only [hskip outcomes']

/-- The block `[1, 9)` holds a pair at `2`, in `[2, 4)`, and one at `6`, in `[5, 7)`: restoring
both ranges does what restoring `[2, 4)` alone does, which never writes the pair at `6`. -/
theorem restoreRangeTask_first_meeting_sample :
    restoreRangeTask [([1], []), ([2], [5]), ([6], [6]), ([9], [])]
        [⟨[2], [4], by decide⟩, ⟨[5], [7], by decide⟩] [] [] 100 [.committed] =
      restoreRangeTask [([1], []), ([2], [5]), ([6], [6]), ([9], [])] [⟨[2], [4], by decide⟩]
        [] [] 100 [.committed] :=
  restoreRangeTask_first_meeting _ [] [⟨[5], [7], by decide⟩] ⟨[2], [4], by decide⟩ 100
    [.committed] (by decide) (by simp) (by decide) (by decide)

end Task

end FoundationDB.Backup
