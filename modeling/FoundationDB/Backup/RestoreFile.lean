import FoundationDB.Backup.RestoreRange

/-! The restore of a whole range file. The restore dispatch adds one restore task for each block
of the file, read from offset `j` for `min blockSize (fileSize - j)` bytes as `j` steps through
the file by the block size (`RestoreDispatchTaskFunc::_execute` in `FileBackupAgent.actor.cpp`):
the pieces `Blocks.reads` gives. A task may run more than once and stop midway, each run with its
own size limit and fate of its commits, and the transactions of all the runs commit in some
order: one list, folded over the database. -/

namespace FoundationDB.Backup

/-- `tr` is a transaction that some run of the restore task of block `blockData` commits. -/
def TaskCommits (blockData : List (Key × Value)) (restoreRange : KeyRangeRef)
    (removePrefix addPrefix : Key) (tr : RestoreTransaction) : Prop :=
  ∃ dataSizeLimit outcomes trs originalFileRanges rest,
    restoreRangeTask blockData [restoreRange] removePrefix addPrefix dataSizeLimit outcomes =
      .ok (trs, originalFileRanges, rest) ∧ tr ∈ trs

/-- Some run of the restore task of block `blockData` is done, and `log` holds every transaction
it commits. -/
def TaskDone (blockData : List (Key × Value)) (restoreRange : KeyRangeRef)
    (removePrefix addPrefix : Key) (log : List RestoreTransaction) : Prop :=
  ∃ dataSizeLimit outcomes trs originalFileRanges rest,
    restoreRangeTask blockData [restoreRange] removePrefix addPrefix dataSizeLimit outcomes =
      .ok (trs, originalFileRanges, some rest) ∧ ∀ tr ∈ trs, tr ∈ log

/-- What the restore of a range file of the pairs `kvs` is meant to leave in the keys it clears:
the pairs in the restore range, moved from under `removePrefix` to under `addPrefix`. -/
def fileTarget (removePrefix addPrefix : Key) (kvs : List (Key × Value))
    (restoreRange : KeyRangeRef) : Database := fun k =>
  (movePairs removePrefix addPrefix (kvs.filter fun kv => decide (restoreRange.contains kv.1))).lookup k

/-- The blocks of a range file from `beginKey` to `endKey` of the pairs `kvs`, as they are read
back: their ranges tile the file's, each begins no later than it ends, and their pairs, in turn,
are `kvs`, each in its block's range. -/
structure FileBlocks (beginKey endKey : Key) (kvs : List (Key × Value))
    (Ds : List (List (Key × Value))) : Prop where
  sorted : (kvs.map Prod.fst).Pairwise (· < ·)
  tiles : beginKey :: Ds.map (fun D => (blockRange D).2) = Ds.map (fun D => (blockRange D).1) ++ [endKey]
  range_le : ∀ D ∈ Ds, (blockRange D).1 ≤ (blockRange D).2
  flatten : (Ds.map blockPairs).flatten = kvs
  mem : ∀ D ∈ Ds, ∀ kv ∈ blockPairs D, (blockRange D).1 ≤ kv.1 ∧ kv.1 < (blockRange D).2

lemma fileBlocks_of_rangeFile {blockSize K V : ℕ} (hbs : 4 + 3 * (4 + K) + 2 * (4 + V) ≤ blockSize)
    (hint : blockSize < 2 ^ 31) {beginKey endKey : Key} {kvs : List (Key × Value)} {pad : Bool}
    (hb : beginKey.length ≤ K) (he : endKey.length ≤ K)
    (hkvs : ∀ kv ∈ kvs, kv.1.length ≤ K ∧ kv.2.length ≤ V)
    (hsorted : (kvs.map Prod.fst).Pairwise (· < ·))
    (hrange : ∀ kv ∈ kvs, beginKey ≤ kv.1 ∧ kv.1 < endKey) (hbe : beginKey ≤ endKey)
    {file : List (Fin 256)} {Ds : List (List (Key × Value))}
    (hfile : writeRangeFile blockSize beginKey kvs endKey pad = .ok file)
    (hDs : (Blocks.reads blockSize file.length).mapM
      (fun r => decodeRangeFileBlock file r.1 r.2) = .ok Ds) :
    FileBlocks beginKey endKey kvs Ds := by
  obtain ⟨file', Ds', hfile', hDs', -, -, htiles, hflatten, hmem⟩ :=
    rangeFile_decodes hbs hint pad hb he hkvs hsorted hrange
  obtain rfl : file' = file := Except.ok.inj (hfile'.symm.trans hfile)
  obtain rfl : Ds' = Ds := Except.ok.inj (hDs'.symm.trans hDs)
  exact ⟨hsorted, htiles, blockRange_le_of_rangeFile hbs hint hb he hkvs hsorted hrange hbe hfile hDs,
    hflatten, hmem⟩

namespace FileBlocks

variable {beginKey endKey : Key} {kvs : List (Key × Value)} {Ds : List (List (Key × Value))}
  (hF : FileBlocks beginKey endKey kvs Ds)
include hF

lemma sorted_blockPairs {D : List (Key × Value)} (hD : D ∈ Ds) :
    ((blockPairs D).map Prod.fst).Pairwise (· < ·) := by
  have hsub : List.Sublist (blockPairs D) kvs :=
    hF.flatten ▸ List.sublist_flatten_of_mem (List.mem_map_of_mem hD)
  exact hF.sorted.sublist (hsub.map Prod.fst)

lemma bounds {D : List (Key × Value)} (hD : D ∈ Ds) :
    beginKey ≤ (blockRange D).1 ∧ (blockRange D).2 ≤ endKey :=
  Blocks.bounds_of_tiles Ds hF.tiles hF.range_le D hD

lemma split {Ds₁ Ds₂ : List (List (Key × Value))} {D : List (Key × Value)}
    (h : Ds = Ds₁ ++ D :: Ds₂) : (∀ E ∈ Ds₁, (blockRange E).2 ≤ (blockRange D).1) ∧
      ∀ E ∈ Ds₂, (blockRange D).2 ≤ (blockRange E).1 := by
  have hpw := Blocks.pairwise_of_tiles Ds hF.tiles hF.range_le
  rw [h, List.pairwise_append, List.pairwise_cons] at hpw
  exact ⟨fun E hE => hpw.2.2 E hE D List.mem_cons_self, hpw.2.1.1⟩

variable {restoreRange : KeyRangeRef} {removePrefix addPrefix : Key}
  (hpfx : removePrefix <+: restoreRange.begin ∧ removePrefix <+: restoreRange.end)
  (hr : Incrementable removePrefix) (ha : Incrementable addPrefix)
  (hnormal : removePrefix = [] → restoreRange.end ≤ normalKeysEnd)
include hpfx hr ha hnormal

lemma restoreTarget_eq_fileTarget {D : List (Key × Value)} (hD : D ∈ Ds)
    (hmeets : (blockRange D).1 < restoreRange.end ∧ restoreRange.begin < (blockRange D).2)
    {fileRange' : KeyRangeRef}
    (hshrink : shrinkFileRange removePrefix addPrefix ⟨_, _, hF.range_le D hD⟩ restoreRange =
      .ok fileRange')
    {k : Key} (hk : fileRange'.contains k) :
    restoreTarget removePrefix addPrefix D restoreRange k =
      fileTarget removePrefix addPrefix kvs restoreRange k := by
  have hint : (⟨_, _, hF.range_le D hD⟩ : KeyRangeRef).intersects restoreRange := hmeets
  obtain ⟨R', hR', hbegin, -, hend, -⟩ := shrinkFileRange_spec hr ha hpfx hint
  obtain rfl : R' = fileRange' := Except.ok.inj (hR'.symm.trans hshrink)
  obtain ⟨Ds₁, Ds₂, hsplit⟩ := List.append_of_mem hD
  obtain ⟨hbefore, hafter⟩ := hF.split hsplit
  have hunder : ∀ kv : Key × Value, restoreRange.contains kv.1 → removePrefix <+: kv.1 :=
    fun kv h => hpfx.1.of_le_of_lt hpfx.2 h.1 h.2
  have hlo : removePrefix <+: max (blockRange D).1 restoreRange.begin :=
    hpfx.1.of_le_of_le hpfx.2 (le_max_right _ _)
      (max_le hmeets.1.le restoreRange.begin_le_end)
  -- the pairs of the blocks before move below the range's begin
  have h₁ : ∀ p ∈ movePairs removePrefix addPrefix
      (((Ds₁.map blockPairs).flatten).filter fun kv => decide (restoreRange.contains kv.1)),
      p.1 ≠ k := by
    intro p hp hpk
    obtain ⟨kv, hkv, rfl⟩ := List.mem_map.mp hp
    obtain ⟨hkv, hin⟩ := List.mem_filter.mp hkv
    obtain ⟨P, hP, hkvP⟩ := List.mem_flatten.mp hkv
    obtain ⟨E, hE, rfl⟩ := List.mem_map.mp hP
    have hE' : E ∈ Ds := hsplit ▸ List.mem_append_left _ hE
    have hlt : kv.1 < max (blockRange D).1 restoreRange.begin :=
      ((hF.mem E hE' kv hkvP).2.trans_le (hbefore E hE)).trans_le (le_max_left _ _)
    have hmv := (List.move_lt_move_iff (a := addPrefix) (hunder kv (of_decide_eq_true hin)) hlo).mpr hlt
    rw [← hbegin] at hmv
    subst hpk
    exact absurd hk.1 (not_le.mpr hmv)
  -- those of the blocks after move to the range's end or above
  have h₃ : ∀ p ∈ movePairs removePrefix addPrefix
      (((Ds₂.map blockPairs).flatten).filter fun kv => decide (restoreRange.contains kv.1)),
      p.1 ≠ k := by
    intro p hp hpk
    obtain ⟨kv, hkv, rfl⟩ := List.mem_map.mp hp
    obtain ⟨hkv, hin⟩ := List.mem_filter.mp hkv
    obtain ⟨P, hP, hkvP⟩ := List.mem_flatten.mp hkv
    obtain ⟨E, hE, rfl⟩ := List.mem_map.mp hP
    have hE' : E ∈ Ds := hsplit ▸ List.mem_append_right _ (List.mem_cons_of_mem D hE)
    have hin' : restoreRange.contains kv.1 := of_decide_eq_true hin
    subst hpk
    have hlt := hend kv.1 (hunder kv hin') (fun h => (hin'.2.trans_le (hnormal h))) hk.2
    exact absurd ((hafter E hE).trans (hF.mem E hE' kv hkvP).1)
      (not_le.mpr (hlt.trans_le (min_le_left _ _)))
  have hkvs : kvs = (Ds₁.map blockPairs).flatten ++ blockPairs D ++ (Ds₂.map blockPairs).flatten := by
    rw [← hF.flatten, hsplit]
    simp
  rw [fileTarget, restoreTarget, hkvs]
  simp only [List.filter_append, movePairs, List.map_append]
  exact (Overwrite.lookup_append_append h₁ h₃).symm

lemma contains_of_contains {D : List (Key × Value)} (hD : D ∈ Ds)
    (hmeets : (blockRange D).1 < restoreRange.end ∧ restoreRange.begin < (blockRange D).2)
    (hbe : beginKey ≤ endKey) {fileRange' blockRange' : KeyRangeRef}
    (hshrink : shrinkFileRange removePrefix addPrefix ⟨_, _, hF.range_le D hD⟩ restoreRange =
      .ok blockRange')
    (hfile : shrinkFileRange removePrefix addPrefix ⟨beginKey, endKey, hbe⟩ restoreRange =
      .ok fileRange')
    {k : Key} (hk : blockRange'.contains k) : fileRange'.contains k := by
  obtain ⟨hbegin_le, hend_le⟩ := hF.bounds hD
  have hfmeets : (⟨beginKey, endKey, hbe⟩ : KeyRangeRef).intersects restoreRange :=
    ⟨hbegin_le.trans_lt hmeets.1, hmeets.2.trans_le hend_le⟩
  have hint : (⟨_, _, hF.range_le D hD⟩ : KeyRangeRef).intersects restoreRange := hmeets
  obtain ⟨R', hR', hbegin, -, -, hendR⟩ := shrinkFileRange_spec hr ha hpfx hint
  obtain rfl : R' = blockRange' := Except.ok.inj (hR'.symm.trans hshrink)
  obtain ⟨G', hG', hbeginG, -, -, hendG⟩ := shrinkFileRange_spec hr ha hpfx hfmeets
  obtain rfl : G' = fileRange' := Except.ok.inj (hG'.symm.trans hfile)
  have hunder : ∀ x, restoreRange.begin ≤ x → x ≤ restoreRange.end → removePrefix <+: x :=
    fun x h₁ h₂ => hpfx.1.of_le_of_le hpfx.2 h₁ h₂
  constructor
  · -- the block begins no earlier than the file
    have hmax := (List.move_le_move_iff (a := addPrefix)
      (hunder _ (le_max_right _ _) (max_le (hbegin_le.trans hmeets.1.le) restoreRange.begin_le_end))
      (hunder _ (le_max_right _ _) (max_le hmeets.1.le restoreRange.begin_le_end))).mpr
      (max_le_max hbegin_le le_rfl)
    exact (hbeginG ▸ hbegin ▸ hmax).trans hk.1
  · -- and ends no later
    have hmono := shrunkFileEnd_mono hr ha
      (hunder (min (blockRange D).2 restoreRange.end)
        (le_min hmeets.2.le restoreRange.begin_le_end) (min_le_right _ _))
      (hunder (min endKey restoreRange.end)
        (le_min (hmeets.2.trans_le hend_le).le restoreRange.begin_le_end) (min_le_right _ _))
      (min_le_min hend_le le_rfl) (fun h => (min_le_right _ _).trans (hnormal h)) hendR hendG
    exact hk.2.trans_le hmono

lemma exists_block_of_contains (hbe : beginKey ≤ endKey)
    (hmeets : beginKey < restoreRange.end ∧ restoreRange.begin < endKey)
    (hnonempty : restoreRange.begin < restoreRange.end) {fileRange' : KeyRangeRef}
    (hfile : shrinkFileRange removePrefix addPrefix ⟨beginKey, endKey, hbe⟩ restoreRange =
      .ok fileRange')
    {k : Key} (hk : fileRange'.contains k) :
    ∃ D, ∃ hD : D ∈ Ds, ((blockRange D).1 < restoreRange.end ∧
      restoreRange.begin < (blockRange D).2) ∧ ∃ blockRange',
        shrinkFileRange removePrefix addPrefix ⟨_, _, hF.range_le D hD⟩ restoreRange =
          .ok blockRange' ∧ blockRange'.contains k := by
  have hfmeets : (⟨beginKey, endKey, hbe⟩ : KeyRangeRef).intersects restoreRange := hmeets
  obtain ⟨G', hG', hbeginG, -, hendG, hendEq⟩ := shrinkFileRange_spec hr ha hpfx hfmeets
  obtain rfl : G' = fileRange' := Except.ok.inj (hG'.symm.trans hfile)
  have hunder : ∀ x, restoreRange.begin ≤ x → x ≤ restoreRange.end → removePrefix <+: x :=
    fun x h₁ h₂ => hpfx.1.of_le_of_le hpfx.2 h₁ h₂
  have hlo := hunder _ (le_max_right _ _) (max_le hmeets.1.le restoreRange.begin_le_end)
  have hhi := hunder (min endKey restoreRange.end) (le_min hmeets.2.le restoreRange.begin_le_end)
    (min_le_right _ _)
  -- the key is under `addPrefix`: it is a moved key `x`
  obtain ⟨k', rfl⟩ := isPrefix_of_lt_shrunkFileEnd hr hhi hendEq (hbeginG ▸ hk.1) hk.2
  have hmv : addPrefix ++ (removePrefix ++ k').drop removePrefix.length = addPrefix ++ k' := by
    rw [List.drop_left]
  have hx : removePrefix <+: removePrefix ++ k' := List.prefix_append _ _
  have hlo_x : max beginKey restoreRange.begin ≤ removePrefix ++ k' :=
    (List.move_le_move_iff hlo hx).mp (hmv ▸ hbeginG ▸ hk.1)
  by_cases hside : removePrefix = [] → removePrefix ++ k' < normalKeysEnd
  · -- the moved key's origin lies in the file's range and the restore range, so in a block
    have hx_hi := hendG (removePrefix ++ k') hx hside (hmv ▸ hk.2)
    obtain ⟨D, hD, hDx⟩ := Blocks.exists_mem_of_tiles Ds hF.tiles (removePrefix ++ k')
      ((le_max_left _ _).trans hlo_x) (hx_hi.trans_le (min_le_left _ _))
    have hDmeets : (blockRange D).1 < restoreRange.end ∧ restoreRange.begin < (blockRange D).2 :=
      ⟨hDx.1.trans_lt (hx_hi.trans_le (min_le_right _ _)),
        ((le_max_right _ _).trans hlo_x).trans_lt hDx.2⟩
    have hDint : (⟨_, _, hF.range_le D hD⟩ : KeyRangeRef).intersects restoreRange := hDmeets
    obtain ⟨R', hR', hbegin, hend, -, -⟩ := shrinkFileRange_spec hr ha hpfx hDint
    refine ⟨D, hD, hDmeets, R', hR', ?_, ?_⟩
    · rw [hbegin, ← hmv]
      exact (List.move_le_move_iff
        (hunder _ (le_max_right _ _) (max_le hDmeets.1.le restoreRange.begin_le_end)) hx).mpr
        (max_le hDx.1 ((le_max_right _ _).trans hlo_x))
    · exact hmv ▸ hend _ hx (lt_min hDx.2 (hx_hi.trans_le (min_le_right _ _)))
  · -- no prefix to remove, and the key's origin is past the normal keys: the file's range ends
    -- at the end of the normal keys, and so does the range of the block that holds it
    obtain ⟨hnil, hfar⟩ := Classical.not_imp.mp hside
    subst hnil
    simp only [List.nil_append, not_lt] at hfar hlo_x hmv
    have hre : restoreRange.end ≤ normalKeysEnd := hnormal rfl
    have hmin : min endKey restoreRange.end = normalKeysEnd := by
      by_contra hne
      have hend' : shrunkFileEnd [] addPrefix (min endKey restoreRange.end) =
          moveKey [] addPrefix (min endKey restoreRange.end) :=
        shrunkFileEnd_of_ne (Or.inl rfl) List.nil_prefix fun _ => hne
      rw [hend', moveKey_of_isPrefix List.nil_prefix] at hendEq
      obtain hG := Except.ok.inj hendEq
      simp only [List.length_nil, List.drop_zero] at hG
      exact absurd hk.2 (not_lt.mpr (hG ▸ (List.append_le_append_left_iff _).mpr
        (((min_le_right _ _).trans hre).trans hfar)))
    have hre' : restoreRange.end = normalKeysEnd :=
      le_antisymm hre (hmin ▸ min_le_right _ _)
    obtain ⟨D, hD, hDx⟩ := Blocks.exists_mem_of_tiles_of_lt_of_le Ds hF.tiles normalKeysEnd
      (hre' ▸ hmeets.1) (hmin ▸ min_le_left _ _)
    have hDmeets : (blockRange D).1 < restoreRange.end ∧ restoreRange.begin < (blockRange D).2 :=
      ⟨hre' ▸ hDx.1, (hre' ▸ hnonempty).trans_le hDx.2⟩
    have hDint : (⟨_, _, hF.range_le D hD⟩ : KeyRangeRef).intersects restoreRange := hDmeets
    obtain ⟨R', hR', hbegin, -, -, hendR⟩ := shrinkFileRange_spec hr ha hpfx hDint
    have hminD : min (blockRange D).2 restoreRange.end = normalKeysEnd := by
      rw [hre']
      exact min_eq_right hDx.2
    refine ⟨D, hD, hDmeets, R', hR', ?_, ?_⟩
    · rw [hbegin]
      simp only [List.length_nil, List.drop_zero]
      exact (List.append_le_append_left_iff _).mpr
        ((max_le hDx.1.le (hnonempty.trans_le hre).le).trans hfar)
    · rw [hminD, ← hmin] at hendR
      rw [Except.ok.inj (hendR.symm.trans hendEq)]
      exact hk.2

lemma writes_of_taskCommits (hbe : beginKey ≤ endKey) {fileRange' : KeyRangeRef}
    (hfile : shrinkFileRange removePrefix addPrefix ⟨beginKey, endKey, hbe⟩ restoreRange =
      .ok fileRange')
    {D : List (Key × Value)} (hD : D ∈ Ds) {tr : RestoreTransaction}
    (htr : TaskCommits D restoreRange removePrefix addPrefix tr) :
    tr.Writes (fileTarget removePrefix addPrefix kvs restoreRange) ∧
      ∀ k, tr.trRange.contains k → fileRange'.contains k := by
  obtain ⟨dataSizeLimit, outcomes, trs, originalFileRanges, rest, htask, htr⟩ := htr
  by_cases hmeets : (blockRange D).1 < restoreRange.end ∧ restoreRange.begin < (blockRange D).2
  · obtain ⟨blockRange', hshrink, trs', originalFileRanges', rest', htask', htrs, -, -⟩ :=
      restoreRangeTask_run dataSizeLimit outcomes (hF.sorted_blockPairs hD) (hF.mem D hD)
        (hF.range_le D hD) hmeets hpfx hr ha
    obtain ⟨rfl, -, -⟩ := Prod.ext_iff.mp (Except.ok.inj (htask.symm.trans htask'))
    obtain ⟨hw, hin⟩ := htrs tr htr
    exact ⟨hw.congr fun k hk => hF.restoreTarget_eq_fileTarget hpfx hr ha hnormal hD hmeets
        hshrink (hin k hk),
      fun k hk => hF.contains_of_contains hpfx hr ha hnormal hD hmeets hbe hshrink hfile
        (hin k hk)⟩
  · -- a block that does not meet the restore range commits nothing
    rw [restoreRangeTask_of_not_meets (hF.range_le D hD) hmeets] at htask
    obtain ⟨rfl, -, -⟩ := Prod.ext_iff.mp (Except.ok.inj htask.symm)
    exact absurd htr List.not_mem_nil

end FileBlocks

/-- The restore of a range file the range task wrote, into a restore range under `removePrefix`
that the file's range meets, moved under `addPrefix`. Take the transactions of any runs of the
file's block tasks, each run with any size limit and any fate of its commits, some runs done and
some not, committed in any order. They leave every key outside the file's range, shrunk to the
restore range and moved, as it was, and every key inside with its old value or the file's pair
in the restore range, moved. Once a run of each block that meets the restore range is done, the
range holds exactly those pairs. -/
theorem rangeFile_restore (blockSize K V : ℕ) (hbs : 4 + 3 * (4 + K) + 2 * (4 + V) ≤ blockSize)
    (hint : blockSize < 2 ^ 31) (beginKey endKey : Key) (kvs : List (Key × Value)) (pad : Bool)
    (hb : beginKey.length ≤ K) (he : endKey.length ≤ K)
    (hkvs : ∀ kv ∈ kvs, kv.1.length ≤ K ∧ kv.2.length ≤ V)
    (hsorted : (kvs.map Prod.fst).Pairwise (· < ·))
    (hrange : ∀ kv ∈ kvs, beginKey ≤ kv.1 ∧ kv.1 < endKey) (hbe : beginKey ≤ endKey)
    (restoreRange : KeyRangeRef) (removePrefix addPrefix : Key)
    (hmeets : beginKey < restoreRange.end ∧ restoreRange.begin < endKey)
    (hpfx : removePrefix <+: restoreRange.begin ∧ removePrefix <+: restoreRange.end)
    (hr : Incrementable removePrefix) (ha : Incrementable addPrefix)
    (hnormal : removePrefix = [] → restoreRange.end ≤ normalKeysEnd) :
    ∃ file Ds fileRange', writeRangeFile blockSize beginKey kvs endKey pad = .ok file ∧
      (Blocks.reads blockSize file.length).mapM (fun r => decodeRangeFileBlock file r.1 r.2) =
        .ok Ds ∧
      shrinkFileRange removePrefix addPrefix ⟨beginKey, endKey, hbe⟩ restoreRange =
        .ok fileRange' ∧
      ∀ log : List RestoreTransaction,
        (∀ tr ∈ log, ∃ D ∈ Ds, TaskCommits D restoreRange removePrefix addPrefix tr) →
        ∀ db : Database,
          (∀ k, ¬ fileRange'.contains k → log.foldl (fun db tr => tr.commit db) db k = db k) ∧
          (∀ k, log.foldl (fun db tr => tr.commit db) db k =
              fileTarget removePrefix addPrefix kvs restoreRange k ∨
            log.foldl (fun db tr => tr.commit db) db k = db k) ∧
          (restoreRange.begin < restoreRange.end →
            (∀ D ∈ Ds, (blockRange D).1 < restoreRange.end ∧ restoreRange.begin < (blockRange D).2 →
              TaskDone D restoreRange removePrefix addPrefix log) →
            ∀ k, fileRange'.contains k →
              log.foldl (fun db tr => tr.commit db) db k =
                fileTarget removePrefix addPrefix kvs restoreRange k) := by
  obtain ⟨file, Ds, hfile, hDs, -⟩ := rangeFile_decodes hbs hint pad hb he hkvs hsorted hrange
  have hF := fileBlocks_of_rangeFile hbs hint hb he hkvs hsorted hrange hbe hfile hDs
  have hfmeets : (⟨beginKey, endKey, hbe⟩ : KeyRangeRef).intersects restoreRange := hmeets
  obtain ⟨fileRange', hshrink, -⟩ := shrinkFileRange_spec hr ha hpfx hfmeets
  refine ⟨file, Ds, fileRange', hfile, hDs, hshrink, fun log hlog db => ?_⟩
  have hlog' : ∀ tr ∈ log, tr.Writes (fileTarget removePrefix addPrefix kvs restoreRange) ∧
      ∀ k, tr.trRange.contains k → fileRange'.contains k := fun tr htr => by
    obtain ⟨D, hD, hD'⟩ := hlog tr htr
    exact hF.writes_of_taskCommits hpfx hr ha hnormal hbe hshrink hD hD'
  have hwrites := fun tr htr => (hlog' tr htr).1
  refine ⟨fun k hk => ?_, fun k => ?_, fun hnonempty hdone k hk => ?_⟩
  · exact RestoreTransaction.foldl_commit_of_forall_not hwrites db
      fun tr htr hk' => hk ((hlog' tr htr).2 k hk')
  · by_cases hk : ∃ tr ∈ log, tr.trRange.contains k
    · exact .inl (RestoreTransaction.foldl_commit_of_exists hwrites db hk)
    · exact .inr (RestoreTransaction.foldl_commit_of_forall_not hwrites db
        fun tr htr hk' => hk ⟨tr, htr, hk'⟩)
  · -- the block whose range holds the key has a finished run, which clears the key
    obtain ⟨D, hD, hDmeets, blockRange', hshrinkD, hkD⟩ :=
      hF.exists_block_of_contains hpfx hr ha hnormal hbe hmeets hnonempty hshrink hk
    obtain ⟨dataSizeLimit, outcomes, trs, originalFileRanges, rest, htask, hin⟩ := hdone D hD hDmeets
    obtain ⟨blockRange'', hshrink', trs', originalFileRanges', rest', htask', -, hcover, -⟩ :=
      restoreRangeTask_run dataSizeLimit outcomes (hF.sorted_blockPairs hD) (hF.mem D hD)
        (hF.range_le D hD) hDmeets hpfx hr ha
    obtain rfl : blockRange'' = blockRange' := Except.ok.inj (hshrink'.symm.trans hshrinkD)
    obtain ⟨rfl, -, rfl⟩ := Prod.ext_iff.mp (Except.ok.inj (htask.symm.trans htask'))
    obtain ⟨tr, htr, hktr⟩ := hcover rfl k hkD
    exact RestoreTransaction.foldl_commit_of_exists hwrites db ⟨tr, hin tr htr, hktr⟩

/-- A file of the pairs at `3` and `5`, from `1` to `9`, restored into the normal keys moved under
`7`: its range shrinks to the keys from `[7, 1]` to the end of those under `7`. -/
theorem rangeFile_restore_sample :
    ∃ file Ds fileRange', writeRangeFile 64 [1] [([3], [7, 7]), ([5], [8])] [9] false = .ok file ∧
      (Blocks.reads 64 file.length).mapM (fun r => decodeRangeFileBlock file r.1 r.2) = .ok Ds ∧
      shrinkFileRange [] [7] ⟨[1], [9], by decide⟩ ⟨[], normalKeysEnd, by decide⟩ =
        .ok fileRange' := by
  obtain ⟨file, Ds, fileRange', hfile, hDs, hshrink, -⟩ :=
    rangeFile_restore 64 4 4 (by norm_num) (by norm_num) [1] [9] [([3], [7, 7]), ([5], [8])] false
      (by decide) (by decide) (by decide) (by decide) (by decide) (by decide)
      ⟨[], normalKeysEnd, by decide⟩ [] [7] (by decide) (by simp)
      (.inl rfl) (.inr ⟨7, List.mem_singleton_self 7, by decide⟩) fun _ => le_rfl
  exact ⟨file, Ds, fileRange', hfile, hDs, hshrink⟩

end FoundationDB.Backup
