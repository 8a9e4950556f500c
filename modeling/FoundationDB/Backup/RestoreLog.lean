import FoundationDB.Backup.FileFormat
import FoundationDB.Backup.LogValue
import FoundationDB.Library.GroupBy

/-! The filter a log-file restore runs over the pairs of one block (`filterLogMutationKVPairs`
in `FileBackupAgent.actor.cpp`). A commit's mutations are logged as one value cut into parts,
each part a pair keyed by the commit version and the part number. The filter groups the block's
pairs by version (`mutationBlocksByVersion`); a group whose parts join into a whole value is
decoded, and dropped if none of its mutations touches a restore range. Every other group is
kept as it is, since its other parts lie in another block. What is kept or dropped is always a
whole version: the filter never splits a commit. -/

namespace FoundationDB.Backup

open StringRefReader (consume)

/-- The errors the filter throws: those of the reader over a value, and the others. -/
inductive LogFilterError
  | read (e : FileError)
  | backup (e : BackupError)
deriving DecidableEq, Repr

variable (hashlittle : List (Fin 256) → Fin 256) (knobs : ClientKnobs)

/-- `decodeLogKey`: a hash byte, the version and the part number, big-endian; the hash is
checked against the version's block number. -/
def decodeLogKey : Key → Except BackupError (ℤ × ℤ)
  | [] => throw .assertFailed
  | hash :: rest => do
    if rest.length ≠ 12 then throw .assertFailed
    let version := Int.bmod (BigEndian.ofBytes (rest.take 8)) (2 ^ 64)
    let part := Int.bmod (BigEndian.ofBytes (rest.drop 8)) (2 ^ 32)
    -- `int32_t v = version / LOG_RANGE_BLOCK_SIZE`, hashed as its four bytes
    if hashlittle (LittleEndian.ofInt 4 (version.tdiv knobs.LOG_RANGE_BLOCK_SIZE)) ≠ hash then
      throw .assertFailed
    return (version, part)

/-- The version `decodeLogKey` reads from a key, if it reads one. -/
def logKeyVersion (key : Key) : Option ℤ :=
  match decodeLogKey hashlittle knobs key with
  | .ok vp => some vp.1
  | .error _ => none

/-- The part numbers `decodeLogKey` reads from the keys of version `v`'s pairs, in order. -/
def logKeyParts (v : ℤ) (data : List (Key × Value)) : List ℤ :=
  data.filterMap fun kv =>
    match decodeLogKey hashlittle knobs kv.1 with
    | .ok (v', part) => if v' = v then some part else none
    | .error _ => none

/-- The loop of `decodeLogValue`: mutations until the end of the value, each a type and two
lengths as `uint32_t` and the two parameters. The turns are bounded by the value's length. -/
def readLogValueMutations : ℕ → List MutationRef → ReadM (List MutationRef)
  | 0, mutations => return mutations
  | fuel + 1, mutations => do
    if (← StringRefReader.remainder) = [] then return mutations
    let type := LittleEndian.ofBytes (← consume 4)
    let p1len := LittleEndian.ofBytes (← consume 4)
    let p2len := LittleEndian.ofBytes (← consume 4)
    let key ← consume p1len
    let val ← consume p2len
    readLogValueMutations fuel (mutations ++ [⟨MutationType.ofCode type, key, val⟩])

/-- `decodeLogValue`: the protocol version, the length (a wrong one is only traced), then the
mutations. -/
def decodeLogValue (value : List (Fin 256)) : Except LogFilterError (List MutationRef) := do
  let (protocolVersion, r) ← ((consume 8).run ⟨value, .restoreCorruptedData⟩).mapError .read
  if LittleEndian.toInt protocolVersion ≤ lastIncompatibleProtocolVersion then
    throw (.backup .incompatibleProtocolVersion)
  let (_, r) ← ((consume 4).run r).mapError .read
  let (mutations, _) ← ((readLogValueMutations value.length []).run r).mapError .read
  return mutations

section ReadBack

open Flow.BinaryWriter (writeInt writeUInt64)

lemma consume_run_of_length {l rest : List (Fin 256)} {n : ℕ} (hl : l.length = n)
    (e : FileError) : (consume n).run ⟨l ++ rest, e⟩ = .ok (l, ⟨rest, e⟩) := by
  subst hl
  exact StringRefReader.consume_append l rest e

lemma readLogValueMutations_flatMap (e : FileError) :
    ∀ (ms acc : List MutationRef) (fuel : ℕ), ms.length ≤ fuel →
      (∀ m ∈ ms, m.param1.length < 2 ^ 32 ∧ m.param2.length < 2 ^ 32) →
      (readLogValueMutations fuel acc).run ⟨ms.flatMap serializeMutation, e⟩ =
        .ok (acc ++ ms, ⟨[], e⟩)
  | [], acc, 0, _, _ => by simp [readLogValueMutations]
  | [], acc, fuel + 1, _, _ => by
    rw [readLogValueMutations, StringRefReader.run_bind_of_ok (StringRefReader.remainder_run _)]
    simp
  | m :: ms, acc, fuel + 1, hfuel, hlen => by
    obtain ⟨h1, h2⟩ := hlen m List.mem_cons_self
    have hbody : (m :: ms).flatMap serializeMutation = writeInt m.type.code ++
        (writeInt m.param1.length ++ (writeInt m.param2.length ++
          (m.param1 ++ (m.param2 ++ ms.flatMap serializeMutation)))) := by
      simp [serializeMutation]
    have h4 : ∀ x : ℤ, (writeInt x).length = 4 := fun x => by simp [writeInt]
    have hne : (m :: ms).flatMap serializeMutation ≠ [] := by
      rw [hbody]
      intro h
      have := congrArg List.length h
      simp [h4] at this
    -- the header's three fields as they were written, then the two parameters
    have hcode : LittleEndian.ofBytes (writeInt m.type.code) = m.type.code :=
      LittleEndian.ofBytes_ofInt_natCast
        (lt_of_le_of_lt (MutationType.code_le m.type) (by norm_num))
    have hlen1 : LittleEndian.ofBytes (writeInt m.param1.length) = m.param1.length :=
      LittleEndian.ofBytes_ofInt_natCast (by simpa using h1)
    have hlen2 : LittleEndian.ofBytes (writeInt m.param2.length) = m.param2.length :=
      LittleEndian.ofBytes_ofInt_natCast (by simpa using h2)
    rw [readLogValueMutations, StringRefReader.run_bind_of_ok (StringRefReader.remainder_run _)]
    rw [if_neg hne, hbody, StringRefReader.run_bind_of_ok (consume_run_of_length (h4 _) e)]
    rw [StringRefReader.run_bind_of_ok (consume_run_of_length (h4 _) e)]
    rw [StringRefReader.run_bind_of_ok (consume_run_of_length (h4 _) e)]
    rw [hlen1, hlen2, hcode, MutationType.ofCode_code]
    dsimp only
    rw [StringRefReader.run_bind_of_ok (StringRefReader.consume_append _ _ e)]
    rw [StringRefReader.run_bind_of_ok (StringRefReader.consume_append _ _ e)]
    rw [readLogValueMutations_flatMap e ms _ fuel (by simpa using hfuel)
      (fun m' hm' => hlen m' (List.mem_cons_of_mem _ hm'))]
    simp

/-- The restore decodes the value a commit proxy logs back to its mutations. -/
theorem decodeLogValue_backupLogValue {mutations : List MutationRef}
    (hlen : ∀ m ∈ mutations, m.param1.length < 2 ^ 32 ∧ m.param2.length < 2 ^ 32) :
    decodeLogValue (backupLogValue mutations) = .ok mutations := by
  have h8 : (writeUInt64 withBackupMutations).length = 8 := by simp [writeUInt64]
  have h4 : (writeInt (totalSize mutations)).length = 4 := by simp [writeInt]
  have hversion : ¬LittleEndian.toInt (writeUInt64 withBackupMutations) ≤
      (lastIncompatibleProtocolVersion : ℤ) := by decide
  have hfuel : mutations.length ≤ (backupLogValue mutations).length := by
    rw [length_backupLogValue]
    have := length_le_length_flatMap mutations
    omega
  unfold decodeLogValue
  rw [backupLogValue, List.append_assoc, consume_run_of_length h8]
  simp only [Except.mapError, bind, Except.bind]
  rw [if_neg hversion, consume_run_of_length h4]
  dsimp only
  rw [← List.append_assoc, ← backupLogValue,
    readLogValueMutations_flatMap _ mutations [] _ hfuel hlen]
  rfl

theorem decodeLogValue_backupLogValue_sample :
    (∀ m ∈ [(⟨.setValue, [1], [2]⟩ : MutationRef)],
      m.param1.length < 2 ^ 32 ∧ m.param2.length < 2 ^ 32) ∧
    decodeLogValue (backupLogValue [⟨.setValue, [1], [2]⟩]) = .ok [⟨.setValue, [1], [2]⟩] :=
  have hlen : ∀ m ∈ [(⟨.setValue, [1], [2]⟩ : MutationRef)],
      m.param1.length < 2 ^ 32 ∧ m.param2.length < 2 ^ 32 := by
    simp
  ⟨hlen, decodeLogValue_backupLogValue hlen⟩

end ReadBack

/-- `AccumulatedMutations`: the pairs of one version, and their values joined in part order
while the parts come in order. -/
structure AccumulatedMutations where
  kvs : List (Key × Value)
  serializedMutations : List (Fin 256)
  lastChunkNumber : ℤ

namespace AccumulatedMutations

def init : AccumulatedMutations := ⟨[], [], -1⟩

/-- `addChunk`: a part out of order clears the joined value for good (`lastChunkNumber = -2`). -/
def addChunk (self : AccumulatedMutations) (chunkNumber : ℤ) (kv : Key × Value) :
    AccumulatedMutations :=
  if chunkNumber = self.lastChunkNumber + 1 then
    ⟨self.kvs ++ [kv], self.serializedMutations ++ kv.2, chunkNumber⟩
  else ⟨self.kvs ++ [kv], [], -2⟩

/-- `isComplete`: the joined value's header is read, and its length compared with the rest. -/
def isComplete (self : AccumulatedMutations) : Except LogFilterError Bool := do
  if self.lastChunkNumber < 0 then return false
  let (protocolVersion, r) ←
    ((consume 8).run ⟨self.serializedMutations, .restoreCorruptedData⟩).mapError .read
  if LittleEndian.toInt protocolVersion ≤ lastIncompatibleProtocolVersion then
    throw (.backup .incompatibleProtocolVersion)
  let (vLen, r) ← ((consume 4).run r).mapError .read
  return LittleEndian.ofBytes vLen == r.rest.length

/-- `matchesAnyRange`: a clear meets a range, or another mutation's key lies in one. A clear
builds its range first, which throws if the range is inverted. -/
def matchesAnyRange (self : AccumulatedMutations) (ranges : List KeyRangeRef) :
    Except LogFilterError Bool := do
  let mutations ← decodeLogValue self.serializedMutations
  mutations.anyM fun m => ranges.anyM fun r =>
    if m.type = .clearRange then do
      let mr ← (keyRange m.param1 m.param2).mapError .backup
      return decide (r.intersects mr)
    else return decide (r.contains m.param1)

@[simp]
lemma kvs_addChunk (self : AccumulatedMutations) (chunkNumber : ℤ) (kv : Key × Value) :
    (self.addChunk chunkNumber kv).kvs = self.kvs ++ [kv] := by
  unfold addChunk
  split <;> rfl

lemma kvs_foldl_addChunk : ∀ (l : List (ℤ × ℤ × (Key × Value))) (m : AccumulatedMutations),
    (l.foldl (fun m e => m.addChunk e.2.1 e.2.2) m).kvs = m.kvs ++ l.map (·.2.2)
  | [], m => by simp
  | e :: l, m => by
    rw [List.foldl_cons, kvs_foldl_addChunk l, kvs_addChunk, List.map_cons, List.append_assoc,
      List.singleton_append]

lemma lastChunkNumber_foldl_addChunk : ∀ (l : List (ℤ × ℤ × (Key × Value))) (q : List ℤ)
    (m : AccumulatedMutations), (∀ e ∈ l, 0 ≤ e.2.1) →
    (m.lastChunkNumber = q.length - 1 ∧ q = (List.range q.length).map Nat.cast) ∨
      m.lastChunkNumber = -2 →
    0 ≤ (l.foldl (fun m e => m.addChunk e.2.1 e.2.2) m).lastChunkNumber →
    q ++ l.map (·.2.1) = (List.range (q.length + l.length)).map Nat.cast
  | [], q, m, _, hm, hlast => by
    rcases hm with ⟨_, hq⟩ | hm
    · simpa using hq
    · rw [List.foldl_nil, hm] at hlast
      omega
  | e :: l, q, m, hl, hm, hlast => by
    have he : 0 ≤ e.2.1 := hl e List.mem_cons_self
    -- the state after part `e.2.1` is again within the run `q ++ [e.2.1]`, or out of order
    have hstep : ((m.addChunk e.2.1 e.2.2).lastChunkNumber = (q ++ [e.2.1]).length - 1 ∧
        q ++ [e.2.1] = (List.range (q ++ [e.2.1]).length).map Nat.cast) ∨
        (m.addChunk e.2.1 e.2.2).lastChunkNumber = -2 := by
      unfold addChunk
      rcases hm with ⟨hmq, hq⟩ | hm
      · split_ifs with hnext
        · have hlen : e.2.1 = q.length := by omega
          refine .inl ⟨by simp [hlen], ?_⟩
          rw [List.length_append, List.length_singleton, List.range_succ, List.map_append, ← hq,
            hlen]
          rfl
        · exact .inr rfl
      · rw [if_neg (by omega)]
        exact .inr rfl
    rw [List.foldl_cons] at hlast
    have hrun := lastChunkNumber_foldl_addChunk l (q ++ [e.2.1]) (m.addChunk e.2.1 e.2.2)
      (fun e' he' => hl e' (List.mem_cons_of_mem _ he')) hstep hlast
    rw [List.map_cons, ← List.singleton_append, ← List.append_assoc, hrun, List.length_append,
      List.length_singleton, List.length_cons, Nat.add_assoc, Nat.add_comm 1]

end AccumulatedMutations

/-- A pair with the version and the part its key holds. -/
def decodeLogEntry (kv : Key × Value) : Except LogFilterError (ℤ × ℤ × (Key × Value)) := do
  let (version, part) ← (decodeLogKey hashlittle knobs kv.1).mapError .backup
  return (version, part, kv)

/-- A turn of the output loop: a group's pairs are kept if its value is incomplete or touches a
range. -/
def keepGroup (ranges : List KeyRangeRef) (output : List (Key × Value))
    (vb : ℤ × AccumulatedMutations) : Except LogFilterError (List (Key × Value)) := do
  let m := vb.2
  if !(← m.isComplete) then return output ++ m.kvs
  if ← m.matchesAnyRange ranges then return output ++ m.kvs
  return output

/-- `filterLogMutationKVPairs`. The source iterates its `unordered_map` in an order of its own;
`visit` is that order, applied to the groups listed in order of their first pair. -/
def filterLogMutationKVPairs
    (visit : List (ℤ × AccumulatedMutations) → List (ℤ × AccumulatedMutations))
    (data : List (Key × Value)) (ranges : List KeyRangeRef) :
    Except LogFilterError (List (Key × Value)) := do
  let entries ← data.mapM (decodeLogEntry hashlittle knobs)
  let mutationBlocksByVersion := GroupBy.groups (fun e => e.1)
    (fun (m : AccumulatedMutations) e => m.addChunk e.2.1 e.2.2) AccumulatedMutations.init entries
  (visit mutationBlocksByVersion).foldlM (keepGroup ranges) []

section WholeVersions

lemma logKeyVersion_of_ok {key : Key} {v p : ℤ}
    (h : decodeLogKey hashlittle knobs key = .ok (v, p)) :
    logKeyVersion hashlittle knobs key = some v := by
  simp [logKeyVersion, h]

lemma decodeLogEntry_ok {kv : Key × Value} {e : ℤ × ℤ × (Key × Value)}
    (h : decodeLogEntry hashlittle knobs kv = .ok e) :
    e.2.2 = kv ∧ decodeLogKey hashlittle knobs kv.1 = .ok (e.1, e.2.1) := by
  unfold decodeLogEntry at h
  cases hk : decodeLogKey hashlittle knobs kv.1 with
  | error err => simp [hk, Except.mapError] at h
  | ok vp =>
    simp only [hk, Except.mapError] at h
    cases h
    exact ⟨rfl, rfl⟩

lemma mapM_decodeLogEntry :
    ∀ {data : List (Key × Value)} {es : List (ℤ × ℤ × (Key × Value))},
    data.mapM (decodeLogEntry hashlittle knobs) = .ok es →
      es.map (·.2.2) = data ∧
        ∀ e ∈ es, decodeLogKey hashlittle knobs e.2.2.1 = .ok (e.1, e.2.1)
  | [], es, h => by
    cases h
    simp
  | kv :: data, es, h => by
    rw [List.mapM_cons] at h
    cases he : decodeLogEntry hashlittle knobs kv with
    | error err => rw [he] at h; cases h
    | ok e =>
      cases hes : data.mapM (decodeLogEntry hashlittle knobs) with
      | error err => rw [he, hes] at h; cases h
      | ok es' =>
        rw [he, hes] at h
        cases h
        obtain ⟨hkv, hv⟩ := decodeLogEntry_ok hashlittle knobs he
        obtain ⟨hdata, hvs⟩ := mapM_decodeLogEntry hes
        refine ⟨by rw [List.map_cons, hkv, hdata], ?_⟩
        intro e' he'
        rcases List.mem_cons.mp he' with rfl | he'
        · rw [hkv]; exact hv
        · exact hvs e' he'

lemma keepGroup_cases {ranges : List KeyRangeRef} {out out' : List (Key × Value)}
    {g : ℤ × AccumulatedMutations} (h : keepGroup ranges out g = .ok out') :
    out' = out ++ g.2.kvs ∨ out' = out := by
  unfold keepGroup at h
  cases hc : g.2.isComplete with
  | error err => simp [hc] at h
  | ok c =>
    cases c with
    | false =>
      simp only [hc] at h
      exact .inl (Except.ok.inj h).symm
    | true =>
      cases hm : g.2.matchesAnyRange ranges with
      | error err => simp [hc, hm] at h
      | ok b =>
        cases b with
        | true =>
          simp only [hc, hm] at h
          exact .inl (Except.ok.inj h).symm
        | false =>
          simp only [hc, hm] at h
          exact .inr (Except.ok.inj h).symm

lemma keepGroup_of_lastChunkNumber_neg {ranges : List KeyRangeRef} {out : List (Key × Value)}
    {g : ℤ × AccumulatedMutations} (h : g.2.lastChunkNumber < 0) :
    keepGroup ranges out g = .ok (out ++ g.2.kvs) := by
  simp [keepGroup, AccumulatedMutations.isComplete, h]

lemma foldlM_keepGroup {ranges : List KeyRangeRef} :
    ∀ {groups : List (ℤ × AccumulatedMutations)} {out output : List (Key × Value)},
    groups.foldlM (keepGroup ranges) out = .ok output →
    ∃ kept, List.Sublist kept groups ∧ output = out ++ kept.flatMap (·.2.kvs) ∧
      ∀ g ∈ groups, g.2.lastChunkNumber < 0 → g ∈ kept
  | [], out, output, h => by
    cases h
    exact ⟨[], List.Sublist.slnil, by simp, by simp⟩
  | g :: groups, out, output, h => by
    rw [List.foldlM_cons] at h
    cases hturn : keepGroup ranges out g with
    | error err => rw [hturn] at h; cases h
    | ok out' =>
      rw [hturn] at h
      obtain ⟨kept, hsub, rfl, hneg⟩ := foldlM_keepGroup h
      -- the turn appends the group's pairs, as it must if its parts did not come in order
      have hkeep : out' = out ++ g.2.kvs →
          ∃ kept', List.Sublist kept' (g :: groups) ∧
            out' ++ kept.flatMap (·.2.kvs) = out ++ kept'.flatMap (·.2.kvs) ∧
            ∀ g' ∈ g :: groups, g'.2.lastChunkNumber < 0 → g' ∈ kept' := by
        rintro rfl
        refine ⟨g :: kept, hsub.cons_cons g, by simp, fun g' hg' hlast => ?_⟩
        rcases List.mem_cons.mp hg' with rfl | hg'
        · exact List.mem_cons_self
        · exact List.mem_cons_of_mem _ (hneg g' hg' hlast)
      by_cases hlast : g.2.lastChunkNumber < 0
      · rw [keepGroup_of_lastChunkNumber_neg hlast] at hturn
        exact hkeep (Except.ok.inj hturn).symm
      · rcases keepGroup_cases hturn with hout | rfl
        · exact hkeep hout
        · refine ⟨kept, hsub.cons g, rfl, fun g' hg' hlast' => ?_⟩
          rcases List.mem_cons.mp hg' with rfl | hg'
          · exact absurd hlast' hlast
          · exact hneg g' hg' hlast'

variable {hashlittle knobs}

lemma filter_group {es : List (ℤ × ℤ × (Key × Value))}
    (hes : ∀ e ∈ es, logKeyVersion hashlittle knobs e.2.2.1 = some e.1) (k v : ℤ) :
    ((es.filter (·.1 == k)).map (·.2.2)).filter
        (fun kv => logKeyVersion hashlittle knobs kv.1 == some v) =
      if k = v then (es.filter (·.1 == k)).map (·.2.2) else [] := by
  rw [List.filter_map]
  split_ifs with hkv
  · subst hkv
    congr 1
    refine List.filter_eq_self.mpr fun e he => ?_
    have hek : e.1 = k := by simpa using List.of_mem_filter he
    simp [Function.comp, hes e (List.mem_of_mem_filter he), hek]
  · refine List.map_eq_nil_iff.mpr (List.filter_eq_nil_iff.mpr fun e he => ?_)
    have hek : e.1 = k := by simpa using List.of_mem_filter he
    simp [Function.comp, hes e (List.mem_of_mem_filter he), hek, hkv]

lemma flatMap_ite_key {β : Type} (f : ℤ → List β) (v : ℤ) :
    ∀ {kept : List (ℤ × AccumulatedMutations)}, (kept.map Prod.fst).Nodup →
      kept.flatMap (fun g => if g.1 = v then f g.1 else []) =
        if v ∈ kept.map Prod.fst then f v else []
  | [], _ => by simp
  | g :: kept, hk => by
    rw [List.map_cons, List.nodup_cons] at hk
    rw [List.flatMap_cons, flatMap_ite_key f v hk.2, List.map_cons]
    by_cases hg : g.1 = v
    · have hv : v ∉ kept.map Prod.fst := hg ▸ hk.1
      simp [hg, hv]
    · have hv : v ∈ g.1 :: kept.map Prod.fst ↔ v ∈ kept.map Prod.fst := by
        simp [Ne.symm hg]
      simp only [hg, if_false, List.nil_append]
      exact if_congr hv.symm rfl rfl

lemma kvs_of_mem_groups {es : List (ℤ × ℤ × (Key × Value))} {g : ℤ × AccumulatedMutations}
    (hg : g ∈ GroupBy.groups (fun e => e.1)
      (fun (m : AccumulatedMutations) e => m.addChunk e.2.1 e.2.2) AccumulatedMutations.init es) :
    g.2.kvs = (es.filter (·.1 == g.1)).map (·.2.2) := by
  have hmem := (GroupBy.mem_groups_iff _ _ _ es g.1 g.2).mp hg
  rw [hmem.2, AccumulatedMutations.kvs_foldl_addChunk]
  simp [AccumulatedMutations.init]

lemma filter_flatMap_kept {es : List (ℤ × ℤ × (Key × Value))}
    (hvs : ∀ e ∈ es, logKeyVersion hashlittle knobs e.2.2.1 = some e.1)
    {kept : List (ℤ × AccumulatedMutations)}
    (hmem : ∀ g ∈ kept, g ∈ GroupBy.groups (fun e => e.1)
      (fun (m : AccumulatedMutations) e => m.addChunk e.2.1 e.2.2) AccumulatedMutations.init es)
    (hnodup : (kept.map Prod.fst).Nodup) (v : ℤ) :
    (kept.flatMap (·.2.kvs)).filter (fun kv => logKeyVersion hashlittle knobs kv.1 == some v) =
      if v ∈ kept.map Prod.fst then (es.filter (·.1 == v)).map (·.2.2) else [] := by
  have hgroup : ∀ g ∈ kept,
      g.2.kvs.filter (fun kv => logKeyVersion hashlittle knobs kv.1 == some v) =
        if g.1 = v then (es.filter (·.1 == g.1)).map (·.2.2) else [] := by
    intro g hg
    rw [kvs_of_mem_groups (hmem g hg)]
    exact filter_group hvs g.1 v
  -- the kept groups' versions are distinct, so at most one of them is `v`
  rw [List.filter_flatMap, List.flatMap_congr hgroup,
    flatMap_ite_key (fun k => (es.filter (·.1 == k)).map (·.2.2)) v hnodup]

lemma filter_data {data : List (Key × Value)} {es : List (ℤ × ℤ × (Key × Value))}
    (hdata : es.map (·.2.2) = data)
    (hvs : ∀ e ∈ es, logKeyVersion hashlittle knobs e.2.2.1 = some e.1) (v : ℤ) :
    data.filter (fun kv => logKeyVersion hashlittle knobs kv.1 == some v) =
      (es.filter (·.1 == v)).map (·.2.2) := by
  rw [← hdata, List.filter_map]
  congr 1
  refine List.filter_congr fun e he => ?_
  simp [Function.comp, hvs e he]

lemma logKeyParts_map {es : List (ℤ × ℤ × (Key × Value))}
    (hkeys : ∀ e ∈ es, decodeLogKey hashlittle knobs e.2.2.1 = .ok (e.1, e.2.1)) (v : ℤ) :
    logKeyParts hashlittle knobs v (es.map (·.2.2)) = (es.filter (·.1 == v)).map (·.2.1) := by
  induction es with
  | nil => rfl
  | cons e es ih =>
    have hk := hkeys e List.mem_cons_self
    have ih' := ih fun e' he' => hkeys e' (List.mem_cons_of_mem _ he')
    unfold logKeyParts at ih' ⊢
    by_cases hv : e.1 = v <;> simp [hk, ih', hv]

variable (hashlittle knobs) in
lemma filterLogMutationKVPairs_spec
    {visit : List (ℤ × AccumulatedMutations) → List (ℤ × AccumulatedMutations)}
    (hvisit : ∀ l, (visit l).Perm l) {data : List (Key × Value)} {ranges : List KeyRangeRef}
    {output : List (Key × Value)}
    (h : filterLogMutationKVPairs hashlittle knobs visit data ranges = .ok output) :
    ∃ (es : List (ℤ × ℤ × (Key × Value))) (kept : List (ℤ × AccumulatedMutations)),
      es.map (·.2.2) = data ∧
      (∀ e ∈ es, decodeLogKey hashlittle knobs e.2.2.1 = .ok (e.1, e.2.1)) ∧
      (∀ g ∈ kept, g ∈ GroupBy.groups (fun e => e.1)
        (fun (m : AccumulatedMutations) e => m.addChunk e.2.1 e.2.2)
        AccumulatedMutations.init es) ∧
      (kept.map Prod.fst).Nodup ∧
      output = kept.flatMap (·.2.kvs) ∧
      ∀ g ∈ GroupBy.groups (fun e => e.1)
        (fun (m : AccumulatedMutations) e => m.addChunk e.2.1 e.2.2) AccumulatedMutations.init es,
        g.2.lastChunkNumber < 0 → g ∈ kept := by
  unfold filterLogMutationKVPairs at h
  cases hes : data.mapM (decodeLogEntry hashlittle knobs) with
  | error err => rw [hes] at h; cases h
  | ok es =>
    rw [hes] at h
    obtain ⟨hdata, hkeys⟩ := mapM_decodeLogEntry hashlittle knobs hes
    obtain ⟨kept, hsub, rfl, hneg⟩ := foldlM_keepGroup h
    -- the order of the visit changes neither which groups there are nor their keys
    have hperm := hvisit (GroupBy.groups (fun e => e.1)
      (fun (m : AccumulatedMutations) e => m.addChunk e.2.1 e.2.2) AccumulatedMutations.init es)
    have hnodup : (kept.map Prod.fst).Nodup :=
      (hsub.map Prod.fst).nodup ((hperm.map Prod.fst).nodup_iff.mpr (GroupBy.nodup_groups _ _ _ es))
    exact ⟨es, kept, hdata, hkeys, fun g hg => hperm.subset (hsub.subset hg), hnodup,
      List.nil_append _, fun g hg hlast => hneg g (hperm.symm.subset hg) hlast⟩

variable (hashlittle knobs) in
/-- The filter keeps or drops each commit version whole: the output's pairs of a version are
all of the block's pairs of that version, in order, or none of them. -/
theorem filterLogMutationKVPairs_whole_versions {data : List (Key × Value)}
    {ranges : List KeyRangeRef} {output : List (Key × Value)}
    {visit : List (ℤ × AccumulatedMutations) → List (ℤ × AccumulatedMutations)}
    (hvisit : ∀ l, (visit l).Perm l)
    (h : filterLogMutationKVPairs hashlittle knobs visit data ranges = .ok output) (v : ℤ) :
    output.filter (fun kv => logKeyVersion hashlittle knobs kv.1 == some v) = [] ∨
      output.filter (fun kv => logKeyVersion hashlittle knobs kv.1 == some v) =
        data.filter (fun kv => logKeyVersion hashlittle knobs kv.1 == some v) := by
  obtain ⟨es, kept, hdata, hkeys, hmem, hnodup, rfl, -⟩ :=
    filterLogMutationKVPairs_spec hashlittle knobs hvisit h
  have hvs e he := logKeyVersion_of_ok hashlittle knobs (hkeys e he)
  rw [filter_flatMap_kept hvs hmem hnodup, filter_data hdata hvs]
  split_ifs
  · exact .inr rfl
  · exact .inl rfl

/-- A block of one pair: part 1 of version 0, whose first part lies elsewhere. Its key's hash
byte is 0xb8, the low byte of `hashlittle` on the four zero bytes of block 0. -/
theorem filterLogMutationKVPairs_whole_versions_sample :
    filterLogMutationKVPairs (fun _ => 184) ClientKnobs.defaults id
        [([184, 0, 0, 0, 0, 0, 0, 0, 0, 0, 0, 0, 1], [])] [] =
      .ok [([184, 0, 0, 0, 0, 0, 0, 0, 0, 0, 0, 0, 1], [])] ∧
    (([([184, 0, 0, 0, 0, 0, 0, 0, 0, 0, 0, 0, 1], [])] : List (Key × Value)).filter
        (fun kv => logKeyVersion (fun _ => 184) ClientKnobs.defaults kv.1 == some 0) = [] ∨
      ([([184, 0, 0, 0, 0, 0, 0, 0, 0, 0, 0, 0, 1], [])] : List (Key × Value)).filter
          (fun kv => logKeyVersion (fun _ => 184) ClientKnobs.defaults kv.1 == some 0) =
        ([([184, 0, 0, 0, 0, 0, 0, 0, 0, 0, 0, 0, 1], [])] : List (Key × Value)).filter
          (fun kv => logKeyVersion (fun _ => 184) ClientKnobs.defaults kv.1 == some 0)) :=
  have hrun : filterLogMutationKVPairs (fun _ => 184) ClientKnobs.defaults id
      [([184, 0, 0, 0, 0, 0, 0, 0, 0, 0, 0, 0, 1], [])] [] =
        .ok [([184, 0, 0, 0, 0, 0, 0, 0, 0, 0, 0, 0, 1], [])] := by rfl
  ⟨hrun, filterLogMutationKVPairs_whole_versions (fun _ => 184) ClientKnobs.defaults
    (fun l => List.Perm.refl l) hrun 0⟩

variable (hashlittle knobs) in
/-- The filter only drops pairs: its output is a sub-multiset of the block's pairs. -/
theorem filterLogMutationKVPairs_subperm {data : List (Key × Value)}
    {ranges : List KeyRangeRef} {output : List (Key × Value)}
    {visit : List (ℤ × AccumulatedMutations) → List (ℤ × AccumulatedMutations)}
    (hvisit : ∀ l, (visit l).Perm l)
    (h : filterLogMutationKVPairs hashlittle knobs visit data ranges = .ok output) :
    output.Subperm data := by
  obtain ⟨es, kept, hdata, hkeys, hmem, hnodup, rfl, -⟩ :=
    filterLogMutationKVPairs_spec hashlittle knobs hvisit h
  have hvs e he := logKeyVersion_of_ok hashlittle knobs (hkeys e he)
  refine List.subperm_ext_iff.mpr fun x hx => ?_
  -- the pair lies in a kept group, so its key reads the group's version
  obtain ⟨g, hg, hxg⟩ := List.mem_flatMap.mp hx
  rw [kvs_of_mem_groups (hmem g hg)] at hxg
  obtain ⟨e, he, rfl⟩ := List.mem_map.mp hxg
  have hP : (logKeyVersion hashlittle knobs e.2.2.1 == some e.1) = true := by
    simp [hvs e (List.mem_of_mem_filter he)]
  -- both counts are counts among the pairs of that version
  rw [← List.count_filter (p := fun kv => logKeyVersion hashlittle knobs kv.1 == some e.1) hP,
    ← List.count_filter (p := fun kv => logKeyVersion hashlittle knobs kv.1 == some e.1)
      (l := data) hP,
    filter_flatMap_kept hvs hmem hnodup, filter_data hdata hvs]
  split_ifs
  · exact le_rfl
  · exact Nat.zero_le _

theorem filterLogMutationKVPairs_subperm_sample :
    filterLogMutationKVPairs (fun _ => 184) ClientKnobs.defaults id
        [([184, 0, 0, 0, 0, 0, 0, 0, 0, 0, 0, 0, 1], [])] [] =
      .ok [([184, 0, 0, 0, 0, 0, 0, 0, 0, 0, 0, 0, 1], [])] ∧
    List.Subperm ([([184, 0, 0, 0, 0, 0, 0, 0, 0, 0, 0, 0, 1], [])] : List (Key × Value))
      [([184, 0, 0, 0, 0, 0, 0, 0, 0, 0, 0, 0, 1], [])] :=
  have hrun : filterLogMutationKVPairs (fun _ => 184) ClientKnobs.defaults id
      [([184, 0, 0, 0, 0, 0, 0, 0, 0, 0, 0, 0, 1], [])] [] =
        .ok [([184, 0, 0, 0, 0, 0, 0, 0, 0, 0, 0, 0, 1], [])] := by rfl
  ⟨hrun, filterLogMutationKVPairs_subperm (fun _ => 184) ClientKnobs.defaults
    (fun l => List.Perm.refl l) hrun⟩

variable (hashlittle knobs) in
/-- A version whose parts in the block are not the whole run 0, 1, …, n - 1, as when the rest
of its commit lies in another block, is kept whole: the filter cannot decode it, and never
drops it. -/
theorem filterLogMutationKVPairs_keeps_incomplete {data : List (Key × Value)}
    {ranges : List KeyRangeRef} {output : List (Key × Value)}
    {visit : List (ℤ × AccumulatedMutations) → List (ℤ × AccumulatedMutations)}
    (hvisit : ∀ l, (visit l).Perm l)
    (h : filterLogMutationKVPairs hashlittle knobs visit data ranges = .ok output) (v : ℤ)
    (hnonneg : ∀ p ∈ logKeyParts hashlittle knobs v data, 0 ≤ p)
    (hgap : logKeyParts hashlittle knobs v data ≠
      (List.range (logKeyParts hashlittle knobs v data).length).map Nat.cast) :
    output.filter (fun kv => logKeyVersion hashlittle knobs kv.1 == some v) =
      data.filter (fun kv => logKeyVersion hashlittle knobs kv.1 == some v) := by
  obtain ⟨es, kept, hdata, hkeys, hmem, hnodup, rfl, hneg⟩ :=
    filterLogMutationKVPairs_spec hashlittle knobs hvisit h
  have hvs e he := logKeyVersion_of_ok hashlittle knobs (hkeys e he)
  have hparts : logKeyParts hashlittle knobs v data = (es.filter (·.1 == v)).map (·.2.1) := by
    rw [← hdata]
    exact logKeyParts_map hkeys v
  rw [hparts] at hnonneg hgap
  -- the version has pairs, so it has a group
  have hne : es.filter (·.1 == v) ≠ [] := by
    intro hnil
    apply hgap
    rw [hnil]
    rfl
  obtain ⟨e, he⟩ := List.exists_mem_of_ne_nil _ hne
  have hg : (v, (es.filter (·.1 == v)).foldl (fun m e => m.addChunk e.2.1 e.2.2)
      AccumulatedMutations.init) ∈ GroupBy.groups (fun e => e.1)
        (fun (m : AccumulatedMutations) e => m.addChunk e.2.1 e.2.2)
        AccumulatedMutations.init es :=
    (GroupBy.mem_groups_iff _ _ _ es v _).mpr
      ⟨⟨e, List.mem_of_mem_filter he, by simpa using List.of_mem_filter he⟩, rfl⟩
  -- its parts are not a run from 0, so its joined value was given up
  have hlast : ((es.filter (·.1 == v)).foldl (fun m e => m.addChunk e.2.1 e.2.2)
      AccumulatedMutations.init).lastChunkNumber < 0 := by
    by_contra hcon
    apply hgap
    have hrun := AccumulatedMutations.lastChunkNumber_foldl_addChunk (es.filter (·.1 == v)) []
      AccumulatedMutations.init (fun e' he' => hnonneg _ (List.mem_map_of_mem he'))
      (.inl ⟨by simp [AccumulatedMutations.init], rfl⟩) (by omega)
    simpa using hrun
  have hv : v ∈ kept.map Prod.fst := List.mem_map.mpr ⟨_, hneg _ hg hlast, rfl⟩
  rw [filter_flatMap_kept hvs hmem hnodup, filter_data hdata hvs, if_pos hv]

theorem filterLogMutationKVPairs_keeps_incomplete_sample :
    filterLogMutationKVPairs (fun _ => 184) ClientKnobs.defaults id
        [([184, 0, 0, 0, 0, 0, 0, 0, 0, 0, 0, 0, 1], [])] [] =
      .ok [([184, 0, 0, 0, 0, 0, 0, 0, 0, 0, 0, 0, 1], [])] ∧
    (∀ p ∈ logKeyParts (fun _ => 184) ClientKnobs.defaults 0
      [([184, 0, 0, 0, 0, 0, 0, 0, 0, 0, 0, 0, 1], [])], 0 ≤ p) ∧
    logKeyParts (fun _ => 184) ClientKnobs.defaults 0
        [([184, 0, 0, 0, 0, 0, 0, 0, 0, 0, 0, 0, 1], [])] ≠
      (List.range (logKeyParts (fun _ => 184) ClientKnobs.defaults 0
        [([184, 0, 0, 0, 0, 0, 0, 0, 0, 0, 0, 0, 1], [])]).length).map Nat.cast ∧
    ([([184, 0, 0, 0, 0, 0, 0, 0, 0, 0, 0, 0, 1], [])] : List (Key × Value)).filter
        (fun kv => logKeyVersion (fun _ => 184) ClientKnobs.defaults kv.1 == some 0) =
      ([([184, 0, 0, 0, 0, 0, 0, 0, 0, 0, 0, 0, 1], [])] : List (Key × Value)).filter
        (fun kv => logKeyVersion (fun _ => 184) ClientKnobs.defaults kv.1 == some 0) :=
  have hrun : filterLogMutationKVPairs (fun _ => 184) ClientKnobs.defaults id
      [([184, 0, 0, 0, 0, 0, 0, 0, 0, 0, 0, 0, 1], [])] [] =
        .ok [([184, 0, 0, 0, 0, 0, 0, 0, 0, 0, 0, 0, 1], [])] := by rfl
  have hnonneg : ∀ p ∈ logKeyParts (fun _ => 184) ClientKnobs.defaults 0
      [([184, 0, 0, 0, 0, 0, 0, 0, 0, 0, 0, 0, 1], [])], 0 ≤ p := by decide
  have hgap : logKeyParts (fun _ => 184) ClientKnobs.defaults 0
        [([184, 0, 0, 0, 0, 0, 0, 0, 0, 0, 0, 0, 1], [])] ≠
      (List.range (logKeyParts (fun _ => 184) ClientKnobs.defaults 0
        [([184, 0, 0, 0, 0, 0, 0, 0, 0, 0, 0, 0, 1], [])]).length).map Nat.cast := by decide
  ⟨hrun, hnonneg, hgap,
    filterLogMutationKVPairs_keeps_incomplete (fun _ => 184) ClientKnobs.defaults
      (fun l => List.Perm.refl l) hrun 0 hnonneg hgap⟩

end WholeVersions

end FoundationDB.Backup
