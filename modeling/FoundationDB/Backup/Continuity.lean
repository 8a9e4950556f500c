import Mathlib.Data.Prod.Lex
import FoundationDB.Backup.LogFile
import FoundationDB.Library.Keyed
import FoundationDB.Library.Runs

/-! Continuity of partitioned backup logs (`BackupContainerFileSystem.actor.cpp`).
`isContinuous` sweeps one tag's files in version order from `begin`, and records in `tags` the
inclusive version ranges `[first, second]` over which the number of tags stays the same.
`isPartitionedLogsContinuous` checks tag 0 over `[begin, end]` and, for each such range, the
other tags of the range; `getPartitionedLogsContinuousEndVersion` finds how far from `begin`
all tags are continuous.

A file list given by `files` and `indices` is the list of the files at those indices; the
`std::map` of ranges is a list kept in its key order, in which `emplace` leaves a present key
alone. -/

namespace FoundationDB.Backup

open LogFile

/-- `invalidVersion`. -/
def invalidVersion : ℤ := -1

/-- `std::map<std::pair<Version, Version>, int>`. -/
abbrev Tags := List (Lex (ℤ × ℤ) × ℤ)

def emplace (tags : Tags) (key : ℤ × ℤ) (count : ℤ) : Tags :=
  if tags.any (·.1 = toLex key) then tags else Keyed.insert Prod.fst tags (toLex key, count)

/-- The variables of `isContinuous`' loop. -/
structure Sweep where
  lastBegin : ℤ
  lastEnd : ℤ
  lastTags : ℤ
  tags : Tags

def Sweep.init : Sweep := ⟨invalidVersion, invalidVersion, -1, []⟩

/-- How one file leaves the loop: on to the next file, `return false` with the ranges recorded,
or `break`. -/
inductive SweepNext
  | next (s : Sweep)
  | fail (tags : Tags)
  | stop (s : Sweep)

/-- The loop's variables once `file` continues the run begun at `lastBegin`: a new number of
tags closes the range and begins another at the file. -/
def advanceState (tags : Tags) (file : LogFile) (lastBegin lastTags : ℤ) : Sweep :=
  if lastTags ≠ file.totalTags then
    ⟨file.beginVersion, file.endVersion, file.totalTags,
      emplace tags (lastBegin, file.beginVersion - 1) lastTags⟩
  else ⟨lastBegin, file.endVersion, lastTags, tags⟩

/-- The end of the loop body, once `file` continues the run begun at `lastBegin`. -/
def advance («end» : ℤ) (tags : Tags) (file : LogFile) (lastBegin lastTags : ℤ) : SweepNext :=
  let s := advanceState tags file lastBegin lastTags
  if «end» < s.lastEnd then .stop s else .next s

def sweepStep (begin «end» : ℤ) (s : Sweep) (file : LogFile) : SweepNext :=
  if s.lastEnd = invalidVersion then
    if begin < file.beginVersion then .fail s.tags
    else if begin < file.endVersion then advance «end» s.tags file begin file.totalTags
    else .next s
  else if s.lastEnd < file.beginVersion then
    .fail (emplace s.tags (s.lastBegin, s.lastEnd - 1) s.lastTags)
  else advance «end» s.tags file s.lastBegin s.lastTags

/-- After the loop: the last range is recorded, and the files are continuous when a run began
and reached past `end`. -/
def sweepFinish («end» : ℤ) (s : Sweep) : Bool × Tags :=
  (decide (s.lastBegin ≠ invalidVersion) && decide («end» < s.lastEnd),
    if s.lastBegin ≠ invalidVersion then
      emplace s.tags (s.lastBegin, min «end» (s.lastEnd - 1)) s.lastTags
    else s.tags)

def sweepLoop (begin «end» : ℤ) (s : Sweep) : List LogFile → Bool × Tags
  | [] => sweepFinish «end» s
  | file :: files =>
    match sweepStep begin «end» s file with
    | .next s => sweepLoop begin «end» s files
    | .fail tags => (false, tags)
    | .stop s => sweepFinish «end» s

def isContinuous (files : List LogFile) (begin «end» : ℤ) : Bool × Tags :=
  sweepLoop begin «end» Sweep.init files

/-- `tagIndices[tag]` of `isPartitionedLogsContinuous`: the files of the tag, in order. -/
def tagFiles (files : List LogFile) (tag : ℤ) : List LogFile := files.filter (·.tagId = tag)

def isPartitionedLogsContinuous (files : List LogFile) (begin «end» : ℤ) : Bool :=
  let (continuous, tags) := isContinuous (tagFiles files 0) begin «end»
  continuous && tags.all fun (beginEnd, count) =>
    (List.range' 1 (count - 1).toNat).all fun i =>
      (isContinuous (tagFiles files i) (ofLex beginEnd).1 (min ((ofLex beginEnd).2 - 1) «end»)).1

/-- `tagIndices[tag]` of `getPartitionedLogsContinuousEndVersion`: a file takes the place of the
last one kept when it holds it, is dropped when that one holds it, and is kept otherwise. -/
def keepFile (kept : List LogFile) (file : LogFile) : List LogFile :=
  match kept.getLast? with
  | none => [file]
  | some last =>
    if last.isSubset file then kept.dropLast ++ [file]
    else if !file.isSubset last then kept ++ [file]
    else kept

def keptFiles (logs : List LogFile) (tag : ℤ) : List LogFile := (tagFiles logs tag).foldl keepFile []

/-- The partitions loop of one range `[first, second]`: the least end reached, or `none` when a
partition records no range. -/
def partitionsEnd (logs : List LogFile) (first second : ℤ) : ℤ → List ℕ → Option ℤ
  | tagEnd, [] => some tagEnd
  | tagEnd, i :: is =>
    let tagEnd := match (isContinuous (keptFiles logs i) first second).2.getLast? with
      | none => 0
      | some last => min tagEnd (ofLex last.1).2
    if tagEnd = 0 then none else partitionsEnd logs first second tagEnd is

/-- The ranges loop, from the end `lastEnd` of the ranges checked so far. -/
def rangesEnd (logs : List LogFile) (begin «end» lastEnd : ℤ) : Tags → ℤ
  | [] => «end»
  | (beginEnd, count) :: tags =>
    match partitionsEnd logs (ofLex beginEnd).1 (ofLex beginEnd).2 (ofLex beginEnd).2
        (List.range' 1 (count - 1).toNat) with
    | none => if lastEnd = begin then 0 else lastEnd
    | some tagEnd =>
      if tagEnd < (ofLex beginEnd).2 then tagEnd
      else rangesEnd logs begin «end» (ofLex beginEnd).2 tags

def getPartitionedLogsContinuousEndVersion (logs : List LogFile) (begin : ℤ) : ℤ :=
  let «end» := logs.foldl (fun e f => max e (f.endVersion - 1)) 0
  let tags := (isContinuous (keptFiles logs 0) begin «end»).2
  match tags.getLast? with
  | none => 0
  | some last =>
    if «end» ≤ begin then 0
    else rangesEnd logs begin (min «end» (ofLex last.1).2) begin tags

section Sweep

/-- Some file of the list holds the version. -/
def InFiles (files : List LogFile) (v : ℤ) : Prop := ∃ f ∈ files, f.contains v

instance (files : List LogFile) (v : ℤ) : Decidable (InFiles files v) :=
  inferInstanceAs (Decidable (∃ f ∈ files, f.contains v))

/-- One tag's files as the restore set keeps them: each begins at a version `≥ 0` before it
ends, and begins and ends before the next. -/
structure Sweepable (files : List LogFile) : Prop where
  wf : ∀ f ∈ files, 0 ≤ f.beginVersion ∧ f.beginVersion < f.endVersion
  chain : files.Pairwise fun a c => a.beginVersion < c.beginVersion ∧ a.endVersion < c.endVersion

variable {b e : ℤ}

lemma inFiles_append {l₁ l₂ : List LogFile} {v : ℤ} :
    InFiles (l₁ ++ l₂) v ↔ InFiles l₁ v ∨ InFiles l₂ v := by
  simp only [InFiles, List.mem_append, or_and_right, exists_or]

@[simp] lemma advanceState_lastEnd (tags : Tags) (file : LogFile) (lastBegin lastTags : ℤ) :
    (advanceState tags file lastBegin lastTags).lastEnd = file.endVersion := by
  unfold advanceState
  split_ifs <;> rfl

lemma advance_eq (tags : Tags) (file : LogFile) (lastBegin lastTags : ℤ) :
    advance e tags file lastBegin lastTags =
      if e < file.endVersion then .stop (advanceState tags file lastBegin lastTags)
      else .next (advanceState tags file lastBegin lastTags) := by
  simp [advance]

lemma sweepStep_cases (s : Sweep) (file : LogFile) :
    (s.lastEnd = invalidVersion ∧ b < file.beginVersion ∧ sweepStep b e s file = .fail s.tags) ∨
    (s.lastEnd = invalidVersion ∧ file.beginVersion ≤ b ∧ file.endVersion ≤ b ∧
      sweepStep b e s file = .next s) ∨
    (s.lastEnd ≠ invalidVersion ∧ s.lastEnd < file.beginVersion ∧
      sweepStep b e s file = .fail (emplace s.tags (s.lastBegin, s.lastEnd - 1) s.lastTags)) ∨
    (s.lastEnd = invalidVersion ∧ file.beginVersion ≤ b ∧ b < file.endVersion ∧
      sweepStep b e s file = advance e s.tags file b file.totalTags) ∨
    (s.lastEnd ≠ invalidVersion ∧ file.beginVersion ≤ s.lastEnd ∧
      sweepStep b e s file = advance e s.tags file s.lastBegin s.lastTags) := by
  unfold sweepStep
  by_cases hinv : s.lastEnd = invalidVersion
  · rw [if_pos hinv]
    split_ifs with hbeg hend
    · exact .inl ⟨hinv, hbeg, rfl⟩
    · exact .inr (.inr (.inr (.inl ⟨hinv, not_lt.mp hbeg, hend, rfl⟩)))
    · exact .inr (.inl ⟨hinv, not_lt.mp hbeg, not_lt.mp hend, rfl⟩)
  · rw [if_neg hinv]
    split_ifs with hgap
    · exact .inr (.inr (.inl ⟨hinv, hgap, rfl⟩))
    · exact .inr (.inr (.inr (.inr ⟨hinv, not_lt.mp hgap, rfl⟩)))

/-- Where the sweep stands after the files `done`: no run begun and every file so far ending by
`begin`, or a run from `begin` up to `lastEnd ≤ end` that those files cover and none passes. -/
def CovInv (b e : ℤ) (done : List LogFile) (s : Sweep) : Prop :=
  (s.lastEnd = invalidVersion ∧ s.lastBegin = invalidVersion ∧ ∀ f ∈ done, f.endVersion ≤ b) ∨
  (s.lastEnd ≠ invalidVersion ∧ 0 ≤ s.lastBegin ∧ b < s.lastEnd ∧ s.lastEnd ≤ e ∧
    (∀ v, b ≤ v → v < s.lastEnd → InFiles done v) ∧ ∀ f ∈ done, f.endVersion ≤ s.lastEnd)

lemma CovInv.of_valid {done : List LogFile} {s : Sweep} (h : CovInv b e done s)
    (hvalid : s.lastEnd ≠ invalidVersion) :
    0 ≤ s.lastBegin ∧ b < s.lastEnd ∧ s.lastEnd ≤ e ∧ (∀ v, b ≤ v → v < s.lastEnd → InFiles done v) ∧
      ∀ f ∈ done, f.endVersion ≤ s.lastEnd := by
  rcases h with ⟨hend, -, -⟩ | ⟨-, h⟩
  · exact absurd hend hvalid
  · exact h

lemma covInv_init : CovInv b e [] Sweep.init :=
  .inl ⟨rfl, rfl, by simp⟩

/-- The first version the sweep still needs: `begin` before a run begins, `lastEnd` after. -/
def frontier (b : ℤ) (s : Sweep) : ℤ := if s.lastEnd = invalidVersion then b else s.lastEnd

lemma CovInv.frontier_missing {done : List LogFile} {s : Sweep} (h : CovInv b e done s) :
    b ≤ frontier b s ∧ frontier b s ≤ max b e ∧ ¬InFiles done (frontier b s) := by
  rcases h with ⟨hend, -, hdone⟩ | ⟨hvalid, -, hlo, hhi, -, hdone⟩
  · rw [frontier, if_pos hend]
    refine ⟨le_rfl, le_max_left _ _, ?_⟩
    rintro ⟨f, hf, -, hlt⟩
    exact absurd (hdone f hf) (not_le.mpr hlt)
  · rw [frontier, if_neg hvalid]
    refine ⟨hlo.le, hhi.trans (le_max_right _ _), ?_⟩
    rintro ⟨f, hf, -, hlt⟩
    exact absurd (hdone f hf) (not_le.mpr hlt)

lemma CovInv.covered {done : List LogFile} {s : Sweep} (h : CovInv b e done s) :
    ∀ v, b ≤ v → v < frontier b s → InFiles done v := by
  rcases h with ⟨hend, -, -⟩ | ⟨hvalid, -, -, -, hcov, -⟩
  · rw [frontier, if_pos hend]
    intro v hbv hvb
    exact absurd hbv (not_le.mpr hvb)
  · rw [frontier, if_neg hvalid]
    exact hcov

lemma not_inFiles_of_lt {file : LogFile} {todo : List LogFile} {w : ℤ}
    (hs : (file :: todo).Pairwise fun a c => a.beginVersion < c.beginVersion ∧ a.endVersion < c.endVersion)
    (hw : w < file.beginVersion) : ¬InFiles (file :: todo) w := by
  rintro ⟨f, hf, hbeg, -⟩
  rcases List.mem_cons.mp hf with rfl | hf
  · exact absurd hbeg (not_le.mpr hw)
  · exact absurd hbeg (not_le.mpr (hw.trans ((List.pairwise_cons.mp hs).1 f hf).1))

lemma CovInv.finish_false {done : List LogFile} {s : Sweep} (h : CovInv b e done s) :
    (sweepFinish e s).1 = false := by
  rcases h with ⟨-, hbeg, -⟩ | ⟨-, -, -, hhi, -, -⟩
  · simp [sweepFinish, hbeg]
  · simp [sweepFinish, not_lt.mpr hhi]

lemma covered_advance {done : List LogFile} {file : LogFile} {w : ℤ}
    (hcov : ∀ v, b ≤ v → v < w → InFiles done v) (hreach : file.beginVersion ≤ w) :
    ∀ v, b ≤ v → v < file.endVersion → InFiles (done ++ [file]) v := by
  intro v hbv hve
  by_cases hvw : v < w
  · exact inFiles_append.mpr (.inl (hcov v hbv hvw))
  · exact inFiles_append.mpr (.inr ⟨file, List.mem_singleton_self _, by omega, hve⟩)

lemma advanceState_lastBegin_nonneg {tags : Tags} {file : LogFile} {lastBegin lastTags : ℤ}
    (hfile : 0 ≤ file.beginVersion) (hlb : 0 ≤ lastBegin) :
    0 ≤ (advanceState tags file lastBegin lastTags).lastBegin := by
  unfold advanceState
  split_ifs
  · exact hfile
  · exact hlb

lemma CovInv.skip {done : List LogFile} {s : Sweep} {file : LogFile} (h : CovInv b e done s)
    (hinv : s.lastEnd = invalidVersion) (hend : file.endVersion ≤ b) : CovInv b e (done ++ [file]) s := by
  rcases h with ⟨h1, h2, hdone⟩ | ⟨hvalid, -⟩
  · refine .inl ⟨h1, h2, fun f hf => ?_⟩
    rcases List.mem_append.mp hf with hf | hf
    · exact hdone f hf
    · rw [List.mem_singleton.mp hf]
      exact hend
  · exact absurd hinv hvalid

lemma CovInv.advance {done : List LogFile} {s : Sweep} {file : LogFile} {lastBegin lastTags : ℤ}
    (h : CovInv b e done s) (hreach : file.beginVersion ≤ frontier b s) (hbe : b < file.endVersion)
    (hfile : 0 ≤ file.beginVersion ∧ file.beginVersion < file.endVersion) (hlb : 0 ≤ lastBegin)
    (hafter : ∀ f ∈ done, f.endVersion < file.endVersion) (hend : file.endVersion ≤ e) :
    CovInv b e (done ++ [file]) (advanceState s.tags file lastBegin lastTags) := by
  refine .inr ⟨by simp only [advanceState_lastEnd, invalidVersion]; omega,
    advanceState_lastBegin_nonneg hfile.1 hlb, by simpa using hbe, by simpa using hend,
    by simpa using covered_advance h.covered hreach, fun f hf => ?_⟩
  rcases List.mem_append.mp hf with hf | hf
  · simpa using (hafter f hf).le
  · simp [List.mem_singleton.mp hf]

lemma CovInv.lt_endVersion {done : List LogFile} {s : Sweep} {file : LogFile} (h : CovInv b e done s)
    (hinv : s.lastEnd ≠ invalidVersion) (hafter : ∀ f ∈ done, f.endVersion < file.endVersion) :
    b < file.endVersion := by
  obtain ⟨-, hlo, -, hcov, -⟩ := h.of_valid hinv
  obtain ⟨g, hg, -, hgb⟩ := hcov b le_rfl hlo
  exact hgb.trans (hafter g hg)

lemma sweepLoop_fst (hb : 0 ≤ b) {todo : List LogFile} :
    ∀ {done : List LogFile} {s : Sweep}, Sweepable (done ++ todo) → CovInv b e done s →
      ((sweepLoop b e s todo).1 = true ↔ ∀ v, b ≤ v → v ≤ max b e → InFiles (done ++ todo) v) := by
  induction todo with
  | nil =>
    intro done s hs h
    obtain ⟨hbw, hwe, hw⟩ := h.frontier_missing
    simp only [sweepLoop, List.append_nil, h.finish_false, Bool.false_eq_true, false_iff, not_forall]
    exact ⟨frontier b s, hbw, hwe, hw⟩
  | cons file todo ih =>
    intro done s hs h
    have hchain := List.pairwise_append.mp hs.chain
    have hafter : ∀ f ∈ done, f.endVersion < file.endVersion :=
      fun f hf => (hchain.2.2 f hf file List.mem_cons_self).2
    have hfile := hs.wf file (by simp)
    obtain ⟨hbw, hwe, hw⟩ := h.frontier_missing
    -- a gap at the frontier: no file holds it
    have hmissing : file.beginVersion > frontier b s →
        ¬∀ v, b ≤ v → v ≤ max b e → InFiles (done ++ file :: todo) v := by
      intro hgap hall
      rcases inFiles_append.mp (hall _ hbw hwe) with hin | hin
      · exact hw hin
      · exact not_inFiles_of_lt hchain.2.1 hgap hin
    -- a file that continues the run
    have hcontinue : ∀ lastBegin lastTags, 0 ≤ lastBegin → file.beginVersion ≤ frontier b s →
        b < file.endVersion →
        ((match advance e s.tags file lastBegin lastTags with
          | .next s => sweepLoop b e s todo
          | .fail tags => (false, tags)
          | .stop s => sweepFinish e s).1 = true ↔
          ∀ v, b ≤ v → v ≤ max b e → InFiles (done ++ file :: todo) v) := by
      intro lastBegin lastTags hlb hreach hbe
      have hvalid : (advanceState s.tags file lastBegin lastTags).lastBegin ≠ invalidVersion := by
        have h0 : 0 ≤ (advanceState s.tags file lastBegin lastTags).lastBegin :=
          advanceState_lastBegin_nonneg hfile.1 hlb
        unfold invalidVersion
        omega
      rw [advance_eq]
      split_ifs with hend
      · -- past `end`: the run covers all
        simp only [sweepFinish, advanceState_lastEnd, hend, hvalid, decide_true, ne_eq,
          not_false_eq_true, Bool.and_self, true_iff]
        intro v hbv hve
        have hin := covered_advance h.covered hreach v hbv (by omega)
        rw [← List.singleton_append, ← List.append_assoc]
        exact inFiles_append.mpr (.inl hin)
      · simpa using ih (by simpa using hs) (h.advance hreach hbe hfile hlb hafter (not_lt.mp hend))
    rcases sweepStep_cases (b := b) (e := e) s file with
      ⟨hinv, hgap, hstep⟩ | ⟨hinv, hbeg, hend, hstep⟩ | ⟨hinv, hgap, hstep⟩ |
        ⟨hinv, hbeg, hend, hstep⟩ | ⟨hinv, hbeg, hstep⟩
    · rw [sweepLoop, hstep]
      simpa using hmissing (by rw [frontier, if_pos hinv]; exact hgap)
    · -- a file that ends by `begin` is skipped
      rw [sweepLoop, hstep]
      simpa using ih (by simpa using hs) (h.skip hinv hend)
    · rw [sweepLoop, hstep]
      simpa using hmissing (by rw [frontier, if_neg hinv]; exact hgap)
    · rw [sweepLoop, hstep]
      exact hcontinue b file.totalTags hb (by rw [frontier, if_pos hinv]; exact hbeg) hend
    · rw [sweepLoop, hstep]
      exact hcontinue s.lastBegin s.lastTags (h.of_valid hinv).1
        (by rw [frontier, if_neg hinv]; exact hbeg) (h.lt_endVersion hinv hafter)

lemma isContinuous_fst (hb : 0 ≤ b) {files : List LogFile} (hs : Sweepable files) :
    (isContinuous files b e).1 = true ↔ ∀ v, b ≤ v → v ≤ max b e → InFiles files v :=
  @sweepLoop_fst b e hb files [] Sweep.init (by simpa using hs) covInv_init

end Sweep

section Ranges

/-! The ranges `isContinuous` records when it reports `[begin, end]` continuous are the maximal
runs of the number of tags there, read off any file that holds a version. -/

variable {b e : ℤ} {T : ℤ → ℤ}

/-- The ranges recorded so far: maximal runs within `[begin, end]`, each ending before `u`, that
together cover `[begin, u)`. -/
def RangesUpTo (T : ℤ → ℤ) (b e u : ℤ) (tags : Tags) : Prop :=
  (∀ x ∈ tags, Runs.IsRun T b e (ofLex x.1).1 (ofLex x.1).2 x.2 ∧ (ofLex x.1).2 < u) ∧
    ∀ v, b ≤ v → v < u → ∃ x ∈ tags, (ofLex x.1).1 ≤ v ∧ v ≤ (ofLex x.1).2

/-- The run the sweep is in: from `lastBegin`, where the number of tags last changed, to
`lastEnd`, with the ranges before it recorded. -/
def RunInv (T : ℤ → ℤ) (b e : ℤ) (s : Sweep) : Prop :=
  (s.lastEnd = invalidVersion ∧ s.tags = []) ∨
  (b ≤ s.lastBegin ∧ s.lastBegin < s.lastEnd ∧ (∀ v, s.lastBegin ≤ v → v < s.lastEnd → T v = s.lastTags) ∧
    (s.lastBegin = b ∨ T (s.lastBegin - 1) ≠ s.lastTags) ∧ RangesUpTo T b e s.lastBegin s.tags)

lemma emplace_of_lt {tags : Tags} {key : ℤ × ℤ} (h : ∀ x ∈ tags, x.1 < toLex key) (count : ℤ) :
    emplace tags key count = tags ++ [(toLex key, count)] := by
  have hne : ¬tags.any (·.1 = toLex key) := by
    simp only [List.any_eq_true, decide_eq_true_eq, not_exists, not_and]
    exact fun x hx heq => (h x hx).ne heq
  rw [emplace, if_neg hne, Keyed.insert, List.takeWhile_eq_self_iff.mpr fun x hx => by simpa using (h x hx).le,
    List.dropWhile_eq_nil_iff.mpr fun x hx => by simpa using (h x hx).le]

lemma RangesUpTo.emplace_eq {tags : Tags} {u t : ℤ} (h : RangesUpTo T b e u tags) (count : ℤ) :
    emplace tags (u, t) count = tags ++ [(toLex (u, t), count)] := by
  refine emplace_of_lt (fun x hx => ?_) count
  obtain ⟨⟨-, hst, -⟩, htu⟩ := h.1 x hx
  rw [← toLex_ofLex x.1, Prod.Lex.toLex_lt_toLex]
  exact .inl (by omega)

lemma RangesUpTo.close {tags : Tags} {u t n : ℤ} (h : RangesUpTo T b e u tags)
    (hrun : Runs.IsRun T b e u t n) :
    RangesUpTo T b e (t + 1) (emplace tags (u, t) n) := by
  rw [h.emplace_eq]
  refine ⟨fun x hx => ?_, fun v hbv hvt => ?_⟩
  · rcases List.mem_append.mp hx with hx | hx
    · obtain ⟨hx, hxu⟩ := h.1 x hx
      exact ⟨hx, by have := hrun.2.1; omega⟩
    · rw [List.mem_singleton.mp hx]
      exact ⟨hrun, by simp⟩
  · by_cases hvu : v < u
    · obtain ⟨x, hx, hxv⟩ := h.2 v hbv hvu
      exact ⟨x, List.mem_append_left _ hx, hxv⟩
    · exact ⟨(toLex (u, t), n), by simp, by simp; omega⟩

lemma rangesUpTo_nil (T : ℤ → ℤ) (b e : ℤ) : RangesUpTo T b e b [] :=
  ⟨by simp, fun v hbv hvb => absurd hbv (not_le.mpr hvb)⟩

lemma runInv_init : RunInv T b e Sweep.init := .inl ⟨rfl, rfl⟩

lemma RunInv.start (hb : 0 ≤ b) {s : Sweep} {file : LogFile} (hrun : RunInv T b e s)
    (hinv : s.lastEnd = invalidVersion) (hbeg : file.beginVersion ≤ b) (hend : b < file.endVersion)
    (hT : ∀ v, file.contains v → T v = file.totalTags) :
    RunInv T b e (advanceState s.tags file b file.totalTags) := by
  have htags : s.tags = [] := by
    rcases hrun with ⟨-, h⟩ | ⟨hbl, hll, -⟩
    · exact h
    · rw [hinv, invalidVersion] at hll
      omega
  simp only [advanceState, ne_eq, not_true_eq_false, if_false, htags]
  exact .inr ⟨le_rfl, hend, fun v hv hve => hT v ⟨hbeg.trans hv, hve⟩, .inl rfl, rangesUpTo_nil T b e⟩

lemma RunInv.continue {done : List LogFile} {s : Sweep} {file : LogFile} (hcov : CovInv b e done s)
    (hrun : RunInv T b e s) (hinv : s.lastEnd ≠ invalidVersion) (hbeg : file.beginVersion ≤ s.lastEnd)
    (hlast : s.lastEnd < file.endVersion) (hT : ∀ v, file.contains v → T v = file.totalTags) :
    RunInv T b e (advanceState s.tags file s.lastBegin s.lastTags) ∧
      (advanceState s.tags file s.lastBegin s.lastTags).lastBegin ≤ s.lastEnd := by
  obtain ⟨-, -, hhi, -, -⟩ := hcov.of_valid hinv
  rcases hrun with ⟨h, -⟩ | ⟨hbl, hll, hconst, hleft, hranges⟩
  · exact absurd h hinv
  unfold advanceState
  split_ifs with hchange
  · have hat : file.beginVersion = s.lastEnd := by
      by_contra hne
      exact hchange ((hconst (s.lastEnd - 1) (by omega) (by omega)).symm.trans
        (hT _ ⟨by omega, by omega⟩))
    have hnext : T s.lastEnd ≠ s.lastTags := by
      rw [hT _ ⟨hat.le, hlast⟩]
      exact Ne.symm hchange
    have hclose := hranges.close (t := s.lastEnd - 1) (n := s.lastTags)
      ⟨hbl, by omega, by omega, fun v hv hvt => hconst v hv (by omega), hleft,
        .inr (by simpa using hnext)⟩
    refine ⟨.inr ⟨by dsimp only; omega, by dsimp only; omega, fun v hv hve => hT v ⟨hv, hve⟩, .inr ?_, ?_⟩,
      by dsimp only; omega⟩
    · dsimp only
      rw [hat, hconst (s.lastEnd - 1) (by omega) (by omega)]
      exact hchange
    · simpa [hat] using hclose
  · refine ⟨.inr ⟨hbl, by simp; omega, fun v hv hve => ?_, hleft, hranges⟩, by simp; omega⟩
    by_cases hvl : v < s.lastEnd
    · exact hconst v hv hvl
    · rw [hT v ⟨by omega, by simpa using hve⟩]
      exact (not_not.mp hchange).symm

lemma RunInv.finish (hb : 0 ≤ b) {s : Sweep} (hrun : RunInv T b e s) (hinv : s.lastEnd ≠ invalidVersion)
    (hle : s.lastBegin ≤ e) (hend : e < s.lastEnd) :
    RangesUpTo T b e (e + 1) (sweepFinish e s).2 := by
  rcases hrun with ⟨h, -⟩ | ⟨hbl, hll, hconst, hleft, hranges⟩
  · exact absurd h hinv
  have hvalid : s.lastBegin ≠ invalidVersion := by
    unfold invalidVersion
    omega
  have hmin : min e (s.lastEnd - 1) = e := min_eq_left (by omega)
  simp only [sweepFinish, ne_eq, hvalid, not_false_eq_true, if_true, hmin]
  exact hranges.close ⟨hbl, hle, le_rfl, fun v hv hve => hconst v hv (by omega), hleft, .inl rfl⟩

lemma sweepLoop_snd (hb : 0 ≤ b) (hbe : b ≤ e) {todo : List LogFile} :
    ∀ {done : List LogFile} {s : Sweep}, Sweepable (done ++ todo) →
      (∀ f ∈ done ++ todo, ∀ v, f.contains v → T v = f.totalTags) → CovInv b e done s →
      RunInv T b e s → (sweepLoop b e s todo).1 = true →
      RangesUpTo T b e (e + 1) (sweepLoop b e s todo).2 := by
  induction todo with
  | nil =>
    intro done s hs hT h hrun htrue
    simp [sweepLoop, h.finish_false] at htrue
  | cons file todo ih =>
    intro done s hs hT h hrun htrue
    have hchain := List.pairwise_append.mp hs.chain
    have hafter : ∀ f ∈ done, f.endVersion < file.endVersion :=
      fun f hf => (hchain.2.2 f hf file List.mem_cons_self).2
    have hfile := hs.wf file (by simp)
    have hTf : ∀ v, file.contains v → T v = file.totalTags := hT file (by simp)
    -- a file the run continues with: the sweep stops past `end` or goes on
    have hgo : ∀ lastBegin lastTags, 0 ≤ lastBegin → file.beginVersion ≤ frontier b s →
        b < file.endVersion → RunInv T b e (advanceState s.tags file lastBegin lastTags) →
        (advanceState s.tags file lastBegin lastTags).lastBegin ≤ e →
        (match advance e s.tags file lastBegin lastTags with
          | .next s => sweepLoop b e s todo
          | .fail tags => (false, tags)
          | .stop s => sweepFinish e s).1 = true →
        RangesUpTo T b e (e + 1) (match advance e s.tags file lastBegin lastTags with
          | .next s => sweepLoop b e s todo
          | .fail tags => (false, tags)
          | .stop s => sweepFinish e s).2 := by
      intro lastBegin lastTags hlb hreach hbe' hrun' hle' htrue'
      rw [advance_eq] at htrue' ⊢
      split_ifs at htrue' ⊢ with hend
      · exact hrun'.finish hb (by simp only [advanceState_lastEnd, invalidVersion]; omega) hle'
          (by simpa using hend)
      · exact ih (by simpa using hs) (by simpa using hT)
          (h.advance hreach hbe' hfile hlb hafter (not_lt.mp hend)) hrun' htrue'
    rcases sweepStep_cases (b := b) (e := e) s file with
      ⟨-, -, hstep⟩ | ⟨hinv, -, hend, hstep⟩ | ⟨-, -, hstep⟩ |
        ⟨hinv, hbeg, hend, hstep⟩ | ⟨hinv, hbeg, hstep⟩
    · simp [sweepLoop, hstep] at htrue
    · rw [sweepLoop, hstep] at htrue ⊢
      exact ih (by simpa using hs) (by simpa using hT) (h.skip hinv hend) hrun htrue
    · simp [sweepLoop, hstep] at htrue
    · rw [sweepLoop, hstep] at htrue ⊢
      refine hgo b file.totalTags hb (by rw [frontier, if_pos hinv]; exact hbeg) hend
        (hrun.start hb hinv hbeg hend hTf) ?_ htrue
      simp only [advanceState, ne_eq, not_true_eq_false, if_false]
      exact hbe
    · obtain ⟨hlb, -, hhi, -, -⟩ := h.of_valid hinv
      have hlast : s.lastEnd < file.endVersion := by
        obtain ⟨-, hlo, -, hcov, -⟩ := h.of_valid hinv
        obtain ⟨g, hg, -, hge⟩ := hcov (s.lastEnd - 1) (by omega) (by omega)
        exact lt_of_le_of_lt (by omega) (hafter g hg)
      obtain ⟨hrun', hle'⟩ := hrun.continue h hinv hbeg hlast hTf
      rw [sweepLoop, hstep] at htrue ⊢
      exact hgo s.lastBegin s.lastTags hlb (by rw [frontier, if_neg hinv]; exact hbeg)
        (h.lt_endVersion hinv hafter) hrun' (hle'.trans hhi) htrue

lemma isContinuous_snd (hb : 0 ≤ b) (hbe : b ≤ e) {files : List LogFile} (hs : Sweepable files)
    (hT : ∀ f ∈ files, ∀ v, f.contains v → T v = f.totalTags) (h : (isContinuous files b e).1 = true) :
    RangesUpTo T b e (e + 1) (isContinuous files b e).2 :=
  @sweepLoop_snd b e T hb hbe files [] Sweep.init (by simpa using hs) (by simpa using hT) covInv_init
    runInv_init h

end Ranges

section Partitioned

/-- The number of tags at a version, as the first file of tag 0 that holds it records it. -/
def partitionsAt (files : List LogFile) (v : ℤ) : ℤ :=
  (((tagFiles files 0).find? fun f => decide (f.contains v)).map (·.totalTags)).getD 0

/-- The versions at which `isPartitionedLogsContinuous` checks the tags other than 0: those of a
range of one number of tags but its last, and the one version of a range of one version. -/
def CheckedAt (T : ℤ → ℤ) (b e v : ℤ) : Prop := (v < e ∧ T (v + 1) = T v) ∨ v = b ∨ T (v - 1) ≠ T v

variable {F : List LogFile} {b e : ℤ}

lemma partitionsAt_eq
    (hsame : ∀ f ∈ tagFiles F 0, ∀ g ∈ tagFiles F 0, f.beginVersion < g.endVersion →
      g.beginVersion < f.endVersion → f.totalTags = g.totalTags) :
    ∀ f ∈ tagFiles F 0, ∀ v, f.contains v → partitionsAt F v = f.totalTags := by
  intro f hf v hv
  obtain ⟨g, hg, hgv⟩ : ∃ g, (tagFiles F 0).find? (fun f => decide (f.contains v)) = some g ∧ g.contains v := by
    cases hfind : (tagFiles F 0).find? fun f => decide (f.contains v) with
    | none => exact absurd hv (by simpa using List.find?_eq_none.mp hfind f hf)
    | some g => exact ⟨g, rfl, by simpa using List.find?_some hfind⟩
  have hgmem : g ∈ tagFiles F 0 := List.mem_of_find?_eq_some hg
  rw [partitionsAt, hg, Option.map_some, Option.getD_some]
  exact hsame g hgmem f hf (by have := hgv.1; have := hv.2; omega) (by have := hv.1; have := hgv.2; omega)

lemma mem_range'_iff_lt {i : ℕ} {n : ℤ} : i ∈ List.range' 1 (n - 1).toNat ↔ 1 ≤ i ∧ (i : ℤ) < n := by
  rw [List.mem_range'_1]
  omega

/-- What `isPartitionedLogsContinuous` decides: tag 0 holds every version of `[begin, end]`,
and every other tag of a version holds it at the versions the ranges check. -/
theorem isPartitionedLogsContinuous_iff_checked (hs : ∀ i, Sweepable (tagFiles F i))
    (hsame : ∀ f ∈ tagFiles F 0, ∀ g ∈ tagFiles F 0, f.beginVersion < g.endVersion →
      g.beginVersion < f.endVersion → f.totalTags = g.totalTags)
    (hb : 0 ≤ b) (hbe : b ≤ e) :
    isPartitionedLogsContinuous F b e = true ↔
      ∀ v, b ≤ v → v ≤ e → InFiles (tagFiles F 0) v ∧
        ∀ i : ℕ, 1 ≤ i → (i : ℤ) < partitionsAt F v → CheckedAt (partitionsAt F) b e v →
          InFiles (tagFiles F i) v := by
  have hfst := isContinuous_fst (e := e) hb (hs 0)
  have hsnd := isContinuous_snd hb hbe (hs 0) (partitionsAt_eq hsame)
  have hmax : max b e = e := max_eq_right hbe
  rcases hc : isContinuous (tagFiles F 0) b e with ⟨c, tags⟩
  rw [hc, hmax] at hfst
  rw [hc] at hsnd
  simp only [isPartitionedLogsContinuous, hc, Bool.and_eq_true, List.all_eq_true]
  dsimp only at hfst hsnd
  constructor
  · rintro ⟨hc0, hall⟩ v hbv hve
    have hranges := hsnd hc0
    refine ⟨hfst.mp hc0 v hbv hve, fun i hi hiv hchk => ?_⟩
    -- the range of `v`, whose check of tag `i` covers `v`
    obtain ⟨x, hx, hsv, hvt⟩ := hranges.2 v hbv (by omega)
    obtain ⟨hrun, -⟩ := hranges.1 x hx
    have hcheck := hall x hx i (mem_range'_iff_lt.mpr ⟨hi, hrun.apply hsv hvt ▸ hiv⟩)
    rw [isContinuous_fst (by have := hrun.1; omega) (hs i)] at hcheck
    have hte := hrun.2.2.1
    refine hcheck v hsv ?_
    rcases hchk with hnext | hleft
    · have := (hrun.lt_right_iff hsv hvt).mpr hnext
      omega
    · have := (hrun.eq_left_iff hsv hvt).mpr hleft
      omega
  · intro hall
    have hc0 : c = true := hfst.mpr fun v hbv hve => (hall v hbv hve).1
    refine ⟨hc0, fun x hx i hi => ?_⟩
    obtain ⟨hrun, -⟩ := (hsnd hc0).1 x hx
    obtain ⟨hi1, hin⟩ := mem_range'_iff_lt.mp hi
    have hst := hrun.2.1
    have hte := hrun.2.2.1
    rw [isContinuous_fst (by have := hrun.1; omega) (hs i)]
    intro w hsw hwt
    have hwt' : w ≤ (ofLex x.1).2 := by omega
    have hTw := hrun.apply hsw hwt'
    refine (hall w (by have := hrun.1; omega) (by omega)).2 i hi1 (by rw [hTw]; exact hin) ?_
    -- a version the range checks is not its last, or is its first
    by_cases hlt : w < (ofLex x.1).2
    · exact .inl ((hrun.lt_right_iff hsw hwt').mp hlt)
    · exact .inr ((hrun.eq_left_iff hsw hwt').mp (by omega))

/-- The same on the files `getRestoreSet` keeps of a list of partitioned logs, where files of
tag 0 that share versions record the same number of tags. -/
theorem isPartitionedLogsContinuous_restoreLogs {plogs : List LogFile}
    (hwf : ∀ f ∈ plogs, 0 ≤ f.beginVersion ∧ f.beginVersion < f.endVersion)
    (hsame : ∀ f ∈ plogs, ∀ g ∈ plogs, f.beginVersion < g.endVersion → g.beginVersion < f.endVersion →
      f.totalTags = g.totalTags)
    (hb : 0 ≤ b) (hbe : b ≤ e) :
    isPartitionedLogsContinuous (restoreLogs plogs) b e = true ↔
      ∀ v, b ≤ v → v ≤ e → InFiles (tagFiles (restoreLogs plogs) 0) v ∧
        ∀ i : ℕ, 1 ≤ i → (i : ℤ) < partitionsAt (restoreLogs plogs) v →
          CheckedAt (partitionsAt (restoreLogs plogs)) b e v → InFiles (tagFiles (restoreLogs plogs) i) v := by
  have hmem : ∀ i, ∀ f ∈ tagFiles (restoreLogs plogs) i, f ∈ plogs :=
    fun i f hf => mem_restoreLogs (List.mem_filter.mp hf).1
  refine isPartitionedLogsContinuous_iff_checked (fun i => ⟨fun f hf => hwf f (hmem i f hf), ?_⟩)
    (fun f hf g hg => hsame f (hmem 0 f hf) g (hmem 0 g hg)) hb hbe
  exact restoreLogs_tag_chain plogs i

/-- Two tags: tag 0 holds `[0, 11)` and tag 1 `[0, 10)`. The files are reported continuous over
`[0, 10]`, though tag 1 does not hold version 10. -/
theorem isPartitionedLogsContinuous_restoreLogs_misses_end :
    isPartitionedLogsContinuous (restoreLogs [⟨0, 11, 0, 2⟩, ⟨0, 10, 1, 2⟩]) 0 10 = true ∧
      partitionsAt (restoreLogs [⟨0, 11, 0, 2⟩, ⟨0, 10, 1, 2⟩]) 10 = 2 ∧
      ¬InFiles (tagFiles (restoreLogs [⟨0, 11, 0, 2⟩, ⟨0, 10, 1, 2⟩]) 1) 10 := by
  have h0 : tagFiles (restoreLogs [⟨0, 11, 0, 2⟩, ⟨0, 10, 1, 2⟩]) 0 = [⟨0, 11, 0, 2⟩] := by decide
  have h1 : tagFiles (restoreLogs [⟨0, 11, 0, 2⟩, ⟨0, 10, 1, 2⟩]) 1 = [⟨0, 10, 1, 2⟩] := by decide
  have hT : ∀ w, 0 ≤ w → w < 11 → partitionsAt (restoreLogs [⟨0, 11, 0, 2⟩, ⟨0, 10, 1, 2⟩]) w = 2 := by
    intro w hw0 hw11
    simp [partitionsAt, h0, LogFile.contains, hw0, hw11]
  refine ⟨(isPartitionedLogsContinuous_restoreLogs (by decide) (by decide) le_rfl (by decide)).mpr ?_,
    hT 10 (by decide) (by decide), by rw [h1]; decide⟩
  intro v hv0 hv10
  refine ⟨⟨⟨0, 11, 0, 2⟩, by simp [h0], by simp; omega, by simp; omega⟩, fun i hi hiv hchk => ?_⟩
  rw [hT v hv0 (by omega)] at hiv
  obtain rfl : i = 1 := by omega
  -- version 10 ends the range `[0, 10]` and is not checked
  have hv : v < 10 := by
    rcases hchk with ⟨hlt, -⟩ | rfl | hne
    · exact hlt
    · decide
    · by_contra hge
      obtain rfl : v = 10 := by omega
      exact hne (by rw [hT (10 - 1) (by decide) (by decide), hT 10 (by decide) (by decide)])
  exact ⟨⟨0, 10, 1, 2⟩, by simp [h1], by simp; omega, by simp; omega⟩

end Partitioned

end FoundationDB.Backup
