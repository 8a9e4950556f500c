import Mathlib.Data.List.Sort
import Mathlib.Order.Basic

/-! Partitioned backup log files (`LogFile` in `BackupContainer.h`) and the first steps of
`getRestoreSet` on them: the sort by tag, `filterDuplicates`, and the sort by version. A file
holds the versions `[beginVersion, endVersion)` of the log router tag `tagId` of `totalTags`.
`std::sort` is not stable; the model sorts by insertion, which picks one of the orders it may
give to files with equal keys. -/

namespace FoundationDB.Backup

/-- The fields of `LogFile` that the continuity analysis reads; a `Version` is an integer. -/
structure LogFile where
  beginVersion : ℤ
  endVersion : ℤ
  tagId : ℤ
  totalTags : ℤ
deriving DecidableEq, Repr

namespace LogFile

def contains (f : LogFile) (v : ℤ) : Prop := f.beginVersion ≤ v ∧ v < f.endVersion

instance (f : LogFile) (v : ℤ) : Decidable (f.contains v) :=
  inferInstanceAs (Decidable (_ ∧ _))

/-- `isSubset`: the file holds part of what `rhs` holds, of the same tag. -/
def isSubset (f rhs : LogFile) : Bool :=
  decide (f.beginVersion ≥ rhs.beginVersion) && decide (f.endVersion ≤ rhs.endVersion) &&
    decide (f.tagId = rhs.tagId)

/-- `operator<`: by begin version, ties broken by end version. -/
def lt (a b : LogFile) : Prop :=
  if a.beginVersion = b.beginVersion then a.endVersion < b.endVersion
  else a.beginVersion < b.beginVersion

instance (a b : LogFile) : Decidable (a.lt b) := inferInstanceAs (Decidable (ite _ _ _))

/-- The comparator of `getRestoreSet`, `std::tie(tagId, beginVersion, endVersion) <`. -/
def tagLT (a b : LogFile) : Prop :=
  a.tagId < b.tagId ∨ a.tagId = b.tagId ∧
    (a.beginVersion < b.beginVersion ∨ a.beginVersion = b.beginVersion ∧ a.endVersion < b.endVersion)

instance (a b : LogFile) : Decidable (a.tagLT b) := inferInstanceAs (Decidable (_ ∨ _))

/-- The order a sort by `lt` leaves its files in: `a` may stay before `b` unless `b < a`. -/
def versionLE (a b : LogFile) : Prop := ¬b.lt a

instance : DecidableRel versionLE := fun _ _ => inferInstanceAs (Decidable (¬_))

def tagLE (a b : LogFile) : Prop := ¬b.tagLT a

instance : DecidableRel tagLE := fun _ _ => inferInstanceAs (Decidable (¬_))

end LogFile

open LogFile

/-- One file of `filterDuplicates`' loop: the files kept so far and `logs[i]`. -/
def filterStep (acc : List LogFile × LogFile) (file : LogFile) : List LogFile × LogFile :=
  if file.isSubset acc.2 then acc
  else if !acc.2.isSubset file then (acc.1 ++ [acc.2], file)
  else (acc.1, file)

def filterDuplicates : List LogFile → List LogFile
  | [] => []
  | first :: logs =>
    let (filtered, last) := logs.foldl filterStep ([], first)
    filtered ++ [last]

/-- The partitioned-log path of `getRestoreSet`: sort by tag, remove duplicates, sort by
version. -/
def restoreLogs (plogs : List LogFile) : List LogFile :=
  (filterDuplicates (plogs.insertionSort tagLE)).insertionSort versionLE

namespace LogFile

/-- `a` is of an earlier tag, or of the same tag with both ends earlier. -/
def Before (a b : LogFile) : Prop :=
  a.tagId < b.tagId ∨ a.tagId = b.tagId ∧ a.beginVersion < b.beginVersion ∧ a.endVersion < b.endVersion

variable {a b c : LogFile}

lemma isSubset_iff : a.isSubset b ↔
    b.beginVersion ≤ a.beginVersion ∧ a.endVersion ≤ b.endVersion ∧ a.tagId = b.tagId := by
  simp [isSubset, and_assoc]

lemma isSubset_refl (a : LogFile) : a.isSubset a := by
  simp [isSubset_iff]

lemma isSubset_trans (hab : a.isSubset b) (hbc : b.isSubset c) : a.isSubset c := by
  rw [isSubset_iff] at *
  obtain ⟨h1, h2, h3⟩ := hab
  obtain ⟨h4, h5, h6⟩ := hbc
  exact ⟨h4.trans h1, h2.trans h5, h3.trans h6⟩

lemma Before.trans (hab : Before a b) (hbc : Before b c) : Before a c := by
  unfold Before at *
  omega

lemma Before.not_isSubset (h : Before a b) : ¬a.isSubset b ∧ ¬b.isSubset a := by
  unfold Before at h
  simp only [isSubset_iff]
  omega

lemma before_of_tagLE (h : tagLE a b) (hba : ¬b.isSubset a) (hab : ¬a.isSubset b) : Before a b := by
  simp only [tagLE, tagLT, isSubset_iff] at *
  unfold Before
  omega

lemma Before.of_isSubset (h : Before c a) (hs : a.isSubset b) (hle : tagLE a b) : Before c b := by
  simp only [tagLE, tagLT, isSubset_iff] at *
  unfold Before at *
  omega

end LogFile

section Sorting

lemma versionLE_total (a b : LogFile) : versionLE a b ∨ versionLE b a := by
  simp only [versionLE, lt]
  split_ifs <;> omega

lemma versionLE_trans {a b c : LogFile} (hab : versionLE a b) (hbc : versionLE b c) : versionLE a c := by
  simp only [versionLE, lt] at *
  split_ifs at * <;> omega

lemma tagLE_total (a b : LogFile) : tagLE a b ∨ tagLE b a := by
  simp only [tagLE, tagLT]
  omega

lemma tagLE_trans {a b c : LogFile} (hab : tagLE a b) (hbc : tagLE b c) : tagLE a c := by
  simp only [tagLE, tagLT] at *
  omega

lemma sorted_tagLE (plogs : List LogFile) : (plogs.insertionSort tagLE).Pairwise tagLE := by
  have : Std.Total tagLE := ⟨tagLE_total⟩
  have : IsTrans LogFile tagLE := ⟨fun _ _ _ => tagLE_trans⟩
  exact List.pairwise_insertionSort _ _

lemma sorted_versionLE (logs : List LogFile) : (logs.insertionSort versionLE).Pairwise versionLE := by
  have : Std.Total versionLE := ⟨versionLE_total⟩
  have : IsTrans LogFile versionLE := ⟨fun _ _ _ => versionLE_trans⟩
  exact List.pairwise_insertionSort _ _

end Sorting

section FilterDuplicates

/-- What `filterDuplicates`' loop keeps of the files seen so far: some of them in order, none
holding another, and together holding every one seen. -/
structure FilterInv (seen : List LogFile) (acc : List LogFile × LogFile) : Prop where
  sublist : (acc.1 ++ [acc.2]).Sublist seen
  before : (acc.1 ++ [acc.2]).Pairwise Before
  covers : ∀ f ∈ seen, ∃ g ∈ acc.1 ++ [acc.2], f.isSubset g

lemma filterInv_single (first : LogFile) : FilterInv [first] ([], first) :=
  ⟨by simp, by simp, fun f hf => ⟨first, by simp, by rw [List.mem_singleton.mp hf]; exact isSubset_refl _⟩⟩

lemma FilterInv.step {seen : List LogFile} {acc : List LogFile × LogFile} (h : FilterInv seen acc)
    {file : LogFile} (hle : ∀ f ∈ seen, tagLE f file) : FilterInv (seen ++ [file]) (filterStep acc file) := by
  obtain ⟨filtered, cur⟩ := acc
  have hcur : tagLE cur file := hle cur (h.sublist.subset (by simp))
  have hsub : (filtered ++ [cur] ++ [file]).Sublist (seen ++ [file]) := h.sublist.append_right _
  simp only [filterStep]
  split_ifs with hin hnot
  · -- the file is held by the last one kept
    refine ⟨h.sublist.trans (List.sublist_append_left _ _), h.before, fun f hf => ?_⟩
    rcases List.mem_append.mp hf with hf | hf
    · exact h.covers f hf
    · exact ⟨cur, by simp, by rw [List.mem_singleton.mp hf]; exact hin⟩
  · -- neither holds the other: the last one kept stays
    have hbefore : Before cur file := before_of_tagLE hcur hin (by simpa using hnot)
    refine ⟨hsub, List.pairwise_append.mpr ⟨h.before, by simp, fun x hx y hy => ?_⟩, fun f hf => ?_⟩
    · rw [List.mem_singleton.mp hy]
      rcases List.mem_append.mp hx with hx | hx
      · exact (List.pairwise_append.mp h.before).2.2 x hx cur (by simp) |>.trans hbefore
      · rw [List.mem_singleton.mp hx]
        exact hbefore
    · rcases List.mem_append.mp hf with hf | hf
      · obtain ⟨g, hg, hfg⟩ := h.covers f hf
        exact ⟨g, List.mem_append_left _ hg, hfg⟩
      · exact ⟨file, by simp, by rw [List.mem_singleton.mp hf]; exact isSubset_refl _⟩
  · -- the new file holds the last one kept and takes its place
    have hholds : cur.isSubset file := by simpa using hnot
    have hpre : (filtered ++ [file]).Sublist (seen ++ [file]) :=
      ((List.sublist_append_left filtered [cur]).trans h.sublist).append_right _
    refine ⟨hpre, List.pairwise_append.mpr ⟨(List.pairwise_append.mp h.before).1, by simp,
      fun x hx y hy => ?_⟩, fun f hf => ?_⟩
    · rw [List.mem_singleton.mp hy]
      exact ((List.pairwise_append.mp h.before).2.2 x hx cur (by simp)).of_isSubset hholds hcur
    · rcases List.mem_append.mp hf with hf | hf
      · obtain ⟨g, hg, hfg⟩ := h.covers f hf
        rcases List.mem_append.mp hg with hg | hg
        · exact ⟨g, List.mem_append_left _ hg, hfg⟩
        · rw [List.mem_singleton.mp hg] at hfg
          exact ⟨file, by simp, isSubset_trans hfg hholds⟩
      · exact ⟨file, by simp, by rw [List.mem_singleton.mp hf]; exact isSubset_refl _⟩

lemma FilterInv.foldl {seen : List LogFile} {acc : List LogFile × LogFile} (h : FilterInv seen acc)
    {logs : List LogFile} (hs : (seen ++ logs).Pairwise tagLE) :
    FilterInv (seen ++ logs) (logs.foldl filterStep acc) := by
  induction logs generalizing seen acc with
  | nil => simpa using h
  | cons file logs ih =>
    have hle : ∀ f ∈ seen, tagLE f file :=
      fun f hf => (List.pairwise_append.mp hs).2.2 f hf file List.mem_cons_self
    have hnext := ih (h.step hle) (by simpa using hs)
    simpa using hnext

lemma filterDuplicates_inv {logs : List LogFile} (hs : logs.Pairwise tagLE) :
    (filterDuplicates logs).Sublist logs ∧ (filterDuplicates logs).Pairwise Before ∧
      ∀ f ∈ logs, ∃ g ∈ filterDuplicates logs, f.isSubset g := by
  cases logs with
  | nil => simp [filterDuplicates]
  | cons first logs =>
    have h := @FilterInv.foldl [first] ([], first) (filterInv_single first) logs (by simpa using hs)
    exact ⟨h.sublist, h.before, h.covers⟩

/-- `filterDuplicates` on the files sorted by tag, as `getRestoreSet` calls it, keeps some of
them in order, none holding another, and together holding every one. -/
theorem filterDuplicates_sorted_spec (plogs : List LogFile) :
    let logs := plogs.insertionSort tagLE
    (filterDuplicates logs).Sublist logs ∧
      (filterDuplicates logs).Pairwise (fun a b => a.isSubset b = false ∧ b.isSubset a = false) ∧
      ∀ f ∈ logs, ∃ g ∈ filterDuplicates logs, f.isSubset g := by
  intro logs
  obtain ⟨hsub, hbefore, hcovers⟩ := filterDuplicates_inv (sorted_tagLE plogs)
  refine ⟨hsub, hbefore.imp fun h => ?_, hcovers⟩
  simpa using h.not_isSubset

end FilterDuplicates

section Restore

lemma mem_restoreLogs {plogs : List LogFile} {f : LogFile} (hf : f ∈ restoreLogs plogs) : f ∈ plogs := by
  have h₁ : f ∈ filterDuplicates (plogs.insertionSort tagLE) :=
    (List.perm_insertionSort _ _).subset hf
  have h₂ : f ∈ plogs.insertionSort tagLE := (filterDuplicates_inv (sorted_tagLE plogs)).1.subset h₁
  exact (List.perm_insertionSort _ _).subset h₂

lemma restoreLogs_tag_chain (plogs : List LogFile) (i : ℤ) :
    ((restoreLogs plogs).filter (·.tagId = i)).Pairwise
      fun a b => a.beginVersion < b.beginVersion ∧ a.endVersion < b.endVersion := by
  have hbefore := (filterDuplicates_inv (sorted_tagLE plogs)).2.1
  -- sorting by version keeps any two files comparable by `Before`, one way or the other
  have hperm := List.perm_insertionSort versionLE (filterDuplicates (plogs.insertionSort tagLE))
  have hcomp : (restoreLogs plogs).Pairwise fun a b => Before a b ∨ Before b a :=
    (hperm.pairwise_iff fun h => h.symm).mpr (hbefore.imp .inl)
  have hboth := (sorted_versionLE (filterDuplicates (plogs.insertionSort tagLE))).and hcomp
  refine (hboth.filter _).imp_of_mem fun {a b} ha hb ⟨hle, hab⟩ => ?_
  have hta : a.tagId = i := by simpa using (List.mem_filter.mp ha).2
  have htb : b.tagId = i := by simpa using (List.mem_filter.mp hb).2
  simp only [versionLE, lt, Before] at hle hab
  split_ifs at hle <;> omega

end Restore

end FoundationDB.Backup
