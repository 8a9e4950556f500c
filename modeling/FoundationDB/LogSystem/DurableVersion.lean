import Mathlib.Data.List.GetD
import Mathlib.Data.List.Sort
import FoundationDB.Library.Quorum

/-! Ending an epoch (`TagPartitionedLogSystem::getDurableVersion`). The log servers that
answered the lock report the end of what they hold; sorted by that end, the reply at the
anti-quorum index gives the end of the epoch. A commit is acknowledged once all but the
anti-quorum of the servers hold it, so at most the anti-quorum of the replies end before it,
and the reply at that index does not.

The policy's tests on the servers' localities (`LocalityGroup::validate` and
`validateAllCombinations`) are not modelled: they are arguments, and the results hold for
whatever they answer. `logServers.size()` is the number of lock replies, which the source
asserts. -/

namespace FoundationDB.LogSystem

/-- `TLogLockResult`: the end of what a locked server holds, and the version it knows to be
committed. -/
structure TLogLockResult where
  «end» : ℤ
  knownCommittedVersion : ℤ
deriving DecidableEq, Inhabited

/-- The fields of `LogSet` read here. -/
structure LogSet where
  tLogWriteAntiQuorum : ℕ
  tLogReplicationFactor : ℕ

/-- What the log set's policy answers on sets of its servers, named by index: whether they
complete `tLogPolicy`, and `validateAllCombinations` of a set with the servers that may join
it, in groups of a size. -/
structure PolicyTests where
  validate : List ℕ → Bool
  validateAllCombinations : List ℕ → List ℕ → ℕ → Bool

/-- The lock reply of server `t` that counts: a ready one (`some`), from a server that has not
failed since. -/
def responded (replies : List (Option TLogLockResult)) (failed : List Bool) (t : ℕ) :
    Option TLogLockResult :=
  if failed.isEmpty || !failed.getD t false then replies.getD t none else none

/-- `results`, in the order of the servers. -/
def lockResults (replies : List (Option TLogLockResult)) (failed : List Bool) :
    List TLogLockResult :=
  (List.range replies.length).filterMap (responded replies failed)

def unResponsiveSet (replies : List (Option TLogLockResult)) (failed : List Bool) : List ℕ :=
  (List.range replies.length).filter fun t => (responded replies failed t).isNone

def availableItems (replies : List (Option TLogLockResult)) (failed : List Bool) : List ℕ :=
  (List.range replies.length).filter fun t => (responded replies failed t).isSome

/-- `std::sort(results, sort_by_end())`. -/
def sortByEnd (results : List TLogLockResult) : List TLogLockResult :=
  results.insertionSort fun a b => a.end ≤ b.end

/-- The recovery version at `safe_range_end` is older than the end of the last attempt, or
there was none. -/
def beforeLastEnd (results : List TLogLockResult) (safeRangeEnd : ℤ) : Option ℤ → Bool
  | none => true
  | some lastEnd => decide (0 < safeRangeEnd) && decide (safeRangeEnd - 1 < results.length) &&
      decide ((results.getD (safeRangeEnd - 1).toNat default).end < lastEnd)

def getDurableVersion (logSet : LogSet) (tests : PolicyTests)
    (replies : List (Option TLogLockResult)) (failed : List Bool) (lastEnd : Option ℤ) :
    Option (ℤ × ℤ) :=
  let results := lockResults replies failed
  let unResponsive := unResponsiveSet replies failed
  let antiQuorum := logSet.tLogWriteAntiQuorum
  -- too few replies, or the silent servers complete the policy, alone or with some
  -- anti-quorum of the others
  let bTooManyFailures := decide (results.length ≤ antiQuorum) ||
    (decide (logSet.tLogReplicationFactor ≤ unResponsive.length) && tests.validate unResponsive) ||
    (antiQuorum != 0 &&
      !tests.validateAllCombinations unResponsive (availableItems replies failed) antiQuorum)
  if bTooManyFailures then none
  else
    let results := sortByEnd results
    let absent : ℤ := replies.length - results.length
    let newSafeRangeBegin := min antiQuorum (results.length - 1)
    let safeRangeEnd : ℤ := logSet.tLogReplicationFactor - absent
    if beforeLastEnd results safeRangeEnd lastEnd then
      let knownCommittedVersion := results.foldl (fun v r => max v r.knownCommittedVersion) 0
      let endVersion := (results.getD newSafeRangeBegin default).end
      some (if knownCommittedVersion > endVersion then endVersion else knownCommittedVersion,
        endVersion)
    else none

section Spec

variable {logSet : LogSet} {tests : PolicyTests} {replies : List (Option TLogLockResult)}
  {failed : List Bool} {lastEnd : Option ℤ}

lemma length_sortByEnd (results : List TLogLockResult) :
    (sortByEnd results).length = results.length :=
  List.length_insertionSort _ _

lemma sortByEnd_pairwise (results : List TLogLockResult) :
    (sortByEnd results).Pairwise fun a b => a.end ≤ b.end := by
  have : Std.Total fun a b : TLogLockResult => a.end ≤ b.end := ⟨fun a b => le_total a.end b.end⟩
  have : IsTrans TLogLockResult fun a b => a.end ≤ b.end := ⟨fun _ _ _ => le_trans⟩
  exact List.pairwise_insertionSort _ _

lemma getDurableVersion_eq_some {knownCommitted e : ℤ}
    (h : getDurableVersion logSet tests replies failed lastEnd = some (knownCommitted, e)) :
    logSet.tLogWriteAntiQuorum < (lockResults replies failed).length ∧
      e = ((sortByEnd (lockResults replies failed)).getD logSet.tLogWriteAntiQuorum default).end ∧
      knownCommitted ≤ e := by
  simp only [getDurableVersion, Bool.or_eq_true, decide_eq_true_eq, Bool.and_eq_true,
    bne_iff_ne, ne_eq, Bool.not_eq_true'] at h
  split at h
  · cases h
  rename_i hfail
  have hmore : logSet.tLogWriteAntiQuorum < (lockResults replies failed).length :=
    not_le.mp fun hle => hfail (.inl (.inl hle))
  split at h
  · obtain ⟨rfl, rfl⟩ := Prod.mk.inj (Option.some.inj h)
    rw [length_sortByEnd, min_eq_left (by omega)]
    refine ⟨hmore, rfl, ?_⟩
    split
    · exact le_rfl
    · exact not_lt.mp ‹_›
  · cases h

lemma countP_end_lt_le {v : ℤ} (holders : Finset ℕ)
    (hcard : replies.length - logSet.tLogWriteAntiQuorum ≤ holders.card)
    (hrange : ∀ t ∈ holders, t < replies.length)
    (hend : ∀ t ∈ holders, ∀ r, replies[t]? = some (some r) → v ≤ r.end) :
    (lockResults replies failed).countP (fun r => r.end < v) ≤ logSet.tLogWriteAntiQuorum := by
  -- a reply ending before `v` comes from a server outside `holders`
  have hout : ∀ t ∈ List.range replies.length,
      ((responded replies failed t).map fun r => decide (r.end < v)).getD false →
        decide (t ∉ holders) := by
    intro t ht hlt
    cases hr : responded replies failed t with
    | none => simp [hr] at hlt
    | some r =>
      simp only [hr, Option.map_some, Option.getD_some, decide_eq_true_eq] at hlt
      have hget : replies[t]? = some (some r) := by
        have hlen : t < replies.length := List.mem_range.mp ht
        simp only [responded] at hr
        split at hr
        · rw [List.getD_eq_getElem _ _ hlen] at hr
          rw [List.getElem?_eq_getElem hlen, hr]
        · cases hr
      simpa using fun hmem => absurd (hend t hmem r hget) (not_le.mpr hlt)
  calc (lockResults replies failed).countP (fun r => r.end < v)
      = (List.range replies.length).countP
          (fun t => ((responded replies failed t).map fun r => decide (r.end < v)).getD false) :=
        List.countP_filterMap
    _ ≤ (List.range replies.length).countP (fun t => t ∉ holders) := List.countP_mono_left hout
    _ = replies.length - holders.card := Quorum.countP_range_not_mem hrange
    _ ≤ logSet.tLogWriteAntiQuorum := by omega

theorem getDurableVersion_covers_pushed (v : ℤ) (holders : Finset ℕ)
    (hcard : replies.length - logSet.tLogWriteAntiQuorum ≤ holders.card)
    (hrange : ∀ t ∈ holders, t < replies.length)
    (hend : ∀ t ∈ holders, ∀ r, replies[t]? = some (some r) → v ≤ r.end)
    {knownCommitted e : ℤ}
    (h : getDurableVersion logSet tests replies failed lastEnd = some (knownCommitted, e)) :
    v ≤ e ∧ knownCommitted ≤ e ∧
      logSet.tLogWriteAntiQuorum < (lockResults replies failed).length := by
  obtain ⟨hmore, rfl, hknown⟩ := getDurableVersion_eq_some h
  have hcount : (lockResults replies failed).countP (fun r => r.end < v) ≤
      logSet.tLogWriteAntiQuorum := countP_end_lt_le holders hcard hrange hend
  have hsorted := sortByEnd_pairwise (lockResults replies failed)
  have hlen : logSet.tLogWriteAntiQuorum < (sortByEnd (lockResults replies failed)).length := by
    rwa [length_sortByEnd]
  have hperm : (sortByEnd (lockResults replies failed)).Perm (lockResults replies failed) :=
    List.perm_insertionSort _ _
  rw [← hperm.countP_eq] at hcount
  refine ⟨?_, hknown, hmore⟩
  rw [List.getD_eq_getElem _ _ hlen]
  exact hsorted.le_getElem_of_countP_le hlen hcount

/-- Three servers, one of which may miss a commit: `5` is held by the first two, and the epoch
ends at `5`. -/
theorem getDurableVersion_covers_pushed_three :
    (5 : ℤ) ≤ 5 ∧ (4 : ℤ) ≤ 5 ∧
      1 < (lockResults [some ⟨5, 3⟩, some ⟨7, 4⟩, some ⟨4, 2⟩] []).length :=
  @getDurableVersion_covers_pushed ⟨1, 2⟩ ⟨fun _ => false, fun _ _ _ => true⟩
    [some ⟨5, 3⟩, some ⟨7, 4⟩, some ⟨4, 2⟩] [] none 5 {0, 1} (by decide) (by decide)
    (by
      intro t ht r hr
      simp only [Finset.mem_insert, Finset.mem_singleton] at ht
      rcases ht with rfl | rfl <;> simp only [List.getElem?_cons_zero, List.getElem?_cons_succ,
        Option.some.injEq] at hr <;> subst hr <;> decide)
    4 5 (by decide)

end Spec

end FoundationDB.LogSystem
