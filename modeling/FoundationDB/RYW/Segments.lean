import FoundationDB.RYW.Reference
import FoundationDB.Library.LexSucc

/-! The segments of a well-formed write map. A key's state is what the last entry at or
before it says (`view`); a well-formed tree is sorted, starts at `allKeys.begin`, ends with
the entries of `allKeys.end` and `afterAllKeys`, and has no entry whose range after it is
conflicting while its own key is not. On such a tree every iterator that stands on a
segment reports the state of each key in it, `skip` lands on the segment of its key, and
`++` moves to the segment that begins where the last one ended. -/

namespace FoundationDB.RYW

open FoundationDB.WriteMap (RYWMutation)

section Keys

lemma lt_keyAfter_iff {a k : Key} : k < keyAfter a ↔ k ≤ a :=
  List.lt_append_bot_iff

lemma keyAfter_le_iff {a k : Key} : keyAfter a ≤ k ↔ a < k :=
  List.append_bot_le_iff

lemma lt_keyAfter (a : Key) : a < keyAfter a :=
  List.lt_append_bot a

@[simp] lemma extStringRef_zero (base : Key) : extStringRef base 0 = base := by
  simp [extStringRef]

@[simp] lemma extStringRef_one (base : Key) : extStringRef base 1 = keyAfter base := rfl

lemma allKeysBegin_le (k : Key) : allKeysBegin ≤ k :=
  not_lt.mp (List.not_lt_nil k)

lemma keyAfter_allKeysEnd : keyAfter allKeysEnd = afterAllKeys := rfl

lemma allKeysEnd_lt_afterAllKeys : allKeysEnd < afterAllKeys :=
  lt_keyAfter allKeysEnd

lemma equalsKeyAfter_iff {key compareKey : Key} :
    equalsKeyAfter key compareKey = true ↔ compareKey = keyAfter key := by
  constructor
  · intro h
    simp only [equalsKeyAfter, ne_eq] at h
    split_ifs at h with hcond
    simp only [not_or, not_not] at hcond
    obtain ⟨hlen, hlast⟩ := hcond
    have htake : compareKey.take key.length = key := by simpa using h
    -- what is left after the key is one byte, and it is the last one
    obtain ⟨x, hx⟩ : ∃ x, compareKey.drop key.length = [x] := by
      apply List.length_eq_one_iff.mp
      rw [List.length_drop, ← hlen]
      omega
    have hsplit : compareKey = key ++ [x] := by
      rw [← List.take_append_drop key.length compareKey, htake, hx]
    rw [hsplit, List.getLast?_append, List.getLast?_singleton] at hlast
    simp only [Option.some_or, Option.some.injEq] at hlast
    rw [hsplit, hlast, keyAfter]
  · rintro rfl
    simp [equalsKeyAfter, keyAfter]

end Keys

def endEntry : WriteMapEntry := ⟨allKeysEnd, [], false, false, false, false, false⟩

def afterEntry : WriteMapEntry := ⟨afterAllKeys, [], false, false, false, false, false⟩

/-- What an entry says about a key at or after its own, up to the next entry. -/
def WriteMapEntry.keyState (e : WriteMapEntry) (k : Key) : KeyState :=
  if e.key = k ∧ e.stack ≠ [] then ⟨e.stack, false, e.isConflict, e.isUnreadable⟩
  else ⟨[], e.followingKeysCleared, e.followingKeysConflict, e.followingKeysUnreadable⟩

/-- The state of a key in a tree: what the last entry at or before it says. -/
def view (writes : List WriteMapEntry) (k : Key) : KeyState :=
  ((Keyed.lastLE WriteMapEntry.key writes k).map (·.keyState k)).getD .unmodified

/-- What an iterator reports for the keys of its segment. -/
def Iterator.keyState (it : Iterator) : KeyState :=
  ⟨if it.isOperation then it.op else [], it.isClearedRange, it.isConflictRange, it.isUnreadable⟩

structure Wf (writes : List WriteMapEntry) : Prop where
  sorted : Keyed.Sorted WriteMapEntry.key writes
  begin_mem : ∃ e ∈ writes, e.key = allKeysBegin
  end_mem : endEntry ∈ writes
  after_mem : afterEntry ∈ writes
  le_after : ∀ e ∈ writes, e.key ≤ afterAllKeys
  conflict : ∀ e ∈ writes, e.followingKeysConflict = true → e.isConflict = true

lemma wf_empty : Wf WriteMap.empty.writes where
  sorted := by decide
  begin_mem := ⟨_, List.mem_cons_self, rfl⟩
  end_mem := by decide
  after_mem := by decide
  le_after := by decide
  conflict := by decide

section Tree

variable {t : List WriteMapEntry}

/-- An entry and the next one: no entry lies strictly between them. -/
structure Adjacent (t : List WriteMapEntry) (e f : WriteMapEntry) : Prop where
  left_mem : e ∈ t
  right_mem : f ∈ t
  key_lt : e.key < f.key
  between : ∀ y ∈ t, y.key ≤ e.key ∨ f.key ≤ y.key

lemma Adjacent.of_sorted (hs : Keyed.Sorted WriteMapEntry.key t) {i : ℕ} (hi : i + 1 < t.length) :
    Adjacent t t[i] t[i + 1] where
  left_mem := List.getElem_mem _
  right_mem := List.getElem_mem _
  key_lt := hs.key_lt_of_lt _ _ (Nat.lt_succ_self i)
  between := by
    intro y hy
    obtain ⟨j, hj, rfl⟩ := List.getElem_of_mem hy
    rcases le_or_gt j i with hji | hij
    · exact .inl (hs.key_le_of_le hj _ hji)
    · exact .inr (hs.key_le_of_le _ hj hij)

lemma Adjacent.lastLE (h : Adjacent t e f) (hs : Keyed.Sorted WriteMapEntry.key t) {k : Key}
    (hek : e.key ≤ k) (hkf : k < f.key) : Keyed.lastLE WriteMapEntry.key t k = some e := by
  refine hs.lastLE_eq_of h.left_mem hek fun y hy hyk => ?_
  rcases h.between y hy with hle | hle
  · exact hle
  · exact absurd (hyk.trans_lt hkf) (not_lt.mpr hle)

lemma view_of_lastLE {k : Key} {e : WriteMapEntry}
    (h : Keyed.lastLE WriteMapEntry.key t k = some e) : view t k = e.keyState k := by
  simp [view, h]

namespace Wf

variable (hwf : Wf t)
include hwf

lemma length_pos : 0 < t.length :=
  List.length_pos_of_mem hwf.after_mem

lemma getElem_last {i : ℕ} (hi : i + 1 = t.length) : t[i] = afterEntry := by
  obtain ⟨j, hj, hjeq⟩ := List.getElem_of_mem hwf.after_mem
  have hle : t[i].key ≤ afterAllKeys := hwf.le_after _ (List.getElem_mem _)
  have hge : t[j].key ≤ t[i].key := hwf.sorted.key_le_of_le hj _ (by omega)
  have hkey : t[i].key = t[j].key := by
    rw [hjeq] at hge ⊢
    exact le_antisymm hle hge
  obtain rfl : i = j := hwf.sorted.index_eq_of_key_eq _ hj hkey
  exact hjeq

lemma key_lt_afterAllKeys {i : ℕ} (hi : i + 1 < t.length) : t[i].key < afterAllKeys := by
  have hlt : t[i].key < t[t.length - 1].key := hwf.sorted.key_lt_of_lt _ _ (by omega)
  rwa [hwf.getElem_last (i := t.length - 1) (by omega)] at hlt

lemma key_le_allKeysEnd {i : ℕ} (hi : i + 1 < t.length) : t[i].key ≤ allKeysEnd :=
  lt_keyAfter_iff.mp (hwf.key_lt_afterAllKeys hi)

lemma exists_lastLE (k : Key) : ∃ e, Keyed.lastLE WriteMapEntry.key t k = some e := by
  obtain ⟨b, hb, hbkey⟩ := hwf.begin_mem
  cases h : Keyed.lastLE WriteMapEntry.key t k with
  | none =>
    have hlt := Keyed.lastLE_eq_none_iff.mp h b hb
    rw [hbkey] at hlt
    exact absurd hlt (not_lt.mpr (allKeysBegin_le k))
  | some e => exact ⟨e, rfl⟩

lemma getElem_zero_key (h : 0 < t.length) : t[0].key = allKeysBegin := by
  obtain ⟨e, he, hkey⟩ := hwf.begin_mem
  obtain ⟨j, hj, rfl⟩ := List.getElem_of_mem he
  exact le_antisymm (hkey ▸ hwf.sorted.key_le_of_le _ hj (Nat.zero_le j)) (allKeysBegin_le _)

end Wf

end Tree

namespace Iterator

variable {it : Iterator}

/-- The iterator stands on a segment: its entry is not the last one, it is on an operation
only where there is one, and a range after an operation holds at least one key. -/
structure Valid (it : Iterator) : Prop where
  lt_length : it.beginIdx + 1 < it.tree.length
  stack_ne_nil : it.offset = false → it.entry.stack ≠ []
  keyAfter_lt : it.offset = true → it.entry.stack ≠ [] → keyAfter it.entry.key < it.nextEntry.key

def Contains (it : Iterator) (k : Key) : Prop := it.beginKey ≤ k ∧ k < it.endKey

lemma entry_eq (h : it.beginIdx < it.tree.length) : it.entry = it.tree[it.beginIdx] := by
  simp [entry, List.getD_eq_getElem?_getD, List.getElem?_eq_getElem h]

lemma nextEntry_eq (h : it.beginIdx + 1 < it.tree.length) :
    it.nextEntry = it.tree[it.beginIdx + 1] := by
  simp [nextEntry, List.getD_eq_getElem?_getD, List.getElem?_eq_getElem h]

lemma beginKey_of_not_offset (h : it.offset = false) : it.beginKey = it.entry.key := by
  simp [beginKey, h]

lemma beginKey_of_offset (h : it.offset = true) :
    it.beginKey = if it.entry.stack = [] then it.entry.key else keyAfter it.entry.key := by
  by_cases hs : it.entry.stack = [] <;> simp [beginKey, h, hs]

lemma endKey_of_not_offset (h : it.offset = false) : it.endKey = keyAfter it.entry.key := by
  simp [endKey, h]

lemma endKey_of_offset (h : it.offset = true) : it.endKey = it.nextEntry.key := by
  simp [endKey, h]

lemma entry_key_le_beginKey : it.entry.key ≤ it.beginKey := by
  unfold beginKey
  split_ifs
  · exact (lt_keyAfter _).le
  · simp

lemma Valid.adjacent (hv : it.Valid) (hs : Keyed.Sorted WriteMapEntry.key it.tree) :
    Adjacent it.tree it.entry it.nextEntry := by
  rw [entry_eq (by have := hv.lt_length; omega), nextEntry_eq hv.lt_length]
  exact Adjacent.of_sorted hs hv.lt_length

section Contains

variable (hv : it.Valid) {k : Key} (hk : it.Contains k)
include hv hk

lemma Valid.lastLE (hs : Keyed.Sorted WriteMapEntry.key it.tree) :
    Keyed.lastLE WriteMapEntry.key it.tree k = some it.entry := by
  have hend : k < it.nextEntry.key := by
    have he := hk.2
    cases ho : it.offset
    · have hlt := (hv.adjacent hs).key_lt
      rw [endKey_of_not_offset ho] at he
      exact he.trans_le (keyAfter_le_iff.mpr hlt)
    · exact endKey_of_offset ho ▸ he
  exact (hv.adjacent hs).lastLE hs (entry_key_le_beginKey.trans hk.1) hend

lemma Valid.offset_eq : it.offset = (decide (it.entry.stack = []) || decide (it.entry.key ≠ k)) := by
  cases ho : it.offset
  · have hstack := hv.stack_ne_nil ho
    have hkey : it.entry.key = k := by
      have hb := hk.1
      have he := hk.2
      rw [beginKey_of_not_offset ho] at hb
      rw [endKey_of_not_offset ho] at he
      exact le_antisymm hb (lt_keyAfter_iff.mp he)
    simp [hstack, hkey]
  · by_cases hstack : it.entry.stack = []
    · simp [hstack]
    · -- after an operation the range starts past the operation's key
      have hb := hk.1
      rw [beginKey_of_offset ho, if_neg hstack] at hb
      have hlt : it.entry.key < k := keyAfter_le_iff.mp hb
      simp [hlt.ne]

lemma Valid.view_eq (hs : Keyed.Sorted WriteMapEntry.key it.tree) : view it.tree k = it.keyState := by
  rw [view_of_lastLE (hv.lastLE hk hs)]
  have ho := hv.offset_eq hk
  by_cases hop : it.entry.key = k ∧ it.entry.stack ≠ []
  · have hoff : it.offset = false := by simp [ho, hop.1, hop.2]
    simp [WriteMapEntry.keyState, hop, keyState, isOperation, op, isClearedRange,
      isConflictRange, isUnreadable, hoff]
  · have hoff : it.offset = true := by
      rw [ho]
      by_cases hstack : it.entry.stack = [] <;> simp_all
    simp [WriteMapEntry.keyState, hop, keyState, isOperation, isClearedRange,
      isConflictRange, isUnreadable, hoff]

end Contains

lemma Valid.eq_of_contains {it' : Iterator} (hs : Keyed.Sorted WriteMapEntry.key it.tree)
    (hv : it.Valid) (hv' : it'.Valid) (htree : it'.tree = it.tree) {k : Key} (hk : it.Contains k)
    (hk' : it'.Contains k) : it' = it := by
  have hs' : Keyed.Sorted WriteMapEntry.key it'.tree := htree ▸ hs
  have hentry : it'.entry = it.entry := by
    have h1 := hv.lastLE hk hs
    have h2 := hv'.lastLE hk' hs'
    rw [htree, h1] at h2
    exact (Option.some.inj h2).symm
  have hidx : it'.beginIdx = it.beginIdx := by
    have hlt : it.beginIdx < it.tree.length := by have := hv.lt_length; omega
    have hlt' : it'.beginIdx < it.tree.length := by have := hv'.lt_length; rw [htree] at this; omega
    have h1 : it.entry = it.tree[it.beginIdx] := entry_eq hlt
    have h2 : it'.entry = it.tree[it'.beginIdx] := by
      rw [entry_eq (by rw [htree]; exact hlt')]
      simp only [htree]
    have hkey : it.tree[it'.beginIdx].key = it.tree[it.beginIdx].key := by
      rw [← h1, ← h2, hentry]
    exact hs.index_eq_of_key_eq hlt' hlt hkey
  have hoff : it'.offset = it.offset := by
    rw [hv'.offset_eq hk', hv.offset_eq hk, hentry]
  cases it
  cases it'
  simp_all

lemma skip_tree (t : List WriteMapEntry) (k : Key) : (skip t k).tree = t := rfl

lemma skip_beginIdx {t : List WriteMapEntry} (hwf : Wf t) {k : Key} (hk : k < afterAllKeys) :
    ∃ i, ∃ hi : i + 1 < t.length, (skip t k).beginIdx = i ∧ t[i].key ≤ k ∧ k < t[i + 1].key := by
  have hpos := hwf.length_pos
  -- the entries at or before `k` are the first `c`, the first at `allKeys.begin`, and not
  -- the last, at `afterAllKeys`
  set c := (t.takeWhile fun e => e.key ≤ k).length with hc
  have hmem (j : ℕ) (hj : j < t.length) : t[j].key ≤ k ↔ j < c :=
    hwf.sorted.key_le_iff_lt_length_takeWhile hj
  have hfirst : 0 < c := (hmem 0 hpos).mp (by rw [hwf.getElem_zero_key hpos]; exact allKeysBegin_le k)
  have hlast : c ≤ t.length - 1 := by
    have hnot : ¬ t[t.length - 1].key ≤ k := by
      rw [hwf.getElem_last (by omega)]
      exact not_le.mpr hk
    rw [hmem _ (by omega)] at hnot
    omega
  have hidx : (skip t k).beginIdx = c - 1 := by
    by_cases hend : k = allKeysEnd
    · -- `allKeys.end` has its own branch, which stops at the same entry
      have hlen : 2 ≤ t.length := by
        obtain ⟨j, hj, hjeq⟩ := List.getElem_of_mem hwf.end_mem
        have hne : j + 1 ≠ t.length := fun h => by
          have := hwf.getElem_last h
          rw [hjeq] at this
          exact absurd (congrArg WriteMapEntry.key this) (by decide)
        omega
      have hc' : c = t.length - 1 := by
        have hin : t[t.length - 2].key ≤ k := hend ▸ hwf.key_le_allKeysEnd (by omega)
        rw [hmem _ (by omega)] at hin
        omega
      simp [skip, hend, hc']
    · simp [skip, hend, hc]
  refine ⟨c - 1, by omega, hidx, (hmem _ (by omega)).mpr (by omega), ?_⟩
  have hout := (hmem (c - 1 + 1) (by omega)).not.mpr (by omega)
  exact not_le.mp hout

lemma skip_valid {t : List WriteMapEntry} (hwf : Wf t) {k : Key} (hk : k < afterAllKeys) :
    (skip t k).Valid ∧ (skip t k).Contains k := by
  obtain ⟨i, hi, hidx, hle, hlt⟩ := skip_beginIdx hwf hk
  have hentry : (skip t k).entry = t[i] := by
    rw [entry_eq (by rw [skip_tree, hidx]; omega)]
    simp only [skip_tree, hidx]
  have hnext : (skip t k).nextEntry = t[i + 1] := by
    rw [nextEntry_eq (by rw [skip_tree, hidx]; omega)]
    simp only [skip_tree, hidx]
  have hoff : (skip t k).offset =
      (decide ((skip t k).entry.stack = []) || decide ((skip t k).entry.key ≠ k)) := by
    simp only [skip, entry, List.length_eq_zero_iff, bne, Bool.beq_eq_decide_eq, ne_eq, decide_not]
  rw [← hentry] at hle
  rw [← hnext] at hlt
  refine ⟨⟨by rw [skip_tree, hidx]; exact hi, fun h => ?_, fun h hstack => ?_⟩, ?_⟩
  · simp_all
  · have hne : (skip t k).entry.key ≠ k := by simp_all
    exact (keyAfter_le_iff.mpr (lt_of_le_of_ne hle hne)).trans_lt hlt
  · cases ho : (skip t k).offset
    · have hkey : (skip t k).entry.key = k := by simp_all
      rw [Contains, beginKey_of_not_offset ho, endKey_of_not_offset ho, hkey]
      exact ⟨le_rfl, lt_keyAfter k⟩
    · refine ⟨?_, endKey_of_offset ho ▸ hlt⟩
      rw [beginKey_of_offset ho]
      split_ifs with hstack
      · exact hle
      · have hne : (skip t k).entry.key ≠ k := by simp_all
        exact keyAfter_le_iff.mpr (lt_of_le_of_ne hle hne)

@[simp] lemma next_tree : it.next.tree = it.tree := by
  unfold next
  split_ifs <;> rfl

lemma next_of_op (ho : it.offset = false) (hne : it.nextEntry.key ≠ keyAfter it.entry.key) :
    it.next = { it with offset := true } := by
  have hflag : equalsKeyAfter it.entry.key it.nextEntry.key = false := by
    rw [← Bool.not_eq_true, equalsKeyAfter_iff]
    exact hne
  simp [next, ho, hflag]

lemma next_of_not_op (h : ¬(it.offset = false ∧ it.nextEntry.key ≠ keyAfter it.entry.key)) :
    it.next = ⟨it.tree, it.beginIdx + 1, decide (it.nextEntry.stack = [])⟩ := by
  have hcond : (!it.offset && !equalsKeyAfter it.entry.key it.nextEntry.key) = false := by
    by_cases ho : it.offset = false
    · have hkey : it.nextEntry.key = keyAfter it.entry.key := by
        by_contra hne
        exact h ⟨ho, hne⟩
      simp [ho, equalsKeyAfter_iff.mpr hkey]
    · simp_all
  simp only [next, hcond, Bool.false_eq_true, ↓reduceIte]
  simp [entry, nextEntry]

lemma Valid.isConflictRange_of_followingKeysConflict (hwf : Wf it.tree) (hv : it.Valid)
    (h : it.entry.followingKeysConflict = true) : it.isConflictRange = true := by
  unfold isConflictRange
  split_ifs
  · exact h
  · exact hwf.conflict _ (hv.adjacent hwf.sorted).left_mem h

lemma Valid.endKey_le (hwf : Wf it.tree) (hv : it.Valid) (hb : it.beginKey < allKeysEnd) :
    it.endKey ≤ allKeysEnd := by
  cases ho : it.offset
  · rw [beginKey_of_not_offset ho] at hb
    rw [endKey_of_not_offset ho]
    exact keyAfter_le_iff.mpr hb
  · rw [endKey_of_offset ho]
    -- the entry of `allKeys.end` is not before the segment, so not before the next entry
    rcases (hv.adjacent hwf.sorted).between endEntry hwf.end_mem with hle | hle
    · exact absurd (hle.trans_lt (entry_key_le_beginKey.trans_lt hb)) (lt_irrefl allKeysEnd)
    · exact hle

lemma Valid.next_valid (hwf : Wf it.tree) (hv : it.Valid) (hend : it.endKey < afterAllKeys) :
    it.next.Valid ∧ it.next.beginKey = it.endKey := by
  have hadj := hv.adjacent hwf.sorted
  by_cases hop : it.offset = false ∧ it.nextEntry.key ≠ keyAfter it.entry.key
  · -- the range after the operation
    have hstack := hv.stack_ne_nil hop.1
    rw [next_of_op hop.1 hop.2]
    refine ⟨⟨hv.lt_length, fun h => by simp at h, fun _ _ => ?_⟩, ?_⟩
    · exact lt_of_le_of_ne (keyAfter_le_iff.mpr hadj.key_lt) (Ne.symm hop.2)
    · have hentry : ({ it with offset := true } : Iterator).entry = it.entry := rfl
      rw [beginKey_of_offset rfl, hentry, if_neg hstack, endKey_of_not_offset hop.1]
  · -- the next entry, which the range or operation ends at
    have hendKey : it.endKey = it.nextEntry.key := by
      cases ho : it.offset
      · rw [endKey_of_not_offset ho]
        by_contra hne
        exact hop ⟨ho, Ne.symm hne⟩
      · exact endKey_of_offset ho
    have hlen : it.beginIdx + 2 < it.tree.length := by
      have hlt := hv.lt_length
      by_contra hge
      have hlast := hwf.getElem_last (i := it.beginIdx + 1) (by omega)
      rw [← nextEntry_eq hlt] at hlast
      rw [hendKey, hlast] at hend
      exact lt_irrefl _ hend
    have hentry : (⟨it.tree, it.beginIdx + 1, decide (it.nextEntry.stack = [])⟩ : Iterator).entry =
        it.nextEntry := rfl
    rw [next_of_not_op hop]
    refine ⟨⟨hlen, fun h => ?_, fun h hne => ?_⟩, ?_⟩
    · rw [hentry]
      simpa using h
    · rw [hentry] at hne
      simp_all
    · rw [hendKey]
      unfold beginKey
      rw [hentry]
      by_cases hstack : it.nextEntry.stack = [] <;> simp [hstack]

lemma iterate_tree (n : ℕ) : (next^[n] it).tree = it.tree := by
  induction n generalizing it with
  | zero => rfl
  | succ n ih => rw [Function.iterate_succ_apply, ih, next_tree]

lemma Valid.iterate (hwf : Wf it.tree) (hv : it.Valid) (hb : it.beginKey ≤ allKeysEnd) :
    ∃ n, (∀ i < n, (next^[i] it).Valid ∧ (next^[i] it).beginKey < allKeysEnd ∧
        (next^[i + 1] it).beginKey = (next^[i] it).endKey) ∧
      (next^[n] it).beginKey = allKeysEnd := by
  -- on the part of the tree left, which `++` lowers
  induction hr : it.remaining using Nat.strong_induction_on generalizing it with
  | _ r ih =>
    rcases hb.lt_or_eq with hlt | heq
    · have hend := hv.endKey_le hwf hlt
      obtain ⟨hv', hb'⟩ := hv.next_valid hwf (hend.trans_lt allKeysEnd_lt_afterAllKeys)
      have hwf' : Wf it.next.tree := by rw [next_tree]; exact hwf
      obtain ⟨n, hsteps, hlast⟩ := ih _ (hr ▸ remaining_next_lt hv.lt_length) hwf' hv'
        (hb' ▸ hend) rfl
      refine ⟨n + 1, fun i hi => ?_, by rwa [Function.iterate_succ_apply]⟩
      cases i with
      | zero => exact ⟨hv, hlt, hb'⟩
      | succ i =>
        simp only [Function.iterate_succ_apply]
        exact hsteps i (by omega)
    · exact ⟨0, fun i hi => absurd hi (Nat.not_lt_zero i), heq⟩

end Iterator

/-- The tree is well formed and gives every key below `allKeys.end` its reference state. -/
structure Refines (m : WriteMap) (r : RefMap) : Prop where
  wf : Wf m.writes
  view_eq : ∀ k < allKeysEnd, view m.writes k = r k

end FoundationDB.RYW
