import FoundationDB.RYW.Segments
import FoundationDB.Library.Simulation

/-! `WriteMap::mutate` against the reference. Whichever of its four branches it takes, it
computes the stack the reference gives the key and leaves at the key one entry with that
stack, the key's new conflict and unreadable flags, and the flags of the range the key
lay in; every other key keeps its state. -/

namespace FoundationDB.RYW

open FoundationDB.WriteMap (RYWMutation CoalesceError coalesceOver push poppush coalesce)

section Stacks

variable {valueSizeLimit : ℕ}

lemma push_ne_nil (stack : List RYWMutation) (entry : RYWMutation) : push stack entry ≠ [] := by
  simp [push]

lemma coalesceOver_ne_nil {stack stack' : List RYWMutation} {entry : RYWMutation}
    (hs : stack ≠ []) (h : coalesceOver valueSizeLimit stack entry = .ok stack') : stack' ≠ [] := by
  -- either the entry is pushed, or the top is replaced by what it coalesces to
  have hpop (c : RYWMutation) : poppush stack c ≠ [] := by
    cases stack with
    | nil => exact absurd rfl hs
    | cons a as => simp [poppush]
  unfold coalesceOver at h
  dsimp only at h
  split_ifs at h
  · cases h
    exact push_ne_nil _ _
  · cases hc : coalesce valueSizeLimit (FoundationDB.WriteMap.top stack) entry with
    | error e => rw [hc] at h; cases h
    | ok c => rw [hc] at h; cases h; exact hpop c
  · cases h
    exact push_ne_nil _ _
  · cases hc : coalesce valueSizeLimit (FoundationDB.WriteMap.top stack) entry with
    | error e => rw [hc] at h; cases h
    | ok c => rw [hc] at h; cases h; exact hpop c

lemma KeyState.mutatedStack_ne_nil {s : KeyState} {operation : MutationType} {param : Value}
    {stack : List RYWMutation} (h : s.mutatedStack valueSizeLimit operation param = .ok stack) :
    stack ≠ [] := by
  unfold KeyState.mutatedStack at h
  split_ifs at h with h1 h2 h3 h4 h5
  · cases h
    exact push_ne_nil _ _
  · cases h
    exact push_ne_nil _ _
  · cases h
    simp
  · exact coalesceOver_ne_nil (by simp) h
  · simp only [Bool.and_eq_true, decide_eq_true_eq] at h5
    exact coalesceOver_ne_nil h5.2 h
  · cases h
    exact push_ne_nil _ _

end Stacks

/-- The tree with an operation entry for the key in state `s`, replacing the key's entry if
it had one: the entry keeps the flags of the range the key lies in. -/
def setOp (t : List WriteMapEntry) (key : Key) (s : KeyState) : List WriteMapEntry :=
  let e := (Iterator.skip t key).entry
  PTreeImpl.insert (PTreeImpl.remove t key) ⟨key, s.stack, e.followingKeysCleared,
    e.followingKeysConflict, s.conflict, e.followingKeysUnreadable, s.unreadable⟩

section SetOp

variable {t : List WriteMapEntry} {key : Key} {s : KeyState}

lemma mem_setOp (hwf : Wf t) {y : WriteMapEntry} :
    y ∈ setOp t key s ↔ (y.key = key ∧ y = ⟨key, s.stack, (Iterator.skip t key).entry.followingKeysCleared,
      (Iterator.skip t key).entry.followingKeysConflict, s.conflict,
      (Iterator.skip t key).entry.followingKeysUnreadable, s.unreadable⟩) ∨ (y ∈ t ∧ y.key ≠ key) := by
  simp only [setOp, PTreeImpl.insert, PTreeImpl.remove, Keyed.mem_insert, hwf.sorted.mem_eraseKey]
  constructor
  · rintro (rfl | h)
    · exact .inl ⟨rfl, rfl⟩
    · exact .inr h
  · rintro (⟨-, rfl⟩ | h)
    · exact .inl rfl
    · exact .inr h

lemma view_setOp (hwf : Wf t) (hkey : key < allKeysEnd) (hstack : s.stack ≠ [])
    (hcleared : s.cleared = false) (k : Key) :
    view (setOp t key s) k = if k = key then s else view t k := by
  obtain ⟨hv, hk⟩ := Iterator.skip_valid hwf (hkey.trans allKeysEnd_lt_afterAllKeys)
  set e := (Iterator.skip t key).entry with he
  have hlast : Keyed.lastLE WriteMapEntry.key t key = some e := hv.lastLE hk hwf.sorted
  have hupsert := hwf.sorted.lastLE_insert_eraseKey
    ⟨key, s.stack, e.followingKeysCleared, e.followingKeysConflict, s.conflict,
      e.followingKeysUnreadable, s.unreadable⟩ k
  simp only [setOp, PTreeImpl.insert, PTreeImpl.remove] at hupsert ⊢
  rw [← he, view, hupsert]
  split_ifs with hcond hkk hkk
  · -- the key itself: its new entry is an operation in state `s`
    subst hkk
    simp only [Option.map_some, Option.getD_some, WriteMapEntry.keyState, true_and, ne_eq,
      hstack, not_false_eq_true, ↓reduceIte]
    cases s
    simp_all
  · -- a later key in the range the key lay in: the new entry carries that range's flags
    have hlt : key < k := lt_of_le_of_ne hcond.1 (Ne.symm hkk)
    obtain ⟨y, hy⟩ := hwf.exists_lastLE k
    have hye : y = e := by
      have hyk := (hwf.sorted.lastLE_eq_some_iff.mp hy)
      have hykey : y.key ≤ key := hcond.2 y hy
      have : Keyed.lastLE WriteMapEntry.key t key = some y :=
        hwf.sorted.lastLE_eq_of hyk.1 hykey fun z hz hzk => hyk.2.2 z hz (hzk.trans hlt.le)
      rw [hlast] at this
      exact (Option.some.inj this).symm
    have hek : e.key ≠ k := by
      have hekey : e.key ≤ key := (hwf.sorted.lastLE_eq_some_iff.mp hlast).2.1
      exact (hekey.trans_lt hlt).ne
    rw [view_of_lastLE hy, hye]
    simp [WriteMapEntry.keyState, Ne.symm hkk, hek]
  · subst hkk
    exact absurd ⟨le_rfl, fun y hy => (hwf.sorted.lastLE_eq_some_iff.mp hy).2.1⟩ hcond
  · rfl

lemma wf_setOp (hwf : Wf t) (hkey : key < allKeysEnd)
    (hconflict : (Iterator.skip t key).entry.followingKeysConflict = true → s.conflict = true) :
    Wf (setOp t key s) where
  sorted := (hwf.sorted.eraseKey key).insert fun y hy => (hwf.sorted.mem_eraseKey.mp hy).2
  begin_mem := by
    obtain ⟨b, hb, hbkey⟩ := hwf.begin_mem
    by_cases hbk : b.key = key
    · exact ⟨_, (mem_setOp hwf).mpr (.inl ⟨rfl, rfl⟩), hbk ▸ hbkey⟩
    · exact ⟨b, (mem_setOp hwf).mpr (.inr ⟨hb, hbk⟩), hbkey⟩
  end_mem := (mem_setOp hwf).mpr (.inr ⟨hwf.end_mem, hkey.ne'⟩)
  after_mem := (mem_setOp hwf).mpr
    (.inr ⟨hwf.after_mem, (hkey.trans allKeysEnd_lt_afterAllKeys).ne'⟩)
  le_after := by
    intro y hy
    rcases (mem_setOp hwf).mp hy with ⟨hyk, -⟩ | ⟨hy, -⟩
    · exact hyk ▸ (hkey.trans allKeysEnd_lt_afterAllKeys).le
    · exact hwf.le_after y hy
  conflict := by
    intro y hy hyc
    rcases (mem_setOp hwf).mp hy with ⟨-, rfl⟩ | ⟨hy, -⟩
    · exact hconflict hyc
    · exact hwf.conflict y hy hyc

end SetOp

section MutateSpec

variable {valueSizeLimit : ℕ} {m : WriteMap} {key : Key} {operation : MutationType}
  {param : Value} {addConflict : Bool}

/-- `mutate` gives the key the stack the reference computes from the key's state, and
leaves that state's new flags at the key's entry. -/
theorem mutate_eq (hwf : Wf m.writes) (hkey : key < allKeysEnd) :
    m.mutate valueSizeLimit key operation param addConflict =
      ((view m.writes key).mutatedStack valueSizeLimit operation param).map fun stack =>
        ⟨setOp m.writes key ⟨stack, false, (view m.writes key).conflict || addConflict,
          (view m.writes key).unreadable || isVersionstamp operation⟩⟩ := by
  obtain ⟨hv, hk⟩ := Iterator.skip_valid hwf (hkey.trans allKeysEnd_lt_afterAllKeys)
  have hview : view m.writes key = (Iterator.skip m.writes key).keyState :=
    hv.view_eq hk hwf.sorted
  have hoff := hv.offset_eq hk
  set it := Iterator.skip m.writes key with hit
  rw [hview]
  by_cases hne : it.entry.key = key
  · -- an entry at the key: it is replaced, and its stack is the key's
    by_cases hst : it.entry.stack = []
    · have hoffT : it.offset = true := by simp [hoff, hst]
      simp only [WriteMap.mutate, ← hit, ne_eq, hne, not_true_eq_false, ↓reduceIte, setOp,
        Iterator.keyState, Iterator.isOperation, Iterator.isClearedRange, Iterator.isConflictRange,
        Iterator.isUnreadable, hoffT, hst, KeyState.mutatedStack, isVersionstamp, Bool.true_and,
        Bool.not_true, Bool.false_eq_true, Except.bind_pure_eq_map]
      -- an entry with no operation: the key is in the range after it
      by_cases hvs : operation = .setVersionstampedValue ∨ operation = .setVersionstampedKey
      · rcases hvs with rfl | rfl <;> simp [push, Bool.or_comm]
      · obtain ⟨hsv, hsk⟩ := not_or.mp hvs
        have hsv' : (operation == .setVersionstampedValue) = false := by simpa using hsv
        have hsk' : (operation == .setVersionstampedKey) = false := by simpa using hsk
        by_cases hset : operation = .setValue
        · subst hset
          by_cases hun : it.entry.followingKeysUnreadable = true <;> simp [hun, push, Bool.or_comm]
        · by_cases hcl : it.entry.followingKeysCleared = true
          · simp [hcl, hset, hsv, hsk, hsv', hsk', push, Bool.or_comm]
          · simp [hcl, hset, hsv, hsk, hsv', hsk', push, Bool.or_comm]
    · have hoffF : it.offset = false := by simp [hoff, hst, hne]
      simp only [WriteMap.mutate, ← hit, ne_eq, hne, not_true_eq_false, ↓reduceIte, setOp,
        Iterator.keyState, Iterator.isOperation, Iterator.isClearedRange, Iterator.isConflictRange,
        Iterator.isUnreadable, Iterator.op, hoffF, hst, KeyState.mutatedStack, isVersionstamp,
        Bool.true_and,
        Bool.not_true, Bool.false_eq_true, Except.bind_pure_eq_map]
      -- an operation at the key: the new one is coalesced into it or pushed on it
      have hlen : it.entry.stack.length ≠ 0 := by simpa using hst
      by_cases hvs : operation = .setVersionstampedValue ∨ operation = .setVersionstampedKey
      · rcases hvs with rfl | rfl <;> simp [hlen, Bool.or_comm]
      · obtain ⟨hsv, hsk⟩ := not_or.mp hvs
        have hsv' : (operation == .setVersionstampedValue) = false := by simpa using hsv
        have hsk' : (operation == .setVersionstampedKey) = false := by simpa using hsk
        by_cases hset : operation = .setValue
        · subst hset
          by_cases hun : it.entry.isUnreadable = true <;> simp [hun, hlen, Bool.or_comm]
        · by_cases hun : it.entry.isUnreadable = true
          · simp [hun, hset, hsv, hsk, hsv', hsk', hlen, Bool.or_comm]
          · simp [hun, hset, hsv, hsk, hsv', hsk', hlen, hst, List.length_pos_iff, Bool.or_comm]
  · -- no entry at the key: it lies in the range after `entry()`
    have hoffT : it.offset = true := by simp [hoff, hne]
    have hrem : PTreeImpl.remove m.writes key = m.writes := by
      apply Keyed.eraseKey_of_forall_ne
      intro y hy hyk
      have hle := (hwf.sorted.lastLE_eq_some_iff.mp (hv.lastLE hk hwf.sorted)).2
      exact hne (le_antisymm hle.1 (hyk ▸ hle.2 y hy hyk.le))
    simp only [WriteMap.mutate, ← hit, ne_eq, hne, not_false_eq_true, ↓reduceIte, setOp, hrem,
      Iterator.keyState, Iterator.isOperation, Iterator.isClearedRange, Iterator.isConflictRange,
      Iterator.isUnreadable, hoffT, KeyState.mutatedStack, isVersionstamp, Bool.true_and,
      Bool.not_true, Bool.false_eq_true, ↓reduceIte, Except.bind_pure_eq_map]
    -- the branch the code takes is the one the reference takes for a key in a range
    by_cases hvs : operation = .setVersionstampedValue ∨ operation = .setVersionstampedKey
    · rcases hvs with rfl | rfl <;> simp [push, Bool.or_comm]
    · obtain ⟨hsv, hsk⟩ := not_or.mp hvs
      have hsv' : (operation == .setVersionstampedValue) = false := by simpa using hsv
      have hsk' : (operation == .setVersionstampedKey) = false := by simpa using hsk
      by_cases hset : operation = .setValue
      · subst hset
        by_cases hun : it.entry.followingKeysUnreadable = true <;> simp [hun, push, Bool.or_comm]
      · by_cases hcl : it.entry.followingKeysCleared = true
        · simp [hcl, hset, hsv, hsk, hsv', hsk', Bool.or_comm]
        · simp [hcl, hset, hsv, hsk, hsv', hsk', push, Bool.or_comm]

theorem mutate_refines {r : RefMap} (h : Refines m r) (hkey : key < allKeysEnd) :
    Except.Rel Refines (m.mutate valueSizeLimit key operation param addConflict)
      (r.mutate valueSizeLimit key operation param addConflict) := by
  obtain ⟨hv, hk⟩ := Iterator.skip_valid h.wf (hkey.trans allKeysEnd_lt_afterAllKeys)
  have hview : view m.writes key = (Iterator.skip m.writes key).keyState :=
    hv.view_eq hk h.wf.sorted
  rw [mutate_eq h.wf hkey, RefMap.mutate, KeyState.mutate, Except.map_map_eq, ← h.view_eq key hkey]
  apply Except.Rel.map_map
  intro stack hstack
  refine ⟨wf_setOp h.wf hkey fun hc => ?_, fun k hk' => ?_⟩
  · -- the range's conflict flag was the key's, so the key stays conflicting
    have hconf := hv.isConflictRange_of_followingKeysConflict h.wf hc
    simp [hview, Iterator.keyState, hconf]
  · rw [view_setOp h.wf hkey (KeyState.mutatedStack_ne_nil hstack) rfl, Function.comp_apply]
    by_cases hkk : k = key
    · subst hkk
      simp
    · simp [hkk, h.view_eq k hk']

end MutateSpec

end FoundationDB.RYW
