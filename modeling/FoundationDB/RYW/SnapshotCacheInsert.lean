import FoundationDB.RYW.SnapshotCache
import FoundationDB.RYW.Segments

/-! What the snapshot cache says and how its inserts change it. A well-formed cache (`Wf`) is
a partial view of one snapshot `D`: its entries are sorted, their ranges do not overlap, the
degenerate entries at `allKeys.begin` and `allKeys.end` stay, and every entry below
`allKeys.end` holds exactly the pairs of `D` in its range. On such a cache `skip(key)` reports
a known key as its pair or as empty, as `D` has it, and an unknown key as unknown. Both inserts
keep the cache well formed and add to the known keys exactly the keys they are given. -/

namespace FoundationDB.RYW

namespace SnapshotCache

open Keyed (Sorted)

def Entry.contains (e : Entry) (k : Key) : Prop := e.beginKey ≤ k ∧ k < e.endKey

instance (e : Entry) (k : Key) : Decidable (e.contains k) :=
  inferInstanceAs (Decidable (_ ∧ _))

/-- A key is known when an entry's range holds it. -/
def Known (c : SnapshotCache) (k : Key) : Prop := ∃ e ∈ c.entries, e.contains k

instance (c : SnapshotCache) (k : Key) : Decidable (c.Known k) :=
  inferInstanceAs (Decidable (∃ e ∈ c.entries, e.contains k))

/-- The entry holds exactly the pairs of `D` in its range, in key order. -/
def Entry.Faithful (D : Key → Option Value) (e : Entry) : Prop :=
  Sorted KeyValueRef.key e.values ∧
    ∀ kv, kv ∈ e.values ↔ e.contains kv.key ∧ D kv.key = some kv.value

/-- The entry `SnapshotCache(arena)` puts at `allKeys.end`. -/
def lastEntry : Entry := ⟨allKeysEnd, afterAllKeys, []⟩

/-- A cache that is a partial view of the snapshot `D`. -/
structure Wf (D : Key → Option Value) (c : SnapshotCache) : Prop where
  sorted : Sorted Entry.beginKey c.entries
  disjoint : ∀ e ∈ c.entries, ∀ f ∈ c.entries, e.beginKey < f.beginKey → e.endKey ≤ f.beginKey
  begin_le_end : ∀ e ∈ c.entries, e.beginKey ≤ e.endKey
  first_mem : ∃ e ∈ c.entries, e.beginKey = allKeysBegin
  last_mem : lastEntry ∈ c.entries
  le_last : ∀ e ∈ c.entries, e.beginKey ≤ allKeysEnd
  faithful : ∀ e ∈ c.entries, e.beginKey < allKeysEnd → e.Faithful D

variable {D : Key → Option Value} {c : SnapshotCache}

section Init

lemma init_wf (D : Key → Option Value) : Wf D init where
  sorted := by decide
  disjoint := by decide
  begin_le_end := by decide
  first_mem := ⟨_, List.mem_cons_self, rfl⟩
  last_mem := by decide
  le_last := by decide
  faithful := by
    intro e he hlt
    rcases List.mem_pair.mp he with rfl | rfl
    · exact ⟨List.Pairwise.nil, fun kv => by simp [Entry.contains, allKeysBegin]⟩
    · exact absurd hlt (lt_irrefl _)

lemma init_known (k : Key) : init.Known k ↔ k = allKeysEnd := by
  have hafter : k < afterAllKeys ↔ k ≤ allKeysEnd := @lt_keyAfter_iff allKeysEnd k
  simp only [Known, init, List.mem_cons, List.not_mem_nil, or_false, exists_eq_or_imp,
    exists_eq_left, Entry.contains, allKeysBegin, hafter]
  constructor
  · rintro (⟨-, h⟩ | ⟨h₁, h₂⟩)
    · exact absurd h (List.not_lt_nil k)
    · exact le_antisymm h₂ h₁
  · rintro rfl
    exact .inr ⟨le_rfl, le_rfl⟩

end Init

section Cut

/-! `skip(k)` finds `e`, the last entry whose range begins at or before `k`; the entries
before it end before it begins, and those after it begin after `k` and after it ends. -/

/-- The entries cut around the last one that begins at or before `k`. -/
structure Cut (entries : List Entry) (k : Key) (A : List Entry) (e : Entry) (C : List Entry) :
    Prop where
  eq : entries = A ++ e :: C
  le : e.beginKey ≤ k
  lt_C : ∀ x ∈ C, k < x.beginKey

lemma Wf.cut (hwf : Wf D c) (k : Key) : ∃ A e C, Cut c.entries k A e C := by
  obtain ⟨f, hf, hf0⟩ := hwf.first_mem
  have hfk : f.beginKey ≤ k := hf0 ▸ allKeysBegin_le k
  obtain ⟨A, e, C, h, he, hC⟩ := hwf.sorted.exists_split_le hf hfk
  exact ⟨A, e, C, h, he, hC⟩

namespace Cut

variable {entries A C : List Entry} {e : Entry} {k : Key} (s : Cut entries k A e C)
include s

lemma mem : e ∈ entries := by
  rw [s.eq]
  exact List.mem_append_right _ List.mem_cons_self

lemma mem_iff {y : Entry} : y ∈ entries ↔ y ∈ A ∨ y = e ∨ y ∈ C := by
  rw [s.eq, List.mem_append, List.mem_cons]

lemma getD : entries.getD A.length default = e := by
  rw [s.eq]
  simp

lemma lt_A (hs : Sorted Entry.beginKey entries) : ∀ a ∈ A, a.beginKey < e.beginKey := by
  rw [s.eq, Sorted, List.pairwise_append] at hs
  exact fun a ha => hs.2.2 a ha e List.mem_cons_self

lemma lt_C' (hs : Sorted Entry.beginKey entries) : ∀ x ∈ C, e.beginKey < x.beginKey := by
  rw [s.eq, Sorted, List.pairwise_append, List.pairwise_cons] at hs
  exact hs.2.1.1

lemma lastLessOrEqual (hs : Sorted Entry.beginKey entries) :
    Keyed.lastLessOrEqual Entry.beginKey entries k = A.length := by
  rw [s.eq]
  exact Keyed.lastLessOrEqual_append_cons (fun a ha => ((s.lt_A hs) a ha).le.trans s.le) s.le s.lt_C

lemma take_length : entries.take A.length = A := by
  rw [s.eq]
  exact List.take_left' rfl

lemma drop_length : entries.drop A.length = e :: C := by
  rw [s.eq]
  exact List.drop_left' rfl

lemma take_length_add_one : entries.take (A.length + 1) = A ++ [e] := by
  rw [s.eq, List.take_append, List.take_of_length_le (by omega), Nat.add_sub_cancel_left]
  rfl

lemma drop_length_add_one : entries.drop (A.length + 1) = C := by
  rw [s.eq, List.drop_append, List.drop_of_length_le (by omega), Nat.add_sub_cancel_left]
  rfl

end Cut

namespace Cut

variable {A C : List Entry} {e : Entry} {k : Key} (s : Cut c.entries k A e C) (hwf : Wf D c)
include s hwf

lemma end_le_A : ∀ a ∈ A, a.endKey ≤ e.beginKey := fun a ha =>
  hwf.disjoint a (s.mem_iff.mpr (.inl ha)) e s.mem (s.lt_A hwf.sorted a ha)

lemma le_C : ∀ x ∈ C, e.endKey ≤ x.beginKey := fun x hx =>
  hwf.disjoint e s.mem x (s.mem_iff.mpr (.inr (.inr hx))) (s.lt_C' hwf.sorted x hx)

lemma known_iff : c.Known k ↔ k < e.endKey := by
  constructor
  · rintro ⟨y, hy, hyk⟩
    rcases s.mem_iff.mp hy with hy | rfl | hy
    · exact absurd (hyk.2.trans_le ((s.end_le_A hwf y hy).trans s.le)) (lt_irrefl _)
    · exact hyk.2
    · exact absurd (hyk.1.trans_lt (s.lt_C y hy)) (lt_irrefl _)
  · exact fun hk => ⟨e, s.mem, s.le, hk⟩

lemma eq_lastEntry (hk : k = allKeysEnd) : e = lastEntry ∧ C = [] := by
  subst hk
  have hC : C = [] := List.eq_nil_iff_forall_not_mem.mpr fun x hx =>
    absurd (hwf.le_last x (s.mem_iff.mpr (.inr (.inr hx)))) (not_le.mpr (s.lt_C x hx))
  refine ⟨?_, hC⟩
  rcases s.mem_iff.mp hwf.last_mem with h | h | h
  · exact absurd (s.lt_A hwf.sorted _ h) (not_lt.mpr s.le)
  · exact h.symm
  · rw [hC] at h
    cases h

lemma length_eq (hk : k = allKeysEnd) : c.entries.length - 1 = A.length := by
  rw [s.eq, (s.eq_lastEntry hwf hk).2]
  simp

end Cut

end Cut

section Skip

/-! `skip(k)` from any position of the cache's iterator: after the entry when it ends at or
before `k`, else on its segment of `k`. -/

variable {i : Iterator} {A C : List Entry} {e : Entry} {k : Key}

lemma isUnknownRange_iff : i.isUnknownRange = true ↔ i.offset = 0 := by
  unfold Iterator.isUnknownRange Iterator.type
  split_ifs with h0 <;> simp [h0]

lemma type_of_odd (h : i.offset % 2 = 1) : i.type = .emptyRange := by
  rw [Iterator.type, if_neg (by omega), if_pos h]

lemma type_of_even (h0 : i.offset ≠ 0) (h : i.offset % 2 = 0) : i.type = .kv := by
  rw [Iterator.type, if_neg h0, if_neg (by omega)]

@[simp] lemma skip_entries (k : Key) : (i.skip k).entries = i.entries := by
  simp only [Iterator.skip]
  split_ifs <;> rfl

lemma skip_of_endKey_le (s : Cut i.entries k A e C) (hs : Sorted Entry.beginKey i.entries)
    (hk : k ≠ allKeysEnd) (he : e.endKey ≤ k) :
    i.skip k = { i with it := A.length + 1, offset := 0 } := by
  rw [Iterator.skip, if_neg hk]
  simp only [s.lastLessOrEqual hs, s.getD, if_pos he]

lemma skip_of_lt_endKey (s : Cut i.entries k A e C) (hs : Sorted Entry.beginKey i.entries)
    (hk : k ≠ allKeysEnd) (he : k < e.endKey) :
    i.skip k = { i with it := A.length, offset := Keyed.lowerBound KeyValueRef.key e.values k * 2 + 1 +
      if Keyed.lowerBound KeyValueRef.key e.values k < e.values.length ∧
        (e.values.getD (Keyed.lowerBound KeyValueRef.key e.values k) default).key = k then 1 else 0 } := by
  rw [Iterator.skip, if_neg hk]
  simp only [s.lastLessOrEqual hs, s.getD, if_neg (not_le.mpr he)]

lemma skip_it (hwf : Wf D c) (hi : i.entries = c.entries) (s : Cut c.entries k A e C) :
    (i.skip k).it = (if e.endKey ≤ k then A.length + 1 else A.length) ∧
      ((i.skip k).isUnknownRange = true ↔ e.endKey ≤ k) := by
  have s' : Cut i.entries k A e C := hi ▸ s
  have hs : Sorted Entry.beginKey i.entries := hi ▸ hwf.sorted
  by_cases hend : k = allKeysEnd
  · -- `allKeys.end` is in the last entry, which is known
    obtain ⟨rfl, -⟩ := s.eq_lastEntry hwf hend
    have hlt : ¬lastEntry.endKey ≤ k := not_le.mpr (hend ▸ allKeysEnd_lt_afterAllKeys)
    rw [isUnknownRange_iff, Iterator.skip, if_pos hend, if_neg hlt, hi, s.length_eq hwf hend]
    simp [hlt]
  · by_cases he : e.endKey ≤ k
    · rw [isUnknownRange_iff, skip_of_endKey_le s' hs hend he]
      simp [he]
    · rw [isUnknownRange_iff, skip_of_lt_endKey s' hs hend (not_le.mp he)]
      simp [he]

end Skip

section Report

variable {A C : List Entry} {e : Entry} {k : Key}

lemma lowerBound_spec (hsorted : Sorted KeyValueRef.key e.values) :
    let idx := Keyed.lowerBound KeyValueRef.key e.values k
    ((idx < e.values.length ∧ (e.values.getD idx default).key = k) → e.values.getD idx default ∈ e.values) ∧
      ((∃ kv ∈ e.values, kv.key = k) → idx < e.values.length ∧ (e.values.getD idx default).key = k) := by
  obtain ⟨T, R, hsplit, hT, hR⟩ := Keyed.Sorted.exists_split_lt hsorted k
  have hlb : Keyed.lowerBound KeyValueRef.key e.values k = T.length := by
    rw [hsplit]
    exact Keyed.lowerBound_append hT hR
  intro idx
  refine ⟨fun h => ?_, ?_⟩
  · rw [List.getD_eq_getElem?_getD, List.getElem?_eq_getElem h.1, Option.getD_some]
    exact List.getElem_mem h.1
  rintro ⟨kv, hkv, rfl⟩
  rw [hsplit] at hkv hsorted
  have hkvR : kv ∈ R := (List.mem_append.mp hkv).resolve_left fun h => lt_irrefl _ (hT kv h)
  -- the first pair from `k` on is at or below `kv`, so it is `kv`'s key
  obtain ⟨r, R', rfl⟩ := List.exists_cons_of_ne_nil (List.ne_nil_of_mem hkvR)
  have hr : r.key = kv.key := by
    rcases List.mem_cons.mp hkvR with rfl | h
    · rfl
    · have hlt : r.key < kv.key := by
        rw [Sorted, List.pairwise_append, List.pairwise_cons] at hsorted
        exact hsorted.2.1.1 kv h
      exact absurd (hR r List.mem_cons_self) (not_le.mpr hlt)
  have hidx : idx = T.length := hlb
  simp only [hidx, hsplit, List.length_append, List.length_cons]
  refine ⟨by omega, ?_⟩
  simpa using hr

/-- On a well-formed cache `skip(k)` reports a known key as the pair of `D` at it, or as an
empty range when `D` has none, and an unknown key as an unknown range. -/
theorem skip_report (hwf : Wf D c) (hk : k < allKeysEnd) :
    (c.Known k → (D k = none ∧ (c.iterator.skip k).type = .emptyRange) ∨
      ∃ v, D k = some v ∧ (c.iterator.skip k).type = .kv ∧ (c.iterator.skip k).kv = ⟨k, v⟩) ∧
    (¬c.Known k → (c.iterator.skip k).type = .unknownRange) := by
  obtain ⟨A, e, C, s⟩ := hwf.cut k
  rw [s.known_iff hwf]
  refine ⟨fun hke => ?_, fun hke => ?_⟩
  · obtain ⟨hsorted, hmem⟩ := hwf.faithful e s.mem (s.le.trans_lt hk)
    obtain ⟨hfound, hexists⟩ := lowerBound_spec (k := k) hsorted
    have hD : ∀ v, D k = some v ↔ ⟨k, v⟩ ∈ e.values := fun v => by
      rw [hmem]
      exact ⟨fun h => ⟨⟨s.le, hke⟩, h⟩, fun h => h.2⟩
    rw [skip_of_lt_endKey (i := c.iterator) s hwf.sorted hk.ne hke]
    by_cases hf : Keyed.lowerBound KeyValueRef.key e.values k < e.values.length ∧
        (e.values.getD (Keyed.lowerBound KeyValueRef.key e.values k) default).key = k
    · -- the pair of `k` is there, and `D` has its value
      right
      set kv := e.values.getD (Keyed.lowerBound KeyValueRef.key e.values k) default with hkv
      have hkvD : D k = some kv.value := (hD _).mpr (by rw [← hf.2]; exact hfound hf)
      refine ⟨kv.value, hkvD, type_of_even (by simp) (by simp only [if_pos hf]; omega), ?_⟩
      simp only [Iterator.kv, Iterator.entry, SnapshotCache.iterator, if_pos hf, s.getD]
      rw [show (Keyed.lowerBound KeyValueRef.key e.values k * 2 + 1 + 1 - 2) / 2 =
        Keyed.lowerBound KeyValueRef.key e.values k by omega, ← hkv, ← hf.2]
    · -- no pair has key `k`, so `D` has none
      left
      refine ⟨?_, type_of_odd (by simp only [if_neg hf]; omega)⟩
      cases hDk : D k with
      | none => rfl
      | some v => exact absurd (hexists ⟨_, (hD v).mp hDk, rfl⟩) hf
  · rw [skip_of_endKey_le (i := c.iterator) s hwf.sorted hk.ne (not_lt.mp hke), Iterator.type, if_pos rfl]

/-- `skip(k)` lands on the segment holding `k`: `beginKey() <= k && k < endKey()`. -/
theorem skip_segment (hwf : Wf D c) (hk : k < allKeysEnd) :
    (c.iterator.skip k).beginKey ≤ k ∧ k < (c.iterator.skip k).endKey := by
  obtain ⟨A, e, C, s⟩ := hwf.cut k
  by_cases hu : e.endKey ≤ k
  · -- the unknown range from the end of `e` to the next entry, which the last entry bounds
    obtain ⟨x, C', rfl⟩ : ∃ x C', C = x :: C' := by
      cases C with
      | nil =>
        exfalso
        rcases s.mem_iff.mp hwf.last_mem with h | h | h
        · exact absurd ((s.lt_A hwf.sorted _ h).trans_le s.le) (not_lt.mpr hk.le)
        · have hle : lastEntry.beginKey ≤ k := by rw [h]; exact s.le
          exact absurd hle (not_le.mpr hk)
        · cases h
      | cons x C' => exact ⟨x, C', rfl⟩
    have hx : c.entries.getD (A.length + 1) default = x := by
      rw [s.eq]
      simp
    rw [skip_of_endKey_le (i := c.iterator) s hwf.sorted hk.ne hu]
    simp only [Iterator.beginKey, Iterator.endKey, Iterator.entry, SnapshotCache.iterator, if_true,
      Nat.add_sub_cancel, s.getD, hx]
    exact ⟨hu, s.lt_C x List.mem_cons_self⟩
  · -- a segment of `e`: the pairs below `k` end before it, those from `k` on begin at or after it
    obtain ⟨hsorted, -⟩ := hwf.faithful e s.mem (s.le.trans_lt hk)
    rw [skip_of_lt_endKey (i := c.iterator) s hwf.sorted hk.ne (not_le.mp hu)]
    simp only [Iterator.beginKey, Iterator.endKey, Iterator.entry, SnapshotCache.iterator, s.getD,
      Entry.segments]
    have hle : Keyed.lowerBound KeyValueRef.key e.values k ≤ e.values.length := Keyed.lowerBound_le_length
    have hget : ∀ j (hj : j < e.values.length), e.values.getD j default = e.values[j] := fun j hj => by
      rw [List.getD_eq_getElem?_getD, List.getElem?_eq_getElem hj, Option.getD_some]
    generalize hidx : Keyed.lowerBound KeyValueRef.key e.values k = idx at hle ⊢
    by_cases hf : idx < e.values.length ∧ (e.values.getD idx default).key = k
    · -- on the pair of `k`
      rw [if_pos hf, if_neg (by omega), if_neg (by omega), if_neg (by omega), if_neg (by omega),
        show (idx * 2 + 1 + 1 - 2) / 2 = idx by omega, show (idx * 2 + 1 + 1) % 2 = 0 by omega,
        show (idx * 2 + 1 + 1 - 1) / 2 = idx by omega, hf.2, extStringRef_zero, Nat.sub_zero,
        extStringRef_one]
      exact ⟨le_rfl, lt_keyAfter k⟩
    · have hne : idx * 2 + 1 + 0 ≠ 0 := by omega
      rw [if_neg hf, show (idx * 2 + 1 + 0) % 2 = 1 by omega]
      simp only [hne, if_false]
      refine ⟨?_, ?_⟩
      · -- the empty range after the last pair below `k`, or from the entry's beginning
        by_cases h0 : idx = 0
        · rw [if_pos (by omega)]
          exact s.le
        · rw [if_neg (by omega), show (idx * 2 + 1 + 0 - 2) / 2 = idx - 1 by omega, extStringRef_one,
            keyAfter_le_iff, hget _ (by omega)]
          exact (hsorted.lt_lowerBound_iff (by omega)).mp (by omega)
      · -- up to the first pair above `k`, or to the entry's end
        by_cases hlast : idx = e.values.length
        · rw [if_pos (by omega)]
          exact not_le.mp hu
        · rw [if_neg (by omega), show (idx * 2 + 1 + 0 - 1) / 2 = idx by omega, Nat.sub_self,
            extStringRef_zero]
          have hge : k ≤ (e.values.getD idx default).key := by
            rw [hget _ (by omega)]
            exact not_lt.mp fun h => by
              have := (hsorted.lt_lowerBound_iff (by omega)).mpr h
              omega
          exact lt_of_le_of_ne hge fun h => hf ⟨by omega, h.symm⟩

theorem skip_segment_init :
    Wf (fun _ => none) init ∧ ([1] : Key) < allKeysEnd ∧
      (init.iterator.skip [1]).beginKey ≤ [1] ∧ [1] < (init.iterator.skip [1]).endKey :=
  ⟨init_wf _, by decide, skip_segment (init_wf fun _ => none) (by decide)⟩

end Report

section InsertEntry

/-! `entries.insert(x, NoMetric(), true)` keeps the cache well formed where the entries at or
before `x`'s beginning end by then and those after it begin after `x` ends. An entry it
replaces then holds no key. -/

variable {L : List Entry} {x y : Entry}

lemma mem_insertEntry (hs : Sorted Entry.beginKey L) :
    y ∈ insertEntry L x ↔ y = x ∨ (y ∈ L ∧ y.beginKey ≠ x.beginKey) := by
  rw [insertEntry, Keyed.mem_insert, hs.mem_eraseKey]

lemma sorted_insertEntry (hs : Sorted Entry.beginKey L) :
    Sorted Entry.beginKey (insertEntry L x) :=
  (hs.eraseKey _).insert fun _ hy => (hs.mem_eraseKey.mp hy).2

/-- Where `x` fits between the entries of `L`. -/
structure Fits (L : List Entry) (x : Entry) : Prop where
  before : ∀ y ∈ L, y.beginKey ≤ x.beginKey → y.endKey ≤ x.beginKey
  after : ∀ y ∈ L, x.beginKey < y.beginKey → x.endKey ≤ y.beginKey

lemma known_insertEntry (hs : Sorted Entry.beginKey L) (hfit : Fits L x) (k : Key) :
    Known ⟨insertEntry L x⟩ k ↔ x.contains k ∨ Known ⟨L⟩ k := by
  constructor
  · rintro ⟨y, hy, hyk⟩
    rcases (mem_insertEntry hs).mp hy with rfl | ⟨hy, -⟩
    · exact .inl hyk
    · exact .inr ⟨y, hy, hyk⟩
  · rintro (hxk | ⟨y, hy, hyk⟩)
    · exact ⟨x, (mem_insertEntry hs).mpr (.inl rfl), hxk⟩
    · -- the entry `x` replaces ends where it begins, so it is not the one holding `k`
      refine ⟨y, (mem_insertEntry hs).mpr (.inr ⟨hy, fun h => ?_⟩), hyk⟩
      have hend := hfit.before y hy h.le
      rw [← h] at hend
      exact absurd (hyk.1.trans_lt hyk.2) (not_lt.mpr hend)

lemma Wf.insertEntry (hwf : Wf D c) (hL : L.Sublist c.entries)
    (hfirst : (∃ f ∈ L, f.beginKey = allKeysBegin) ∨ x.beginKey = allKeysBegin)
    (hlast : lastEntry ∈ L) (hfit : Fits L x) (hx : x.beginKey < allKeysEnd)
    (hle : x.beginKey ≤ x.endKey) (hxf : x.Faithful D) : Wf D ⟨insertEntry L x⟩ := by
  have hs : Sorted Entry.beginKey L := hwf.sorted.sublist hL
  have hmem := fun y => mem_insertEntry (x := x) (y := y) hs
  refine ⟨sorted_insertEntry hs, ?_, ?_, ?_, (hmem _).mpr (.inr ⟨hlast, hx.ne'⟩), ?_, ?_⟩
  · intro y hy z hz hyz
    rcases (hmem y).mp hy with hyx | ⟨hyL, -⟩
    · rcases (hmem z).mp hz with hzx | ⟨hzL, -⟩
      · rw [hyx, hzx] at hyz
        exact absurd hyz (lt_irrefl _)
      · rw [hyx] at hyz ⊢
        exact hfit.after z hzL hyz
    · rcases (hmem z).mp hz with hzx | ⟨hzL, -⟩
      · rw [hzx] at hyz ⊢
        exact hfit.before y hyL hyz.le
      · exact hwf.disjoint y (hL.subset hyL) z (hL.subset hzL) hyz
  · intro y hy
    rcases (hmem y).mp hy with rfl | ⟨hy, -⟩
    · exact hle
    · exact hwf.begin_le_end y (hL.subset hy)
  · rcases hfirst with ⟨f, hf, hf0⟩ | hx0
    · by_cases hfx : f.beginKey = x.beginKey
      · exact ⟨x, (hmem x).mpr (.inl rfl), hfx ▸ hf0⟩
      · exact ⟨f, (hmem f).mpr (.inr ⟨hf, hfx⟩), hf0⟩
    · exact ⟨x, (hmem x).mpr (.inl rfl), hx0⟩
  · intro y hy
    rcases (hmem y).mp hy with rfl | ⟨hy, -⟩
    · exact hx.le
    · exact hwf.le_last y (hL.subset hy)
  · intro y hy hyk
    rcases (hmem y).mp hy with rfl | ⟨hy, -⟩
    · exact hxf
    · exact hwf.faithful y (hL.subset hy) hyk

end InsertEntry

section InsertKey

variable {key : Key} {value : Option Value}

lemma insertKey_of_unknown (hunk : (c.iterator.skip key).isUnknownRange = true) :
    ∃ vs, (∀ kv, kv ∈ vs ↔ kv.key = key ∧ value = some kv.value) ∧ Sorted KeyValueRef.key vs ∧
      c.insertKey key value = (⟨insertEntry c.entries ⟨key, keyAfter key, vs⟩⟩, true) := by
  cases value with
  | none => exact ⟨[], by simp, List.Pairwise.nil, by simp [insertKey, hunk]⟩
  | some v =>
    refine ⟨[⟨key, v⟩], fun kv => ?_, List.pairwise_singleton _ _, by simp [insertKey, hunk]⟩
    cases kv
    simp [eq_comm]

lemma insertKey_of_known (hkn : (c.iterator.skip key).isUnknownRange = false) :
    c.insertKey key value = (c, false) := by
  simp [insertKey, hkn]

/-- `insert(key, value)` on a well-formed cache, with the key's value in `D`: the cache stays
well formed, the key becomes known and no other, and the call says whether it was unknown. -/
theorem insertKey_spec (hwf : Wf D c) (hk : key < allKeysEnd) (hv : value = D key) :
    Wf D (c.insertKey key value).1 ∧
      (∀ k, (c.insertKey key value).1.Known k ↔ c.Known k ∨ k = key) ∧
      ((c.insertKey key value).2 = true ↔ ¬c.Known key) ∧
      ((c.insertKey key value).2 = false → (c.insertKey key value).1 = c) := by
  obtain ⟨A, e, C, s⟩ := hwf.cut key
  have hit := skip_it (i := c.iterator) hwf rfl s
  rw [s.known_iff hwf]
  by_cases hu : e.endKey ≤ key
  · -- `key` is in the unknown range after `e`: it gets its own entry
    obtain ⟨vs, hvs, hsorted, heq⟩ := @insertKey_of_unknown c key value (hit.2.mpr hu)
    have hfit : Fits c.entries ⟨key, keyAfter key, vs⟩ := by
      refine ⟨fun y hy hyk => ?_, fun y hy hyk => keyAfter_le_iff.mpr hyk⟩
      rcases s.mem_iff.mp hy with hy | rfl | hy
      · exact (s.end_le_A hwf y hy).trans s.le
      · exact hu
      · exact absurd hyk (not_le.mpr (s.lt_C y hy))
    have hcontains : ∀ k, Entry.contains ⟨key, keyAfter key, vs⟩ k ↔ k = key := fun k => by
      simp only [Entry.contains, lt_keyAfter_iff]
      exact ⟨fun h => le_antisymm h.2 h.1, fun h => ⟨h.ge, h.le⟩⟩
    have hxf : Entry.Faithful D ⟨key, keyAfter key, vs⟩ := by
      refine ⟨hsorted, fun kv => ?_⟩
      rw [hvs, hcontains, hv]
      constructor
      · rintro ⟨rfl, h⟩
        exact ⟨rfl, h⟩
      · rintro ⟨rfl, h⟩
        exact ⟨rfl, h⟩
    rw [heq]
    refine ⟨hwf.insertEntry (List.Sublist.refl _) (.inl hwf.first_mem) hwf.last_mem hfit hk
      (lt_keyAfter key).le hxf, fun k => ?_, by simpa using hu,
      fun h => absurd h (by simp)⟩
    rw [known_insertEntry hwf.sorted hfit, hcontains, or_comm]
  · -- `key` is known: nothing changes
    rw [insertKey_of_known (Bool.eq_false_iff.mpr fun h => hu (hit.2.mp h))]
    have hkn : c.Known key := (s.known_iff hwf).mpr (not_le.mp hu)
    exact ⟨hwf, fun k => ⟨.inl, fun h => h.elim id fun hkk => hkk ▸ hkn⟩, by simpa using hu,
      fun _ => rfl⟩

end InsertKey

section Sides

/-! `insert(keys, values)` erases the entries from position `i` to position `j` and inserts
`[begin, end)` in their place. Around `keys.begin` (`Lower`) the entries before `i` end by
`begin`, those from `i` on begin there, and the keys of `[keys.begin, begin)` are known before
`i`; around `keys.end` (`Upper`) the same holds the other way round. -/

structure Lower (entries : List Entry) (b : Key) (i : ℕ) (begin : Key) : Prop where
  le : b ≤ begin
  lt_length : i < entries.length
  take : ∀ y ∈ entries.take i, y.endKey ≤ begin
  drop : ∀ y ∈ entries.drop i, begin ≤ y.beginKey
  known : ∀ k, b ≤ k → k < begin → ∃ y ∈ entries.take i, y.contains k

structure Upper (entries : List Entry) (t : Key) (j : ℕ) («end» : Key) : Prop where
  le : «end» ≤ t
  take : ∀ y ∈ entries.take j, y.endKey ≤ «end»
  drop : ∀ y ∈ entries.drop j, «end» ≤ y.beginKey
  known : ∀ k, «end» ≤ k → k < t → ∃ y ∈ entries.drop j, y.contains k

variable {A C : List Entry} {e : Entry} {b t : Key}

lemma Cut.lower (s : Cut c.entries b A e C) (hwf : Wf D c) (hb : b < allKeysEnd) :
    Lower c.entries b (if b < e.endKey ∧ e.beginKey = b then A.length else A.length + 1)
      (if b < e.endKey ∧ e.beginKey ≠ b then e.endKey else b) := by
  -- the last entry begins after `b`, so it comes after `e`
  have hC : C ≠ [] := by
    rintro rfl
    rcases s.mem_iff.mp hwf.last_mem with h | h | h
    · exact absurd ((s.lt_A hwf.sorted _ h).trans_le s.le) (not_lt.mpr hb.le)
    · have hle : lastEntry.beginKey ≤ b := by rw [h]; exact s.le
      exact absurd hle (not_le.mpr hb)
    · cases h
  have hlen : A.length + 1 < c.entries.length := by
    rw [s.eq, List.length_append, List.length_cons]
    have := List.length_pos_of_ne_nil hC
    omega
  have hA : ∀ y ∈ A, y.endKey ≤ e.beginKey := s.end_le_A hwf
  by_cases hu : e.endKey ≤ b
  · -- after an entry ending by `b`: nothing of it is kept or erased
    have hn : ¬(b < e.endKey ∧ e.beginKey = b) := fun h => absurd h.1 (not_lt.mpr hu)
    have hn' : ¬(b < e.endKey ∧ e.beginKey ≠ b) := fun h => absurd h.1 (not_lt.mpr hu)
    rw [if_neg hn, if_neg hn']
    refine ⟨le_rfl, hlen, fun y hy => ?_, fun y hy => ?_, fun k hbk hkb => absurd hbk (not_le.mpr hkb)⟩
    · rw [s.take_length_add_one] at hy
      rcases List.mem_append.mp hy with hy | hy
      · exact (hA y hy).trans s.le
      · rw [List.mem_singleton.mp hy]
        exact hu
    · rw [s.drop_length_add_one] at hy
      exact (s.lt_C y hy).le
  · by_cases heq : e.beginKey = b
    · -- at an entry beginning at `b`: it is erased
      rw [if_pos ⟨not_le.mp hu, heq⟩, if_neg fun h => h.2 heq]
      refine ⟨le_rfl, by omega, fun y hy => ?_, fun y hy => ?_,
        fun k hbk hkb => absurd hbk (not_le.mpr hkb)⟩
      · rw [s.take_length] at hy
        exact heq ▸ hA y hy
      · rw [s.drop_length] at hy
        rcases List.mem_cons.mp hy with rfl | hy
        · exact heq.ge
        · exact (s.lt_C y hy).le
    · -- inside an entry: it is kept, and the new one starts where it ends
      rw [if_neg fun h => heq h.2, if_pos ⟨not_le.mp hu, heq⟩]
      refine ⟨(not_le.mp hu).le, hlen, fun y hy => ?_, fun y hy => ?_, fun k hbk hkb => ?_⟩
      · rw [s.take_length_add_one] at hy
        rcases List.mem_append.mp hy with hy | hy
        · exact (hA y hy).trans (hwf.begin_le_end e s.mem)
        · rw [List.mem_singleton.mp hy]
      · rw [s.drop_length_add_one] at hy
        exact s.le_C hwf y hy
      · rw [s.take_length_add_one]
        exact ⟨e, List.mem_append_right _ (List.mem_singleton_self e), s.le.trans hbk, hkb⟩

lemma Cut.upper (s : Cut c.entries t A e C) (hwf : Wf D c) :
    Upper c.entries t (if e.endKey ≤ t then A.length + 1 else A.length)
      (if e.endKey ≤ t then t else e.beginKey) := by
  have hA : ∀ y ∈ A, y.endKey ≤ e.beginKey := s.end_le_A hwf
  by_cases hu : e.endKey ≤ t
  · rw [if_pos hu, if_pos hu]
    refine ⟨le_rfl, fun y hy => ?_, fun y hy => ?_, fun k htk hkt => absurd htk (not_le.mpr hkt)⟩
    · rw [s.take_length_add_one] at hy
      rcases List.mem_append.mp hy with hy | hy
      · exact ((hA y hy).trans (hwf.begin_le_end e s.mem)).trans hu
      · rw [List.mem_singleton.mp hy]
        exact hu
    · rw [s.drop_length_add_one] at hy
      exact (s.lt_C y hy).le
  · rw [if_neg hu, if_neg hu]
    refine ⟨s.le, fun y hy => ?_, fun y hy => ?_, fun k hek hkt => ?_⟩
    · rw [s.take_length] at hy
      exact hA y hy
    · rw [s.drop_length] at hy
      rcases List.mem_cons.mp hy with rfl | hy
      · exact le_rfl
      · exact (s.lt_C' hwf.sorted y hy).le
    · rw [s.drop_length]
      exact ⟨e, List.mem_cons_self, hek, hkt.trans (not_le.mp hu)⟩

section Erase

/-! Between a `Lower` and an `Upper` side with `begin < end`, the erase keeps a sublist of the
entries, the new entry fits into it, and the keys known afterwards are those known before and
those of `keys`. -/

variable {b t begin «end» : Key} {i j : ℕ}
  (lo : Lower c.entries b i begin) (up : Upper c.entries t j «end») (hwf : Wf D c)
include lo up hwf

lemma Lower.le_of_lt (hlt : begin < «end») : i ≤ j := by
  by_contra hji
  -- an entry at `j` would be kept by both sides, ending by `begin` and beginning from `end`
  obtain ⟨y, ys, hys⟩ := List.exists_cons_of_ne_nil
    (show c.entries.drop j ≠ [] from fun h => by rw [List.drop_eq_nil_iff] at h; have := lo.lt_length; omega)
  have hyd : y ∈ c.entries.drop j := hys ▸ List.mem_cons_self
  have hyt : y ∈ c.entries.take i := by
    obtain ⟨n, hn⟩ : ∃ n, i - j = n + 1 := ⟨i - j - 1, by omega⟩
    have h : (c.entries.take i).drop j = y :: ys.take n := by
      rw [List.drop_take, hys, hn, List.take_succ_cons]
    exact List.mem_of_mem_drop (h ▸ List.mem_cons_self)
  have hy := hwf.begin_le_end y (List.mem_of_mem_drop hyd)
  exact absurd ((up.drop y hyd).trans (hy.trans (lo.take y hyt))) (not_le.mpr hlt)

lemma Lower.sublist (hlt : begin < «end») :
    (c.entries.take i ++ c.entries.drop j).Sublist c.entries := by
  conv_rhs => rw [← List.take_append_drop i c.entries]
  exact (List.drop_sublist_drop_left _ (lo.le_of_lt up hwf hlt)).append_left _

omit hwf in
lemma Lower.inside {y : Entry} (hy : y ∈ c.entries) (hn : y ∉ c.entries.take i ++ c.entries.drop j) :
    begin ≤ y.beginKey ∧ y.endKey ≤ «end» := by
  rw [List.mem_append, not_or] at hn
  have hyi : y ∈ c.entries.drop i := by
    rw [← List.take_append_drop i c.entries] at hy
    exact (List.mem_append.mp hy).resolve_left hn.1
  have hyj : y ∈ c.entries.take j := by
    rw [← List.take_append_drop j c.entries] at hy
    exact (List.mem_append.mp hy).resolve_right hn.2
  exact ⟨lo.drop y hyi, up.take y hyj⟩

lemma Lower.fits (hlt : begin < «end») (vs : List KeyValueRef) :
    Fits (c.entries.take i ++ c.entries.drop j) ⟨begin, «end», vs⟩ := by
  constructor
  · intro y hy hyb
    rcases List.mem_append.mp hy with hy | hy
    · exact lo.take y hy
    · exact absurd ((up.drop y hy).trans hyb) (not_le.mpr hlt)
  · intro y hy hby
    rcases List.mem_append.mp hy with hy | hy
    · have hyb := (hwf.begin_le_end y (List.mem_of_mem_take hy)).trans (lo.take y hy)
      exact absurd hyb (not_le.mpr hby)
    · exact up.drop y hy

lemma Lower.known_iff (hlt : begin < «end») (vs : List KeyValueRef) (k : Key) :
    (Entry.contains ⟨begin, «end», vs⟩ k ∨ Known ⟨c.entries.take i ++ c.entries.drop j⟩ k) ↔
      c.Known k ∨ (b ≤ k ∧ k < t) := by
  have hL := lo.sublist up hwf hlt
  constructor
  · rintro (⟨hbk, hke⟩ | ⟨y, hy, hyk⟩)
    · exact .inr ⟨lo.le.trans hbk, hke.trans_le up.le⟩
    · exact .inl ⟨y, hL.subset hy, hyk⟩
  · rintro (⟨y, hy, hyk⟩ | ⟨hbk, hkt⟩)
    · by_cases hyL : y ∈ c.entries.take i ++ c.entries.drop j
      · exact .inr ⟨y, hyL, hyk⟩
      · obtain ⟨hb, he⟩ := lo.inside up hy hyL
        exact .inl ⟨hb.trans hyk.1, hyk.2.trans_le he⟩
    · by_cases hkb : k < begin
      · obtain ⟨y, hy, hyk⟩ := lo.known k hbk hkb
        exact .inr ⟨y, List.mem_append_left _ hy, hyk⟩
      · by_cases hke : k < «end»
        · exact .inl ⟨not_lt.mp hkb, hke⟩
        · obtain ⟨y, hy, hyk⟩ := up.known k (not_lt.mp hke) hkt
          exact .inr ⟨y, List.mem_append_right _ hy, hyk⟩

end Erase

lemma Lower.known_of_le {b t begin «end» : Key} {i j : ℕ} (lo : Lower c.entries b i begin)
    (up : Upper c.entries t j «end») (hle : «end» ≤ begin) {k : Key} (hbk : b ≤ k) (hkt : k < t) :
    c.Known k := by
  by_cases hkb : k < begin
  · obtain ⟨y, hy, hyk⟩ := lo.known k hbk hkb
    exact ⟨y, List.mem_of_mem_take hy, hyk⟩
  · obtain ⟨y, hy, hyk⟩ := up.known k (hle.trans (not_lt.mp hkb)) hkt
    exact ⟨y, List.mem_of_mem_drop hy, hyk⟩

lemma Lower.addBegin_eq_false {b i begin} (lo : Lower c.entries b i begin) :
    (begin != allKeysBegin && (c.entries.getD i default).beginKey == allKeysBegin) = false := by
  by_cases h : begin = allKeysBegin
  · simp [h]
  · obtain ⟨y, ys, hys⟩ := List.exists_cons_of_ne_nil
      (show c.entries.drop i ≠ [] from fun h => by rw [List.drop_eq_nil_iff] at h; have := lo.lt_length; omega)
    have hget : c.entries[i]? = some y := by
      rw [← Nat.add_zero i, ← List.getElem?_drop, hys]
      rfl
    have hy : begin ≤ y.beginKey := lo.drop y (hys ▸ List.mem_cons_self)
    have hne : y.beginKey ≠ allKeysBegin := fun h' =>
      h (le_antisymm (h' ▸ hy) (allKeysBegin_le _))
    simp [List.getD_eq_getElem?_getD, hget, hne]

end Sides

section InsertRange

variable {keys : KeyRangeRef} {values : List KeyValueRef} {A C : List Entry} {e : Entry} {b t : Key}

lemma lower_of_skip (hwf : Wf D c) (s : Cut c.entries b A e C) (hb : b < allKeysEnd)
    {itb : Iterator} (hit : itb.it = if e.endKey ≤ b then A.length + 1 else A.length)
    (hu : itb.isUnknownRange = true ↔ e.endKey ≤ b) (he : itb.entries = c.entries) {tB : Bool}
    (htB : (!itb.isUnknownRange && itb.entry.beginKey != b) = tB) :
    Lower c.entries b (if tB = true then itb.nextUnknown else itb).it
      (if tB = true then itb.entry.endKey else b) := by
  have hlo := s.lower hwf hb
  by_cases hend : e.endKey ≤ b
  · -- on the unknown range after `e`
    have htB' : tB = false := by rw [← htB, hu.mpr hend]; rfl
    have hn : ¬(b < e.endKey ∧ e.beginKey = b) := fun h => absurd h.1 (not_lt.mpr hend)
    have hn' : ¬(b < e.endKey ∧ e.beginKey ≠ b) := fun h => absurd h.1 (not_lt.mpr hend)
    rw [if_neg hn, if_neg hn'] at hlo
    simpa only [htB', Bool.false_eq_true, if_false, hit, if_pos hend] using hlo
  · -- in `e`, which is the iterator's entry
    have hentry : itb.entry = e := by
      rw [Iterator.entry, he, hit, if_neg hend]
      exact s.getD
    have hknown : itb.isUnknownRange = false := Bool.eq_false_iff.mpr fun h => hend (hu.mp h)
    by_cases heq : e.beginKey = b
    · have htB' : tB = false := by rw [← htB, hknown, hentry, heq]; simp
      rw [if_pos ⟨not_le.mp hend, heq⟩, if_neg fun h => h.2 heq] at hlo
      simpa only [htB', Bool.false_eq_true, if_false, hit, if_neg hend] using hlo
    · have htB' : tB = true := by rw [← htB, hknown, hentry]; simpa using heq
      rw [if_neg fun h => heq h.2, if_pos ⟨not_le.mp hend, heq⟩] at hlo
      simpa only [htB', if_true, Iterator.nextUnknown, hit, if_neg hend, hentry] using hlo

lemma upper_of_skip (hwf : Wf D c) (s : Cut c.entries t A e C)
    {ite : Iterator} (hit : ite.it = if e.endKey ≤ t then A.length + 1 else A.length)
    (hu : ite.isUnknownRange = true ↔ e.endKey ≤ t) (he : ite.entries = c.entries) {tE : Bool}
    (htE : (!ite.isUnknownRange) = tE) :
    Upper c.entries t (if tE = true then ite.prevUnknown else ite).it
      (if tE = true then (if tE = true then ite.prevUnknown else ite).endKey else t) := by
  have hup := s.upper hwf
  by_cases hend : e.endKey ≤ t
  · have htE' : tE = false := by rw [← htE, hu.mpr hend]; rfl
    rw [if_pos hend, if_pos hend] at hup
    simpa only [htE', Bool.false_eq_true, if_false, hit, if_pos hend] using hup
  · have htE' : tE = true := by
      rw [← htE, Bool.eq_false_iff.mpr fun h => hend (hu.mp h)]
      rfl
    -- the erase stops at `e`, where the new entry ends
    have hbegin : ite.prevUnknown.endKey = e.beginKey := by
      simp only [Iterator.endKey, Iterator.prevUnknown, if_true, Iterator.entry, he, hit, if_neg hend,
        s.getD]
    have hpit : ite.prevUnknown.it = A.length := by
      rw [Iterator.prevUnknown, hit, if_neg hend]
    rw [if_neg hend, if_neg hend] at hup
    simpa only [htE', if_true, hbegin, hpit] using hup

lemma mem_drop_if {vs : List KeyValueRef} (hs : Sorted KeyValueRef.key vs) (p : Bool) (lo : Key)
    {kv : KeyValueRef} :
    kv ∈ (if p = true then vs.drop (Keyed.lowerBound KeyValueRef.key vs lo) else vs) ↔
      kv ∈ vs ∧ (p = true → lo ≤ kv.key) := by
  cases p
  · simp
  · simpa using hs.mem_drop_lowerBound

lemma mem_take_if {vs : List KeyValueRef} (hs : Sorted KeyValueRef.key vs) (p : Bool) (hi : Key)
    {kv : KeyValueRef} :
    kv ∈ (if p = true then vs.take (Keyed.lowerBound KeyValueRef.key vs hi) else vs) ↔
      kv ∈ vs ∧ (p = true → kv.key < hi) := by
  cases p
  · simp
  · simpa using Keyed.mem_take_lowerBound hs

lemma sorted_drop_if {vs : List KeyValueRef} (hs : Sorted KeyValueRef.key vs) (p : Bool) (lo : Key) :
    Sorted KeyValueRef.key (if p = true then vs.drop (Keyed.lowerBound KeyValueRef.key vs lo) else vs) := by
  cases p
  · exact hs
  · exact hs.sublist (List.drop_sublist _ _)

lemma sorted_take_if {vs : List KeyValueRef} (hs : Sorted KeyValueRef.key vs) (p : Bool) (hi : Key) :
    Sorted KeyValueRef.key (if p = true then vs.take (Keyed.lowerBound KeyValueRef.key vs hi) else vs) := by
  cases p
  · exact hs
  · exact hs.sublist (List.take_sublist _ _)

lemma insertRange_cases (hwf : Wf D c) (hbt : keys.begin < keys.end) (ht : keys.end ≤ allKeysEnd)
    (hvs : Sorted KeyValueRef.key values) (hin : ∀ kv ∈ values, keys.contains kv.key) :
    ∃ i begin j «end» vs, Lower c.entries keys.begin i begin ∧ Upper c.entries keys.end j «end» ∧
      Sorted KeyValueRef.key vs ∧ (∀ kv, kv ∈ vs ↔ kv ∈ values ∧ begin ≤ kv.key ∧ kv.key < «end») ∧
      c.insertRange keys values = if begin < «end» then
        (⟨insertEntry (c.entries.take i ++ c.entries.drop j) ⟨begin, «end», vs⟩⟩, true) else (c, false) := by
  obtain ⟨A, e, C, sb⟩ := hwf.cut keys.begin
  obtain ⟨A', e', C', st⟩ := hwf.cut keys.end
  obtain ⟨hbit, hbu⟩ := skip_it (i := c.iterator) hwf rfl sb
  obtain ⟨htit, htu⟩ := skip_it (i := c.iterator.skip keys.begin) hwf (skip_entries _) st
  have hbe : (c.iterator.skip keys.begin).entries = c.entries := skip_entries _
  simp only [insertRange, if_neg hbt.ne]
  generalize c.iterator.skip keys.begin = itb at hbit hbu htit htu hbe ⊢
  generalize hite : itb.skip keys.end = ite at htit htu ⊢
  have hte : ite.entries = c.entries := by rw [← hite, skip_entries, hbe]
  generalize htB : (!itb.isUnknownRange && itb.entry.beginKey != keys.begin) = tB
  generalize htE : (!ite.isUnknownRange) = tE
  have lo := lower_of_skip hwf sb (hbt.trans_le ht) hbit hbu hbe htB
  have up := upper_of_skip hwf st htit htu hte htE
  -- an untrimmed side keeps the bound of `keys`
  have hbB : tB = false → (if tB = true then itb.entry.endKey else keys.begin) = keys.begin := by
    rintro rfl
    rfl
  have hbE : tE = false →
      (if tE = true then (if tE = true then ite.prevUnknown else ite).endKey else keys.end) = keys.end := by
    rintro rfl
    rfl
  have hentry : (if tB = true then itb.nextUnknown else itb).entry =
      c.entries.getD (if tB = true then itb.nextUnknown else itb).it default := by
    cases tB <;> simp [Iterator.entry, Iterator.nextUnknown, hbe]
  generalize (if tB = true then itb.entry.endKey else keys.begin) = begin at lo hbB ⊢
  generalize (if tE = true then (if tE = true then ite.prevUnknown else ite).endKey else keys.end) =
    «end» at up hbE ⊢
  generalize (if tB = true then itb.nextUnknown else itb) = itb' at lo hentry ⊢
  generalize (if tE = true then ite.prevUnknown else ite) = ite' at up ⊢
  have hvsB := sorted_drop_if hvs tB begin
  refine ⟨itb'.it, begin, ite'.it, «end», _, lo, up, sorted_take_if hvsB tE «end», fun kv => ?_, ?_⟩
  · rw [mem_take_if hvsB, mem_drop_if hvs]
    constructor
    · rintro ⟨⟨hv, hb⟩, he⟩
      obtain ⟨hkb, hke⟩ := hin kv hv
      refine ⟨hv, ?_, ?_⟩
      · cases tB with
        | false => rw [hbB rfl]; exact hkb
        | true => exact hb rfl
      · cases tE with
        | false => rw [hbE rfl]; exact hke
        | true => exact he rfl
    · rintro ⟨hv, hb, he⟩
      exact ⟨⟨hv, fun _ => hb⟩, fun _ => he⟩
  · rw [hentry, lo.addBegin_eq_false]
    rfl

/-- `insert(keys, values)` on a well-formed cache, with a nonempty range of keys within
`allKeys` and the snapshot's pairs of it: the cache stays well formed, the keys of the range
become known and no others, a key of it that was unknown makes the call return `true`, and a
call that returns `false` leaves the cache as it was. -/
theorem insertRange_spec (hwf : Wf D c) (hbt : keys.begin < keys.end) (ht : keys.end ≤ allKeysEnd)
    (hvs : Sorted KeyValueRef.key values)
    (hv : ∀ kv, kv ∈ values ↔ keys.contains kv.key ∧ D kv.key = some kv.value) :
    Wf D (c.insertRange keys values).1 ∧
      (∀ k, (c.insertRange keys values).1.Known k ↔ c.Known k ∨ keys.contains k) ∧
      ((∃ k, keys.contains k ∧ ¬c.Known k) → (c.insertRange keys values).2 = true) ∧
      ((c.insertRange keys values).2 = false → (c.insertRange keys values).1 = c) := by
  obtain ⟨i, begin, j, «end», vs, lo, up, hsorted, hmem, heq⟩ :=
    insertRange_cases hwf hbt ht hvs fun kv h => ((hv kv).mp h).1
  rw [heq]
  by_cases hlt : begin < «end»
  · rw [if_pos hlt]
    have hL := lo.sublist up hwf hlt
    have hfit := lo.fits up hwf hlt vs
    -- the entry at `allKeys.begin` is kept, or the new entry begins there
    have hfirst : (∃ f ∈ c.entries.take i ++ c.entries.drop j, f.beginKey = allKeysBegin) ∨
        begin = allKeysBegin := by
      obtain ⟨f, hf, hf0⟩ := hwf.first_mem
      by_cases hfL : f ∈ c.entries.take i ++ c.entries.drop j
      · exact .inl ⟨f, hfL, hf0⟩
      · exact .inr (le_antisymm (hf0 ▸ (lo.inside up hf hfL).1) (allKeysBegin_le _))
    -- the entry at `allKeys.end` ends after every key of `keys`, so it is kept
    have hlast : lastEntry ∈ c.entries.take i ++ c.entries.drop j := by
      by_contra hn
      have hafter := (lo.inside up hwf.last_mem hn).2.trans (up.le.trans ht)
      exact absurd hafter (not_le.mpr allKeysEnd_lt_afterAllKeys)
    have hxf : Entry.Faithful D ⟨begin, «end», vs⟩ := by
      refine ⟨hsorted, fun kv => ?_⟩
      rw [hmem, hv]
      constructor
      · rintro ⟨⟨-, hD⟩, hb, he⟩
        exact ⟨⟨hb, he⟩, hD⟩
      · rintro ⟨⟨hb, he⟩, hD⟩
        exact ⟨⟨⟨lo.le.trans hb, he.trans_le up.le⟩, hD⟩, hb, he⟩
    refine ⟨hwf.insertEntry hL hfirst hlast hfit (hlt.trans_le (up.le.trans ht)) hlt.le hxf,
      fun k => ?_, fun _ => rfl, fun h => absurd h (by simp)⟩
    rw [known_insertEntry (hwf.sorted.sublist hL) hfit, lo.known_iff up hwf hlt]
    rfl
  · -- nothing of `keys` was unknown
    rw [if_neg hlt]
    have hknown := fun k (hk : keys.contains k) => lo.known_of_le up (not_lt.mp hlt) hk.1 hk.2
    refine ⟨hwf, fun k => ⟨.inl, fun h => h.elim id (hknown k)⟩,
      fun ⟨k, hk, hnk⟩ => absurd (hknown k hk) hnk, fun _ => rfl⟩

end InsertRange

end SnapshotCache

namespace SnapshotOp

/-- The keys the call is about. -/
def covers : SnapshotOp → Key → Prop
  | insertKey key _, k => k = key
  | insertRange keys _, k => keys.contains k

/-- The call passes what the snapshot `D` holds: `insert(key, D(key))`, or `insert(keys, D|keys)`
with the pairs in key order, for keys of `allKeys` and a nonempty range. -/
def Faithful (D : Key → Option Value) : SnapshotOp → Prop
  | insertKey key value => key < allKeysEnd ∧ value = D key
  | insertRange keys values => keys.begin < keys.end ∧ keys.end ≤ allKeysEnd ∧
      Keyed.Sorted KeyValueRef.key values ∧
      ∀ kv, kv ∈ values ↔ keys.contains kv.key ∧ D kv.key = some kv.value

end SnapshotOp

namespace SnapshotCache

open Keyed (Sorted)

variable {D : Key → Option Value} {c : SnapshotCache}

section Run

lemma apply_spec (hwf : Wf D c) {op : SnapshotOp} (hop : op.Faithful D) :
    Wf D (c.apply op).1 ∧ (∀ k, (c.apply op).1.Known k ↔ c.Known k ∨ op.covers k) ∧
      ((∃ k, op.covers k ∧ ¬c.Known k) → (c.apply op).2 = true) ∧
      ((c.apply op).2 = false → (c.apply op).1 = c) := by
  cases op with
  | insertKey key value =>
    obtain ⟨hwf', hknown, hret, hfalse⟩ := insertKey_spec hwf hop.1 hop.2
    exact ⟨hwf', hknown, fun ⟨k, hk, hnk⟩ => hret.mpr (hk ▸ hnk), hfalse⟩
  | insertRange keys values => exact insertRange_spec hwf hop.1 hop.2.1 hop.2.2.1 hop.2.2.2

lemma run_spec (hwf : Wf D c) {ops : List SnapshotOp} (hops : ∀ op ∈ ops, op.Faithful D) :
    Wf D (c.run ops) ∧ ∀ k, (c.run ops).Known k ↔ c.Known k ∨ ∃ op ∈ ops, op.covers k := by
  induction ops generalizing c with
  | nil => exact ⟨hwf, fun k => by simp [run]⟩
  | cons op ops ih =>
    obtain ⟨hwf', hknown, -, -⟩ := apply_spec hwf (hops op List.mem_cons_self)
    obtain ⟨hwfr, hknownr⟩ := ih hwf' fun op' h => hops op' (List.mem_cons_of_mem _ h)
    refine ⟨hwfr, fun k => ?_⟩
    rw [show c.run (op :: ops) = (c.apply op).1.run ops from rfl, hknownr, hknown]
    simp only [List.mem_cons, exists_eq_or_imp, or_assoc]

end Run

section Shape

lemma Wf.isChain (hwf : Wf D c) : c.entries.IsChain fun e f => e.endKey ≤ f.beginKey :=
  (List.Pairwise.imp_of_mem (fun ha hb h => hwf.disjoint _ ha _ hb h) hwf.sorted).isChain

lemma Wf.values_inside (hwf : Wf D c) {e : Entry} (he : e ∈ c.entries) :
    Sorted KeyValueRef.key e.values ∧ ∀ kv ∈ e.values, e.contains kv.key := by
  rcases (hwf.le_last e he).lt_or_eq with hlt | heq
  · obtain ⟨hsorted, hmem⟩ := hwf.faithful e he hlt
    exact ⟨hsorted, fun kv hkv => ((hmem kv).mp hkv).1⟩
  · obtain rfl : e = lastEntry := hwf.sorted.key_injOn he hwf.last_mem heq
    exact ⟨List.Pairwise.nil, fun kv hkv => by cases hkv⟩

end Shape

section Runs

theorem insert_keeps_partialView (D : Key → Option Value) (ops : List SnapshotOp)
    (hops : ∀ op ∈ ops, op.Faithful D) :
    let c := init.run ops
    Sorted Entry.beginKey c.entries ∧ c.entries.IsChain (fun e f => e.endKey ≤ f.beginKey) ∧
      (∀ e ∈ c.entries, Sorted KeyValueRef.key e.values ∧ ∀ kv ∈ e.values, e.contains kv.key) ∧
      (∀ k, c.Known k ↔ k = allKeysEnd ∨ ∃ op ∈ ops, op.covers k) ∧
      (∀ k < allKeysEnd,
        (c.Known k → (D k = none ∧ (c.iterator.skip k).type = .emptyRange) ∨
          ∃ v, D k = some v ∧ (c.iterator.skip k).type = .kv ∧ (c.iterator.skip k).kv = ⟨k, v⟩) ∧
        (¬c.Known k → (c.iterator.skip k).type = .unknownRange)) ∧
      ∀ op, op.Faithful D →
        (∀ k, (c.apply op).1.Known k ↔ c.Known k ∨ op.covers k) ∧
        ((∃ k, op.covers k ∧ ¬c.Known k) → (c.apply op).2 = true) ∧
        ((c.apply op).2 = false → (c.apply op).1 = c) ∧
        ∀ key value, op = .insertKey key value → ((c.apply op).2 = true ↔ ¬c.Known key) := by
  intro c
  obtain ⟨hwf, hknown⟩ := run_spec (init_wf D) hops
  refine ⟨hwf.sorted, hwf.isChain, fun e he => hwf.values_inside he, fun k => ?_,
    fun k hk => skip_report hwf hk, fun op hop => ?_⟩
  · rw [hknown, init_known]
  · obtain ⟨-, hknown', hunknown, hfalse⟩ := apply_spec hwf hop
    refine ⟨hknown', hunknown, hfalse, fun key value hop' => ?_⟩
    subst hop'
    exact (insertKey_spec hwf hop.1 hop.2).2.2.1

theorem insert_keeps_partialView_sample :
    (∀ op ∈ [SnapshotOp.insertRange ⟨[1], [3], by decide⟩ [⟨[2], [7]⟩], .insertKey [5] none],
        op.Faithful fun k => if k = [2] then some ([7] : Value) else none) ∧
      let c := init.run [.insertRange ⟨[1], [3], by decide⟩ [⟨[2], [7]⟩], .insertKey [5] none]
      Sorted Entry.beginKey c.entries ∧ c.entries.IsChain (fun e f => e.endKey ≤ f.beginKey) ∧
      (∀ e ∈ c.entries, Sorted KeyValueRef.key e.values ∧ ∀ kv ∈ e.values, e.contains kv.key) ∧
      (∀ k, c.Known k ↔ k = allKeysEnd ∨
        ∃ op ∈ [SnapshotOp.insertRange ⟨[1], [3], by decide⟩ [⟨[2], [7]⟩], .insertKey [5] none],
          op.covers k) ∧
      (∀ k < allKeysEnd,
        (c.Known k → ((if k = [2] then some ([7] : Value) else none) = none ∧
            (c.iterator.skip k).type = .emptyRange) ∨
          ∃ v, (if k = [2] then some ([7] : Value) else none) = some v ∧ (c.iterator.skip k).type = .kv ∧
            (c.iterator.skip k).kv = ⟨k, v⟩) ∧
        (¬c.Known k → (c.iterator.skip k).type = .unknownRange)) ∧
      ∀ op, op.Faithful (fun k => if k = [2] then some ([7] : Value) else none) →
        (∀ k, (c.apply op).1.Known k ↔ c.Known k ∨ op.covers k) ∧
        ((∃ k, op.covers k ∧ ¬c.Known k) → (c.apply op).2 = true) ∧
        ((c.apply op).2 = false → (c.apply op).1 = c) ∧
        ∀ key value, op = .insertKey key value → ((c.apply op).2 = true ↔ ¬c.Known key) := by
  have hops : ∀ op ∈ [SnapshotOp.insertRange ⟨[1], [3], by decide⟩ [⟨[2], [7]⟩], .insertKey [5] none],
      op.Faithful fun k => if k = [2] then some ([7] : Value) else none := by
    intro op hop
    rcases List.mem_pair.mp hop with rfl | rfl
    · refine ⟨by decide, by decide, List.pairwise_singleton _ _, fun ⟨key, value⟩ => ?_⟩
      simp only [List.mem_singleton, KeyValueRef.mk.injEq, KeyRangeRef.contains]
      constructor
      · rintro ⟨rfl, rfl⟩
        exact ⟨by decide, by simp⟩
      · rintro ⟨-, h⟩
        split_ifs at h with hk
        exact ⟨hk, (Option.some_inj.mp h).symm⟩
    · exact ⟨by decide, rfl⟩
  exact ⟨hops, insert_keeps_partialView _ _ hops⟩

/-- Inserting a range a second time returns `true` and leaves the cache as it was: the call
says it inserted although no key became known. -/
theorem insertRange_again_returns_true :
    (∀ op ∈ [SnapshotOp.insertRange ⟨[1], [3], by decide⟩ [], .insertRange ⟨[1], [3], by decide⟩ []],
        op.Faithful fun _ => none) ∧
      (init.run [.insertRange ⟨[1], [3], by decide⟩ []]).insertRange ⟨[1], [3], by decide⟩ [] =
        (init.run [.insertRange ⟨[1], [3], by decide⟩ []], true) := by
  refine ⟨fun op hop => ?_, by decide⟩
  rcases List.mem_pair.mp hop with rfl | rfl <;>
    exact ⟨by decide, by decide, List.Pairwise.nil, fun kv => by simp⟩

end Runs

end SnapshotCache

end FoundationDB.RYW
