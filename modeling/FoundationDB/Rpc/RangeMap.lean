import FoundationDB.Library.Keyed
import Mathlib.Data.List.GetD

/-! The range map of `RangeMap.h`. Its `Map` is the ordered map of `IndexedSet.h`, here the
list of its pairs in key order; an iterator is a position in that list, and dereferencing
one reads the pair there (`getD` only stands for the read). A range map keeps a pair at each
boundary: a key's value is that of the last boundary at or before it, and the last pair only
ends the range before it. -/

namespace FoundationDB

structure MapPair (κ V : Type) where
  key : κ
  value : V
deriving DecidableEq, Inhabited

namespace Map

variable {κ V : Type} [LinearOrder κ]

/-- `lower_bound(k)`: the position of the first pair whose key is at least `k`. -/
def lowerBound (m : List (MapPair κ V)) (k : κ) : ℕ := (m.takeWhile fun p => p.key < k).length

/-- `lastLessOrEqual(k)`: the position of the last pair whose key is at most `k`, or the end
when there is none. -/
def lastLessOrEqual (m : List (MapPair κ V)) (k : κ) : ℕ :=
  match (m.takeWhile fun p => p.key ≤ k).length with
  | 0 => m.length
  | n + 1 => n

/-- `erase(begin, end)`, for `begin` not after `end`, as `IndexedSet::erase` asserts. -/
def erase (m : List (MapPair κ V)) (b e : ℕ) : List (MapPair κ V) := m.take b ++ m.drop e

/-- `insert(p, true)`: the pair replaces the one with its key. -/
def insert (m : List (MapPair κ V)) (p : MapPair κ V) : List (MapPair κ V) :=
  Keyed.insert MapPair.key (Keyed.eraseKey MapPair.key m p.key) p

section Positions

/-! In a sorted map a position is before `lower_bound(k)` exactly when its key is below `k`,
and `lastLessOrEqual(k)` holds the last pair at or before `k`. -/

variable {m : List (MapPair κ V)} {k : κ}

lemma lt_lowerBound_iff (hs : Keyed.Sorted MapPair.key m) {j : ℕ} (hj : j < m.length) :
    j < lowerBound m k ↔ m[j].key < k :=
  hs.lt_length_takeWhile_iff (p := (· < k)) (fun _ _ hab hb => hab.trans hb) hj

lemma lowerBound_mono {a b : κ} (hab : a ≤ b) (m : List (MapPair κ V)) :
    lowerBound m a ≤ lowerBound m b := by
  induction m with
  | nil => simp [lowerBound]
  | cons p m ih =>
    simp only [lowerBound, List.takeWhile_cons] at ih ⊢
    by_cases ha : p.key < a
    · simp [ha, ha.trans_le hab, ih]
    · simp [ha]

lemma lowerBound_lt_length (hs : Keyed.Sorted MapPair.key m) {p : MapPair κ V} (hp : p ∈ m)
    (hk : k ≤ p.key) : lowerBound m k < m.length := by
  obtain ⟨n, hn, rfl⟩ := List.getElem_of_mem hp
  have : ¬n < lowerBound m k := fun h => absurd ((lt_lowerBound_iff hs hn).mp h) (not_lt.mpr hk)
  omega

lemma lowerBound_pos (hs : Keyed.Sorted MapPair.key m) {p : MapPair κ V} (hp : p ∈ m)
    (hk : p.key < k) : 0 < lowerBound m k := by
  obtain ⟨n, hn, rfl⟩ := List.getElem_of_mem hp
  have := (lt_lowerBound_iff hs hn).mpr hk
  omega

lemma key_lt_of_mem_take (hs : Keyed.Sorted MapPair.key m) {n : ℕ} (hn : n ≤ lowerBound m k)
    {y : MapPair κ V} (hy : y ∈ m.take n) : y.key < k := by
  obtain ⟨t, ht, rfl⟩ := List.getElem_of_mem hy
  have ht' : t < n ∧ t < m.length := by simpa using ht
  rw [List.getElem_take]
  exact (lt_lowerBound_iff hs ht'.2).mp (by omega)

lemma le_key_of_mem_drop (hs : Keyed.Sorted MapPair.key m) {n : ℕ} (hn : lowerBound m k ≤ n)
    {y : MapPair κ V} (hy : y ∈ m.drop n) : k ≤ y.key := by
  obtain ⟨t, ht, rfl⟩ := List.getElem_of_mem hy
  have ht' : n + t < m.length := by simp only [List.length_drop] at ht; omega
  rw [List.getElem_drop]
  exact not_lt.mp fun h => by have := (lt_lowerBound_iff hs ht').mpr h; omega

lemma lowerBound_append {l₁ l₂ : List (MapPair κ V)} (h₁ : ∀ y ∈ l₁, y.key < k)
    (h₂ : ∀ y ∈ l₂, k ≤ y.key) : lowerBound (l₁ ++ l₂) k = l₁.length := by
  have hpos : ∀ y ∈ l₁, decide (y.key < k) = true := fun y hy => by simpa using h₁ y hy
  rw [lowerBound, List.takeWhile_append_of_pos hpos, List.length_append]
  cases l₂ with
  | nil => simp
  | cons z l₂ =>
    rw [List.takeWhile_cons_of_neg (by simpa using h₂ z List.mem_cons_self)]
    simp

lemma exists_split (hs : Keyed.Sorted MapPair.key m) {a b : κ} (hab : a ≤ b) :
    ∃ A M C, m = A ++ M ++ C ∧ (∀ y ∈ A, y.key < a) ∧ (∀ y ∈ M, a ≤ y.key ∧ y.key < b) ∧
      ∀ y ∈ C, b ≤ y.key := by
  have hij := lowerBound_mono hab m
  refine ⟨m.take (lowerBound m a), (m.take (lowerBound m b)).drop (lowerBound m a),
    m.drop (lowerBound m b), ?_, fun y hy => key_lt_of_mem_take hs le_rfl hy, fun y hy => ⟨?_, ?_⟩,
    fun y hy => le_key_of_mem_drop hs le_rfl hy⟩
  · have htt : m.take (lowerBound m a) = (m.take (lowerBound m b)).take (lowerBound m a) := by
      rw [List.take_take, Nat.min_eq_left hij]
    rw [htt, List.take_append_drop, List.take_append_drop]
  · rw [List.drop_take] at hy
    exact le_key_of_mem_drop hs le_rfl (List.mem_of_mem_take hy)
  · exact key_lt_of_mem_take hs le_rfl (List.mem_of_mem_drop hy)

omit [LinearOrder κ] in
lemma erase_append (A M C : List (MapPair κ V)) :
    erase (A ++ M ++ C) A.length (A ++ M).length = A ++ C := by
  rw [erase, List.drop_left' rfl, List.append_assoc, List.take_left' rfl]

lemma insert_append {l₁ l₂ : List (MapPair κ V)} {p : MapPair κ V}
    (h₁ : ∀ y ∈ l₁, y.key < p.key) (h₂ : ∀ y ∈ l₂, p.key < y.key) :
    insert (l₁ ++ l₂) p = l₁ ++ p :: l₂ :=
  Keyed.insert_eraseKey_append h₁ h₂

lemma lastLessOrEqual_add_one (hs : Keyed.Sorted MapPair.key m) {p : MapPair κ V} (hp : p ∈ m)
    (hk : p.key ≤ k) : lastLessOrEqual m k + 1 = (m.takeWhile fun p => p.key ≤ k).length := by
  obtain ⟨t, ht, rfl⟩ := List.getElem_of_mem hp
  have := (hs.key_le_iff_lt_length_takeWhile ht).mp hk
  unfold lastLessOrEqual
  split <;> omega

lemma le_lastLessOrEqual_iff (hs : Keyed.Sorted MapPair.key m) {p : MapPair κ V} (hp : p ∈ m)
    (hk : p.key ≤ k) {j : ℕ} (hj : j < m.length) : j ≤ lastLessOrEqual m k ↔ m[j].key ≤ k := by
  rw [hs.key_le_iff_lt_length_takeWhile hj, ← lastLessOrEqual_add_one hs hp hk]
  omega

lemma lastLessOrEqual_lt_length (hs : Keyed.Sorted MapPair.key m) {p : MapPair κ V} (hp : p ∈ m)
    (hk : p.key ≤ k) : lastLessOrEqual m k < m.length := by
  have h := lastLessOrEqual_add_one hs hp hk
  have := (List.takeWhile_sublist (fun p : MapPair κ V => decide (p.key ≤ k)) (l := m)).length_le
  omega

lemma getD_lastLessOrEqual [Inhabited κ] [Inhabited V] (hs : Keyed.Sorted MapPair.key m) (k : κ) :
    m.getD (lastLessOrEqual m k) default = (Keyed.lastLE MapPair.key m k).getD default := by
  unfold lastLessOrEqual
  split
  · -- no pair is at or before `k`
    rename_i h
    have hnone : Keyed.lastLE MapPair.key m k = none := by
      rw [Keyed.lastLE_eq_none_iff]
      intro y hy
      obtain ⟨n, hn, rfl⟩ := List.getElem_of_mem hy
      exact not_le.mp fun hle => by have := (hs.key_le_iff_lt_length_takeWhile hn).mp hle; omega
    rw [hnone, List.getD_eq_default _ _ le_rfl]
    rfl
  · rename_i n h
    have hn : n < m.length := by
      have := (List.takeWhile_sublist (fun p : MapPair κ V => decide (p.key ≤ k)) (l := m)).length_le
      omega
    have hle : m[n].key ≤ k := (hs.key_le_iff_lt_length_takeWhile hn).mpr (by omega)
    have hnext : ∀ h : n + 1 < m.length, k < m[n + 1].key := fun h1 =>
      not_le.mp fun hle => by have := (hs.key_le_iff_lt_length_takeWhile h1).mp hle; omega
    rw [List.getD_eq_getElem _ _ hn, hs.lastLE_getElem hn hle hnext]
    rfl

end Positions

end Map

structure RangeMapRange (κ : Type) where
  begin : κ
  «end» : κ

structure RangeMap (κ V : Type) where
  map : List (MapPair κ V)

namespace RangeMap

variable {κ V : Type} [LinearOrder κ] [Inhabited κ] [Inhabited V] [DecidableEq V]

/-- `RangeMap(endKey, v)`: the range from `Key()` to `endKey` holds `v`. -/
def init (endKey : κ) (v : V := default) : RangeMap κ V :=
  ⟨Map.insert (Map.insert [] ⟨default, v⟩) ⟨endKey, default⟩⟩

/-- `operator[]`: the value of `rangeContaining(k)`. -/
def get (r : RangeMap κ V) (k : κ) : V :=
  (r.map.getD (Map.lastLessOrEqual r.map k) default).value

/-- `intersectingRanges(keys)`: the ranges from `rangeContaining(keys.begin)` up to the pair at
`lower_bound(keys.end)`, each with its value; the range at a position ends at the next pair. -/
def intersectingRanges (r : RangeMap κ V) (keys : RangeMapRange κ) : List (RangeMapRange κ × V) :=
  let b := Map.lastLessOrEqual r.map keys.begin
  (List.range' b (Map.lowerBound r.map keys.end - b)).map fun i =>
    (⟨(r.map.getD i default).key, (r.map.getD (i + 1) default).key⟩, (r.map.getD i default).value)

def insert (r : RangeMap κ V) (keys : RangeMapRange κ) (value : V) : RangeMap κ V :=
  if keys.begin = keys.end then r
  else
    let e := Map.lowerBound r.map keys.end
    -- without a boundary at `keys.end`, one is added with the value the range before it holds
    let map :=
      if (r.map.getD e default).key ≠ keys.end then
        Map.insert r.map ⟨keys.end, (r.map.getD (e - 1) default).value⟩
      else r.map
    let e := Map.lowerBound map keys.end
    let b := Map.lowerBound map keys.begin
    ⟨Map.insert (Map.erase map b e) ⟨keys.begin, value⟩⟩

/-- The first loop of `coalesce(k)`: back from position `i` while the pair holds
`compareVal`, down to the first pair. -/
def coalesceBegin (m : List (MapPair κ V)) (compareVal : V) : ℕ → ℕ
  | 0 => 0
  | i + 1 =>
    if (m.getD (i + 1) default).value = compareVal then coalesceBegin m compareVal i else i + 1

/-- The second loop: on from position `i` while the pair holds `compareVal`, up to the last
item (`i + 1 < m.length` is `end != map.lastItem()` for a position before the end). -/
def coalesceEnd (m : List (MapPair κ V)) (compareVal : V) (i : ℕ) : ℕ :=
  if i + 1 < m.length ∧ (m.getD i default).value = compareVal then coalesceEnd m compareVal (i + 1)
  else i
termination_by m.length - i

/-- `coalesce(k)`: of the run of pairs around `rangeContaining(k)` that hold its value, the
first is kept and the others before the last item erased. `none` is a failed assertion:
`ASSERT(begin != map.end())`, or that of `IndexedSet::erase`, which a map of one pair fails. -/
def coalesce (r : RangeMap κ V) (k : κ) : Option (RangeMap κ V) :=
  let i := Map.lastLessOrEqual r.map k
  let compareVal := (r.map.getD i default).value
  if i = r.map.length then none
  else
    let b := coalesceBegin r.map compareVal i
    let e := coalesceEnd r.map compareVal i
    if (r.map.getD b default).value ≠ compareVal then
      if b + 1 = e then some r else some ⟨Map.erase r.map (b + 2) e⟩
    -- `erase(begin, end)` asserts that `begin` is not after `end`
    else if e < b + 1 ∧ e < r.map.length then none
    else some ⟨Map.erase r.map (b + 1) e⟩

/-- The loop of `coalesce(Range)` from position `it`: a pair that holds `lastVal`, the value
of the pair kept before it, is erased; any other is kept and its value is the next
`lastVal`. The loop stops at the last item, or after keeping a pair whose key is not below
`kEnd`. -/
def coalesceLoop (kEnd : κ) (m : List (MapPair κ V)) (it : ℕ) (lastVal : V) (doCheck : Bool) :
    List (MapPair κ V) :=
  if h : it + 1 < m.length ∧ doCheck then
    let p := m.getD it default
    if p.value = lastVal then coalesceLoop kEnd (m.eraseIdx it) it lastVal true
    else coalesceLoop kEnd m (it + 1) p.value (decide (p.key < kEnd))
  else m
termination_by m.length - it
decreasing_by
  all_goals
    try rw [List.length_eraseIdx, if_pos (by omega)]
    omega

/-- `coalesce(Range)`; `validateCoalesced` runs only under `EXPENSIVE_VALIDATION`. -/
def coalesceRange (r : RangeMap κ V) (k : RangeMapRange κ) : Option (RangeMap κ V) := do
  let r ← r.coalesce k.begin
  let it := Map.lastLessOrEqual r.map k.begin
  if it + 1 = r.map.length then pure r
  else pure ⟨coalesceLoop k.end r.map (it + 1) (r.map.getD it default).value true⟩

/-- The assertions of `validateCoalesced` hold: no pair before the last item holds the value
of the pair before it. -/
def validateCoalesced (r : RangeMap κ V) : Prop :=
  r.map.dropLast.IsChain fun a b => b.value ≠ a.value

instance (r : RangeMap κ V) : Decidable r.validateCoalesced :=
  inferInstanceAs (Decidable (List.IsChain _ _))

end RangeMap

end FoundationDB
