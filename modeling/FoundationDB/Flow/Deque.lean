import FoundationDB.Library.RingBuffer
import FoundationDB.Library.Simulation

/-! `Deque<T>` (`flow/Deque.h`): a double-ended queue in a ring of `capacity() = mask + 1`
slots, addressed by the 32-bit counters `begin` and `end` masked by `mask`. The empty deque
has no array and `mask = -1`, so its capacity wraps to zero. `grow` doubles the capacity, or
makes it 8 the first time, and moves the elements to the start of the new array.

The array is read as a function from slot numbers. A slot where no element was placed holds
`default`, which stands for the uninitialised memory `aligned_alloc` returns. The
destructors the operations run change nothing the model reads. -/

namespace FoundationDB.Flow

structure Deque (α : Type) where
  arr : Option (ℕ → α)
  begin : UInt32
  «end» : UInt32
  mask : UInt32

namespace Deque

variable {α : Type}

/-- `Deque()`: no array, `mask(-1)`. -/
def empty : Deque α := ⟨none, 0, 0, -1⟩

def size (d : Deque α) : UInt32 := d.end - d.begin

/-- `empty()`. -/
def isEmpty (d : Deque α) : Bool := d.end == d.begin

def capacity (d : Deque α) : UInt32 := d.mask + 1

def maxSize : UInt32 := (1 : UInt32) <<< 30

def full (d : Deque α) : Bool := d.end == d.begin + d.mask + 1

/-- `pop_back()`; `ASSERT(!empty())` throws. -/
def popBack (d : Deque α) : Option (Deque α) :=
  if d.isEmpty then none else some { d with «end» := d.end - 1 }

/-- `pop_front()`: past the last slot, both counters go back a turn. -/
def popFront (d : Deque α) : Option (Deque α) :=
  if d.isEmpty then none
  else if d.begin == d.mask then
    some { d with begin := d.begin - d.mask, «end» := d.end - (d.mask + 1) }
  else some { d with begin := d.begin + 1 }

def clear (d : Deque α) : Deque α := { d with begin := 0, «end» := 0 }

section Reads

variable [Inhabited α]

/-- `arr[n]`. -/
def read (d : Deque α) (n : ℕ) : α :=
  match d.arr with
  | some a => a n
  | none => default

/-- `operator[](i)`: `arr[(begin + i) & mask]`. -/
def get (d : Deque α) (i : UInt32) : α := d.read ((d.begin + i) &&& d.mask).toNat

def front (d : Deque α) : α := d.read d.begin.toNat

def back (d : Deque α) : α := d.read ((d.end - 1) &&& d.mask).toNat

/-- The elements, as `operator[]` reads them for `0 <= i < size()`. -/
def toList (d : Deque α) : List α :=
  (List.range d.size.toNat).map fun i => d.get i.toUInt32

/-- `grow()`: the capacity doubles, or becomes 8 when there is no array; it throws
`std::bad_alloc` when that passes `max_size()`. The elements move to the start of a new
array, and `begin` becomes 0. -/
def grow (d : Deque α) : Option (Deque α) :=
  let mp1 : ℕ := if d.arr.isSome then d.mask.toNat + 1 else 4
  let newSize := mp1 * 2
  if newSize > maxSize.toNat then none
  else
    -- for (i = begin; i != end; i++) new (&newArr[i - begin]) T(arr[i & mask])
    let newArr := (RingBuffer.copy (fun j => d.read ((d.begin + j.toUInt32) &&& d.mask).toNat)
      0 d.size.toNat (fun _ => default) 0).1
    some { arr := some newArr, begin := 0, «end» := d.end - d.begin, mask := (newSize - 1).toUInt32 }

/-- What `push_back` and `emplace_back` share: grow when full, then place the value at
`end & mask`. -/
def placeBack (d : Deque α) (val : α) : Option (Deque α) := do
  let d ← if d.full then d.grow else some d
  some { d with arr := d.arr.map (Function.update · (d.end &&& d.mask).toNat val) }

def pushBack (d : Deque α) (val : α) : Option (Deque α) := do
  let d ← d.placeBack val
  some { d with «end» := d.end + 1 }

/-- `emplace_back(val)`, with the element its reference points at. -/
def emplaceBack (d : Deque α) (val : α) : Option (α × Deque α) := do
  let d ← d.placeBack val
  some (d.read (d.end &&& d.mask).toNat, { d with «end» := d.end + 1 })

/-- The copy in `Deque(Deque const& r)` and `operator=(Deque const& r)`: `r`'s elements go, in
order, to the slots of `dst` from 0 on. When `r`'s ring wraps past the end of its array, the
copy is made in two parts. -/
def copyElements (r : Deque α) (dst : ℕ → α) : ℕ → α :=
  if r.end < r.capacity then (RingBuffer.copy r.read r.begin.toNat (r.begin + r.size).toNat dst 0).1
  else
    let (partOne, partTwo) := RingBuffer.copy r.read r.begin.toNat r.capacity.toNat dst 0
    (RingBuffer.copy r.read 0 (r.end &&& r.mask).toNat partOne partTwo).1

/-- The body of `Deque(Deque const& r)`, and of `operator=(Deque const& r)` after `cleanup()`,
run on the deque `s` being built. `r s` is the source as it reads once `s` has changed. That is
one fixed deque, or `s` itself when a deque is assigned to itself. -/
def copyFrom (s : Deque α) (r : Deque α → Deque α) : Option (Deque α) :=
  -- arr = nullptr; begin = 0; end = r.size(); mask = r.mask; a new array if r has one
  let s := { s with arr := none, begin := 0 }
  let s := { s with «end» := (r s).size }
  let s := { s with mask := (r s).mask }
  let s := { s with arr := if 0 < (r s).capacity then some fun _ => default else none }
  -- ASSERT(capacity() >= end || end == 0)
  if !(decide (s.end ≤ s.capacity) || s.end == 0) then none
  else some { s with arr := s.arr.map fun _ => (r s).copyElements s.read }

/-- `Deque(Deque const& r)`. -/
def copy (r : Deque α) : Option (Deque α) := copyFrom empty fun _ => r

end Reads

section Counters

lemma toNat_add_of_lt {a b : UInt32} (h : a.toNat + b.toNat < 2 ^ 32) :
    (a + b).toNat = a.toNat + b.toNat := by
  rw [UInt32.toNat_add, Nat.mod_eq_of_lt h]

lemma toNat_size {d : Deque α} (h : d.begin ≤ d.end) : d.size.toNat = d.end.toNat - d.begin.toNat :=
  UInt32.toNat_sub_of_le _ _ h

lemma toNat_capacity {d : Deque α} (h : 0 < d.capacity.toNat) :
    d.capacity.toNat = d.mask.toNat + 1 := by
  have hcap : d.capacity.toNat = (d.mask.toNat + 1) % 2 ^ 32 := by
    simp [capacity, UInt32.toNat_add]
  have := d.mask.toNat_lt
  rw [hcap] at h ⊢
  by_cases hm : d.mask.toNat + 1 < 2 ^ 32
  · exact Nat.mod_eq_of_lt hm
  · rw [show d.mask.toNat + 1 = 2 ^ 32 by omega, Nat.mod_self] at h
    exact absurd h (lt_irrefl 0)

@[simp] lemma isEmpty_eq_true {d : Deque α} : d.isEmpty = true ↔ d.end = d.begin := by
  simp [isEmpty]

end Counters

/-- The representation invariant. The capacity is zero, with no array, or a power of two from
8 to `max_size()`. When there is an array, `begin` is one of its slots. `end` is at most a turn
past `begin`. -/
structure Inv (d : Deque α) : Prop where
  capacity_pow : d.capacity = 0 ∨ ∃ k, 3 ≤ k ∧ k ≤ 30 ∧ d.capacity.toNat = 2 ^ k
  arr_isSome : d.arr.isSome ↔ 0 < d.capacity
  begin_lt : 0 < d.capacity → d.begin < d.capacity
  begin_eq : d.capacity = 0 → d.begin = 0
  begin_le_end : d.begin ≤ d.end
  end_le : d.end.toNat ≤ d.begin.toNat + d.capacity.toNat

namespace Inv

variable {d : Deque α} (h : d.Inv)
include h

lemma bounds : d.capacity.toNat ≤ 2 ^ 30 ∧ d.begin.toNat ≤ d.end.toNat ∧
    d.end.toNat ≤ d.begin.toNat + d.capacity.toNat ∧
    (d.capacity.toNat = 0 → d.begin.toNat = 0) ∧
    (0 < d.capacity.toNat → d.begin.toNat < d.capacity.toNat) := by
  refine ⟨?_, UInt32.le_iff_toNat_le.mp h.begin_le_end, h.end_le, fun h0 => ?_, fun hpos => ?_⟩
  · rcases h.capacity_pow with h0 | ⟨k, -, hk, hcap⟩
    · simp [h0]
    · rw [hcap]
      exact Nat.pow_le_pow_right (by norm_num) hk
  · rw [h.begin_eq (UInt32.toNat_inj.mp (by simpa using h0)), UInt32.toNat_zero]
  · exact UInt32.lt_iff_toNat_lt.mp (h.begin_lt (UInt32.lt_iff_toNat_lt.mpr hpos))

lemma toNat_size : d.size.toNat = d.end.toNat - d.begin.toNat :=
  Deque.toNat_size h.begin_le_end

lemma toNat_and_mask (hc : 0 < d.capacity.toNat) (x : UInt32) :
    (x &&& d.mask).toNat = x.toNat % d.capacity.toNat := by
  rcases h.capacity_pow with h0 | ⟨k, -, -, hk⟩
  · simp [h0] at hc
  · rw [hk, UInt32.toNat_and_eq_mod x (k := k) (by rw [← toNat_capacity hc, hk])]

variable [Inhabited α]

lemma get_eq {i : ℕ} (hi : i < d.size.toNat) :
    d.get i.toUInt32 = d.read ((d.begin.toNat + i) % d.capacity.toNat) := by
  obtain ⟨hle, hbe, heb, hzero, hlt⟩ := h.bounds
  rw [h.toNat_size] at hi
  have hi' : i.toUInt32.toNat = i := by
    rw [Nat.toUInt32_eq, UInt32.toNat_ofNat', Nat.mod_eq_of_lt (by omega)]
  have hsum : (d.begin + i.toUInt32).toNat = d.begin.toNat + i := by
    rw [toNat_add_of_lt (by omega), hi']
  rw [get, h.toNat_and_mask (by omega), hsum]

lemma toList_eq : d.toList = RingBuffer.view d.read d.capacity.toNat d.begin.toNat d.size.toNat :=
  List.map_congr_left fun _ hi => h.get_eq (List.mem_range.mp hi)

end Inv

section Shape

variable {d : Deque α}

@[simp] lemma size_mk (a : Option (ℕ → α)) (b e m : UInt32) : (⟨a, b, e, m⟩ : Deque α).size = e - b :=
  rfl

@[simp] lemma capacity_mk (a : Option (ℕ → α)) (b e m : UInt32) :
    (⟨a, b, e, m⟩ : Deque α).capacity = m + 1 := rfl

lemma capacity_empty : (empty : Deque α).capacity = 0 := show (-1 : UInt32) + 1 = 0 by decide

lemma inv_empty : (empty : Deque α).Inv where
  capacity_pow := .inl capacity_empty
  arr_isSome := by rw [capacity_empty]; simp [empty]
  begin_lt h := absurd h (by simp [capacity_empty])
  begin_eq _ := rfl
  begin_le_end := UInt32.le_iff_toNat_le.mpr (Nat.le_refl _)
  end_le := by simp [empty]

lemma Inv.full_iff (h : d.Inv) : d.full = true ↔ d.size.toNat = d.capacity.toNat := by
  obtain ⟨hle, hbe, heb, hzero, hlt⟩ := h.bounds
  have hassoc : d.begin + d.mask + 1 = d.begin + d.capacity := by rw [capacity, add_assoc]
  rw [full, hassoc, beq_iff_eq, ← UInt32.toNat_inj, toNat_add_of_lt (by omega), h.toNat_size]
  omega

lemma Inv.grow_size (h : d.Inv) (hfull : d.size.toNat = d.capacity.toNat)
    (hsize : d.size.toNat < 2 ^ 30) : ∃ k, 3 ≤ k ∧ k ≤ 30 ∧
      (if d.arr.isSome then d.mask.toNat + 1 else 4) * 2 = 2 ^ k ∧ d.capacity.toNat < 2 ^ k := by
  rcases h.capacity_pow with h0 | ⟨k, hk3, -, hk⟩
  · have hnone : d.arr.isSome = false := by simpa [h0] using h.arr_isSome
    exact ⟨3, le_rfl, by norm_num, by simp [hnone], by simp [h0]⟩
  · have hpos : 0 < d.capacity.toNat := by rw [hk]; positivity
    have hsome : d.arr.isSome = true := h.arr_isSome.mpr (UInt32.lt_iff_toNat_lt.mpr hpos)
    -- a full deque below `max_size()` elements has a capacity below it
    have hk' : k < 30 := by
      have : 2 ^ k < 2 ^ 30 := by rw [← hk, ← hfull]; exact hsize
      exact (Nat.pow_lt_pow_iff_right (by norm_num)).mp this
    refine ⟨k + 1, by omega, by omega, ?_, ?_⟩
    · rw [if_pos hsome, ← toNat_capacity hpos, hk, pow_succ]
    · rw [hk]
      exact Nat.pow_lt_pow_right (by norm_num) (by omega)

lemma toNat_capacity_of_pow {d : Deque α} {k : ℕ} (hk : k ≤ 30) (hm : d.mask = (2 ^ k - 1).toUInt32) :
    d.capacity.toNat = 2 ^ k := by
  have hpos : 0 < 2 ^ k := by positivity
  have hle : 2 ^ k ≤ 2 ^ 30 := Nat.pow_le_pow_right (by norm_num) hk
  simp only [capacity, hm, UInt32.toNat_add, Nat.toUInt32_eq, UInt32.toNat_ofNat', UInt32.toNat_one]
  omega

lemma Inv.of_counters (h : d.Inv) {d' : Deque α} (harr : d'.arr.isSome = d.arr.isSome)
    (hmask : d'.mask = d.mask) (hbegin : 0 < d.capacity.toNat → d'.begin.toNat < d.capacity.toNat)
    (hzero : d.capacity.toNat = 0 → d'.begin = 0) (hle : d'.begin.toNat ≤ d'.end.toNat)
    (hend : d'.end.toNat ≤ d'.begin.toNat + d.capacity.toNat) : d'.Inv := by
  have hcap : d'.capacity = d.capacity := by rw [capacity, capacity, hmask]
  refine ⟨hcap ▸ h.capacity_pow, by rw [harr, hcap]; exact h.arr_isSome, fun hc => ?_,
    fun hc => hzero (by rw [← hcap, hc]; rfl), UInt32.le_iff_toNat_le.mpr hle, hcap ▸ hend⟩
  rw [hcap] at hc ⊢
  exact UInt32.lt_iff_toNat_lt.mpr (hbegin (UInt32.lt_iff_toNat_lt.mp hc))

end Shape

section Operations

variable [Inhabited α] {d : Deque α}

lemma read_update (hd : d.arr.isSome) (n : ℕ) (v : α) :
    ({ d with arr := d.arr.map (Function.update · n v) } : Deque α).read =
      Function.update d.read n v := by
  obtain ⟨a, ha⟩ := Option.isSome_iff_exists.mp hd
  have hread : d.read = a := funext fun m => by simp [read, ha]
  funext m
  simp [read, ha, hread]

@[simp] lemma toList_empty : (empty : Deque α).toList = [] := by simp [toList, empty, size]

lemma Inv.grow (h : d.Inv) (hfull : d.size.toNat = d.capacity.toNat) (hsize : d.size.toNat < 2 ^ 30) :
    ∃ d', d.grow = some d' ∧ d'.Inv ∧ d'.toList = d.toList ∧ d'.size.toNat < d'.capacity.toNat := by
  obtain ⟨hle, hbe, heb, hzero, hlt⟩ := h.bounds
  obtain ⟨k, hk3, hk30, hnew, hlt'⟩ := h.grow_size hfull hsize
  have hmax : ¬ 2 ^ k > maxSize.toNat := by
    rw [show maxSize.toNat = 2 ^ 30 by decide, gt_iff_lt, not_lt]
    exact Nat.pow_le_pow_right (by norm_num) hk30
  let d' : Deque α :=
    { arr := some (RingBuffer.copy (fun j => d.read ((d.begin + j.toUInt32) &&& d.mask).toNat)
        0 d.size.toNat (fun _ => default) 0).1
      begin := 0, «end» := d.end - d.begin, mask := (2 ^ k - 1).toUInt32 }
  have hgrow : d.grow = some d' := by
    unfold Deque.grow
    dsimp only
    rw [hnew, if_neg hmax]
  have hcap : d'.capacity.toNat = 2 ^ k := toNat_capacity_of_pow hk30 rfl
  have hsize' : d'.size = d.size := by simp [d', size]
  have hpos : 0 < d'.capacity := UInt32.lt_iff_toNat_lt.mpr (by rw [hcap]; positivity)
  have hinv : d'.Inv :=
    { capacity_pow := .inr ⟨k, hk3, hk30, hcap⟩
      arr_isSome := by simpa [d'] using hpos
      begin_lt := fun hc => hc
      begin_eq := fun hc => absurd hc (UInt32.pos_iff_ne_zero.mp hpos)
      begin_le_end := UInt32.le_iff_toNat_le.mpr (Nat.zero_le _)
      end_le := by
        rw [show d'.end = d.size from rfl, hcap, h.toNat_size]
        simp only [d', UInt32.toNat_zero, Nat.zero_add]
        omega }
  refine ⟨d', hgrow, hinv, ?_, ?_⟩
  · -- slot `i` of the new array holds the old element `i`
    unfold toList
    rw [hsize']
    refine List.map_congr_left fun i hi => ?_
    have hi : i < d.size.toNat := List.mem_range.mp hi
    rw [hinv.get_eq (by rwa [hsize']), hcap, show d'.begin.toNat = 0 from rfl, Nat.zero_add,
      Nat.mod_eq_of_lt (by omega)]
    have hcopy := @RingBuffer.copy_apply_of_lt α
      (fun j => d.read ((d.begin + j.toUInt32) &&& d.mask).toNat) 0 d.size.toNat
      (fun _ => default) 0 i (by omega)
    rw [Nat.zero_add] at hcopy
    exact hcopy
  · rw [hsize', hcap]
    omega

lemma Inv.growIfFull (h : d.Inv) (hsize : d.size.toNat < 2 ^ 30) :
    ∃ d', (if d.full then d.grow else some d) = some d' ∧ d'.Inv ∧ d'.toList = d.toList ∧
      d'.size.toNat < d'.capacity.toNat := by
  by_cases hfull : d.full = true
  · rw [if_pos hfull]
    exact h.grow (h.full_iff.mp hfull) hsize
  · rw [if_neg hfull]
    obtain ⟨-, hbe, heb, -, -⟩ := h.bounds
    have hne := h.full_iff.not.mp hfull
    rw [h.toNat_size] at hne
    exact ⟨d, rfl, h, rfl, by rw [h.toNat_size]; omega⟩

lemma Inv.placeBack (h : d.Inv) (hsize : d.size.toNat < 2 ^ 30) (val : α) :
    ∃ d', d.placeBack val = some d' ∧ d'.read (d'.end &&& d'.mask).toNat = val ∧
      ({ d' with «end» := d'.end + 1 } : Deque α).Inv ∧
      ({ d' with «end» := d'.end + 1 } : Deque α).toList = d.toList ++ [val] := by
  obtain ⟨d1, hd1, h1, hl1, hroom⟩ := h.growIfFull hsize
  obtain ⟨hle, hbe, heb, hzero, hlt⟩ := h1.bounds
  rw [h1.toNat_size] at hroom
  have hc : 0 < d1.capacity.toNat := by omega
  have hsome : d1.arr.isSome := h1.arr_isSome.mpr (UInt32.lt_iff_toNat_lt.mpr hc)
  -- the slot after the last element, free since there is room
  have hslot : (d1.end &&& d1.mask).toNat = (d1.begin.toNat + d1.size.toNat) % d1.capacity.toNat := by
    rw [h1.toNat_and_mask hc, h1.toNat_size]
    congr 1
    omega
  let d2 : Deque α := { d1 with arr := d1.arr.map (Function.update · (d1.end &&& d1.mask).toNat val) }
  let d3 : Deque α := { d2 with «end» := d2.end + 1 }
  have hread : d2.read = Function.update d1.read (d1.end &&& d1.mask).toNat val :=
    read_update hsome _ val
  have hend : d3.end.toNat = d1.end.toNat + 1 := by
    show (d1.end + 1).toNat = _
    rw [toNat_add_of_lt (by rw [UInt32.toNat_one]; omega), UInt32.toNat_one]
  have hinv : d3.Inv := h1.of_counters Option.isSome_map rfl hlt (fun h0 => by omega)
    (show d1.begin.toNat ≤ d3.end.toNat by rw [hend]; omega)
    (show d3.end.toNat ≤ d1.begin.toNat + d1.capacity.toNat by rw [hend]; omega)
  refine ⟨d2, ?_, by rw [hread, Function.update_self], hinv, ?_⟩
  · -- `placeBack` places the value in what `if (full()) grow()` left
    unfold Deque.placeBack
    by_cases hf : d.full = true
    · rw [if_pos hf] at hd1 ⊢
      rw [hd1]
      rfl
    · rw [if_neg hf] at hd1 ⊢
      obtain rfl := Option.some.inj hd1
      rfl
  have hsize3 : d3.size.toNat = d1.size.toNat + 1 := by
    rw [hinv.toNat_size, h1.toNat_size, hend]
    exact Nat.sub_add_comm hbe
  rw [hinv.toList_eq, hsize3, show d3.read = d2.read from rfl, show d3.capacity = d1.capacity from rfl,
    show d3.begin = d1.begin from rfl, hread, hslot,
    RingBuffer.view_update_push _ (by rw [h1.toNat_size]; omega), ← h1.toList_eq, hl1]

lemma Inv.length_toList (h : d.Inv) : d.toList.length = d.end.toNat - d.begin.toNat := by
  rw [toList, List.length_map, List.length_range, h.toNat_size]

lemma Inv.pushBack (h : d.Inv) (hsize : d.toList.length < 2 ^ 30) (val : α) :
    ∃ d', d.pushBack val = some d' ∧ d'.Inv ∧ d'.toList = d.toList ++ [val] := by
  rw [h.length_toList, ← h.toNat_size] at hsize
  obtain ⟨d2, hd2, -, hinv, hlist⟩ := h.placeBack hsize val
  exact ⟨_, by rw [Deque.pushBack, hd2]; rfl, hinv, hlist⟩

lemma Inv.emplaceBack (h : d.Inv) (hsize : d.toList.length < 2 ^ 30) (val : α) :
    ∃ d', d.emplaceBack val = some (val, d') ∧ d'.Inv ∧ d'.toList = d.toList ++ [val] := by
  rw [h.length_toList, ← h.toNat_size] at hsize
  obtain ⟨d2, hd2, hval, hinv, hlist⟩ := h.placeBack hsize val
  exact ⟨_, by rw [Deque.emplaceBack, hd2, ← hval]; rfl, hinv, hlist⟩

lemma Inv.popBack (h : d.Inv) (hne : d.toList ≠ []) :
    ∃ d', d.popBack = some d' ∧ d'.Inv ∧ d'.toList = d.toList.dropLast := by
  obtain ⟨hle, hbe, heb, hzero, hlt⟩ := h.bounds
  have hlen := h.length_toList
  have hpos : d.begin.toNat < d.end.toNat := by
    have := List.length_pos_iff.mpr hne
    omega
  have hnotEmpty : d.isEmpty = false := Bool.eq_false_iff.mpr fun he => by
    rw [isEmpty_eq_true] at he
    rw [he] at hpos
    exact lt_irrefl _ hpos
  let d' : Deque α := { d with «end» := d.end - 1 }
  have hend : d'.end.toNat = d.end.toNat - 1 :=
    UInt32.toNat_sub_of_le _ _ (UInt32.le_iff_toNat_le.mpr (by simp; omega))
  have hinv : d'.Inv := h.of_counters rfl rfl hlt (fun h0 => h.begin_eq (by simpa [← UInt32.toNat_inj] using h0))
    (show d.begin.toNat ≤ d'.end.toNat by omega) (show d'.end.toNat ≤ d.begin.toNat + d.capacity.toNat by omega)
  refine ⟨d', by simp [Deque.popBack, hnotEmpty, d'], hinv, ?_⟩
  -- the same ring, one element shorter
  have hsize : d.size.toNat = d'.size.toNat + 1 := by
    rw [h.toNat_size, hinv.toNat_size, hend]
    show _ = _ - d.begin.toNat + 1
    omega
  rw [h.toList_eq, hinv.toList_eq, hsize, RingBuffer.view_succ, List.dropLast_concat]
  rfl

lemma Inv.popFront (h : d.Inv) (hne : d.toList ≠ []) :
    ∃ d', d.popFront = some d' ∧ d'.Inv ∧ d'.toList = d.toList.tail := by
  obtain ⟨hle, hbe, heb, hzero, hlt⟩ := h.bounds
  have hlen := h.length_toList
  have hpos : d.begin.toNat < d.end.toNat := by
    have := List.length_pos_iff.mpr hne
    omega
  have hnotEmpty : d.isEmpty = false := Bool.eq_false_iff.mpr fun he => by
    rw [isEmpty_eq_true] at he
    rw [he] at hpos
    exact lt_irrefl _ hpos
  have hc : 0 < d.capacity.toNat := by omega
  have hmask := toNat_capacity hc
  -- the elements after the first: a ring one slot on
  have htail : d.toList.tail = RingBuffer.view d.read d.capacity.toNat (d.begin.toNat + 1)
      (d.size.toNat - 1) := by
    rw [h.toList_eq, show d.size.toNat = d.size.toNat - 1 + 1 by rw [h.toNat_size]; omega,
      RingBuffer.view_succ_head, List.tail_cons, Nat.add_sub_cancel]
  by_cases hwrap : d.begin = d.mask
  · -- the last slot: both counters go back a turn
    have hb : d.begin.toNat = d.capacity.toNat - 1 := by rw [hwrap]; omega
    let d' : Deque α := { d with begin := d.begin - d.mask, «end» := d.end - (d.mask + 1) }
    have hbegin : d'.begin.toNat = 0 := by
      show (d.begin - d.mask).toNat = 0
      rw [hwrap, UInt32.sub_self, UInt32.toNat_zero]
    have hend : d'.end.toNat = d.end.toNat - d.capacity.toNat :=
      UInt32.toNat_sub_of_le _ _ (UInt32.le_iff_toNat_le.mpr (by
        show d.capacity.toNat ≤ d.end.toNat
        omega))
    have hinv : d'.Inv := h.of_counters rfl rfl (fun _ => by omega) (fun h0 => by omega)
      (by omega) (by omega)
    refine ⟨d', by simp [Deque.popFront, hnotEmpty, hwrap, d'], hinv, ?_⟩
    rw [htail, hinv.toList_eq, show d.begin.toNat + 1 = 0 + d.capacity.toNat by omega,
      RingBuffer.view_add_cap, ← hbegin, hinv.toNat_size, hbegin, hend, h.toNat_size]
    congr 1
    omega
  · let d' : Deque α := { d with begin := d.begin + 1 }
    have hne' : d.begin.toNat ≠ d.mask.toNat := fun heq => hwrap (UInt32.toNat_inj.mp heq)
    have hbegin : d'.begin.toNat = d.begin.toNat + 1 := by
      show (d.begin + 1).toNat = _
      rw [toNat_add_of_lt (by rw [UInt32.toNat_one]; omega), UInt32.toNat_one]
    have hinv : d'.Inv := h.of_counters rfl rfl (fun _ => by rw [hbegin]; omega)
      (fun h0 => by omega) (show d'.begin.toNat ≤ d.end.toNat by rw [hbegin]; omega)
      (show d.end.toNat ≤ d'.begin.toNat + d.capacity.toNat by rw [hbegin]; omega)
    refine ⟨d', by simp [Deque.popFront, hnotEmpty, hwrap, d'], hinv, ?_⟩
    rw [htail, hinv.toList_eq, hbegin, hinv.toNat_size, hbegin, h.toNat_size]
    rfl

lemma Inv.clear (h : d.Inv) : d.clear.Inv ∧ d.clear.toList = [] := by
  obtain ⟨hle, hbe, heb, hzero, hlt⟩ := h.bounds
  refine ⟨h.of_counters rfl rfl (fun hc => by simpa [Deque.clear] using hc) (fun _ => rfl)
    (by simp [Deque.clear]) (by simp [Deque.clear]), ?_⟩
  simp [toList, Deque.clear, size]

lemma Inv.front_back (h : d.Inv) (hne : d.toList ≠ []) :
    d.toList.head? = some d.front ∧ d.toList.getLast? = some d.back := by
  obtain ⟨hle, hbe, heb, hzero, hlt⟩ := h.bounds
  have hlen := h.length_toList
  have hpos : d.begin.toNat < d.end.toNat := by
    have := List.length_pos_iff.mpr hne
    omega
  have hc : 0 < d.capacity.toNat := by omega
  have hsize : d.size.toNat = d.size.toNat - 1 + 1 := by rw [h.toNat_size]; omega
  constructor
  · rw [h.toList_eq, hsize, RingBuffer.view_succ_head, List.head?_cons, front,
      Nat.mod_eq_of_lt (hlt hc)]
  · have hlast : (d.end - 1).toNat = d.begin.toNat + (d.size.toNat - 1) := by
      rw [UInt32.toNat_sub_of_le _ _ (UInt32.le_iff_toNat_le.mpr (by simp; omega)),
        UInt32.toNat_one, h.toNat_size]
      omega
    rw [h.toList_eq, hsize, RingBuffer.view_succ, List.getLast?_concat, back,
      h.toNat_and_mask hc, hlast]

lemma Inv.copyElements_apply {r : Deque α} (h : r.Inv) (dst : ℕ → α) {i : ℕ}
    (hi : i < r.size.toNat) :
    r.copyElements dst i = r.read ((r.begin.toNat + i) % r.capacity.toNat) := by
  obtain ⟨hle, hbe, heb, hzero, hlt⟩ := h.bounds
  rw [h.toNat_size] at hi
  have hc : 0 < r.capacity.toNat := by omega
  have hB := hlt hc
  unfold copyElements
  by_cases hend : r.end < r.capacity
  · -- one part: the ring does not reach the end of the array
    rw [if_pos hend]
    have hend' := UInt32.lt_iff_toNat_lt.mp hend
    have hsum : (r.begin + r.size).toNat = r.end.toNat := by
      rw [toNat_add_of_lt (by rw [h.toNat_size]; omega), h.toNat_size]
      omega
    have hcopy := @RingBuffer.copy_apply_of_lt α r.read r.begin.toNat (r.begin + r.size).toNat dst 0 i
      (by rw [hsum]; omega)
    rw [Nat.zero_add] at hcopy
    rw [hcopy, Nat.mod_eq_of_lt (by omega)]
  · -- two parts: up to the end of the array, then from its start
    rw [if_neg hend]
    dsimp only
    have hend' : r.capacity.toNat ≤ r.end.toNat := not_lt.mp fun h' => hend (UInt32.lt_iff_toNat_lt.mpr h')
    have hmask : (r.end &&& r.mask).toNat = r.end.toNat - r.capacity.toNat := by
      rw [h.toNat_and_mask hc, Nat.mod_eq_sub_mod hend', Nat.mod_eq_of_lt (by omega)]
    by_cases hi' : i < r.capacity.toNat - r.begin.toNat
    · rw [RingBuffer.copy_apply_of_not_mem _ _ (.inl (by simp; omega))]
      have hcopy := @RingBuffer.copy_apply_of_lt α r.read r.begin.toNat r.capacity.toNat dst 0 i hi'
      rw [Nat.zero_add] at hcopy
      rw [hcopy, Nat.mod_eq_of_lt (by omega)]
    · obtain ⟨j, rfl⟩ : ∃ j, i = r.capacity.toNat - r.begin.toNat + j :=
        ⟨i - (r.capacity.toNat - r.begin.toNat), by omega⟩
      have hcopy := @RingBuffer.copy_apply_of_lt α r.read 0 (r.end &&& r.mask).toNat
        (RingBuffer.copy r.read r.begin.toNat r.capacity.toNat dst 0).1
        (RingBuffer.copy r.read r.begin.toNat r.capacity.toNat dst 0).2 j (by rw [hmask]; omega)
      rw [RingBuffer.copy_snd, Nat.zero_add] at hcopy ⊢
      rw [hcopy, show r.begin.toNat + (r.capacity.toNat - r.begin.toNat + j) = j + r.capacity.toNat by omega,
        Nat.add_mod_right, Nat.mod_eq_of_lt (by omega), Nat.zero_add]

lemma read_fresh (p : Prop) [Decidable p] (e m : UInt32) :
    ({ arr := if p then some fun _ => default else none, begin := 0, «end» := e, mask := m } :
      Deque α).read = fun _ => default := by
  funext n
  by_cases hp : p <;> simp [Deque.read, hp]

lemma copyFrom_of_le {s r : Deque α} (hle : r.size ≤ r.capacity) :
    s.copyFrom (fun _ => r) = some
      { arr := if 0 < r.capacity then some (r.copyElements fun _ => default) else none
        begin := 0, «end» := r.size, mask := r.mask } := by
  have hle' : r.size ≤ r.mask + 1 := hle
  unfold Deque.copyFrom
  dsimp only
  rw [read_fresh, if_neg (by simp [capacity, hle'])]
  simp only [capacity]
  by_cases hc : 0 < r.mask + 1 <;> simp [hc]

lemma Inv.copyFrom {r : Deque α} (h : r.Inv) (s : Deque α) :
    ∃ d, s.copyFrom (fun _ => r) = some d ∧ d.Inv ∧ d.toList = r.toList := by
  obtain ⟨hle, hbe, heb, hzero, hlt⟩ := h.bounds
  have hsize := h.toNat_size
  let d : Deque α :=
    { arr := if 0 < r.capacity then some (r.copyElements fun _ => default) else none
      begin := 0, «end» := r.size, mask := r.mask }
  have hd : d.size = r.size := by simp [d, size]
  have hinv : d.Inv := h.of_counters
    (by
      by_cases hc : 0 < r.capacity
      · simp [d, hc, h.arr_isSome]
      · simp only [d, hc, if_false, Option.isSome_none]
        rw [eq_comm, Bool.eq_false_iff]
        exact fun hs => hc (h.arr_isSome.mp hs)) rfl
    (fun hc => by simpa [d] using hc) (fun _ => rfl) (by simp [d])
    (show r.size.toNat ≤ 0 + r.capacity.toNat by omega)
  refine ⟨d, copyFrom_of_le (UInt32.le_iff_toNat_le.mpr (by omega)), hinv, ?_⟩
  rw [hinv.toList_eq, h.toList_eq, hd, show d.begin.toNat = 0 from rfl,
    show d.capacity = r.capacity from rfl]
  rcases Nat.eq_zero_or_pos r.capacity.toNat with hc | hc
  · -- no array: nothing to copy
    rw [show r.size.toNat = 0 by omega]
    rfl
  · have hpos : 0 < r.capacity := UInt32.lt_iff_toNat_lt.mpr hc
    have hread : d.read = r.copyElements fun _ => default := by
      funext n
      simp only [d, Deque.read, if_pos hpos]
    refine List.map_congr_left fun i hi => ?_
    have hi := List.mem_range.mp hi
    rw [hread, Nat.zero_add, Nat.mod_eq_of_lt (by omega), h.copyElements_apply _ hi]

@[simp] lemma read_mk_some (a : ℕ → α) (b e m : UInt32) : (⟨some a, b, e, m⟩ : Deque α).read = a :=
  rfl

lemma copyElements_const {r : Deque α} {x : α} (hr : r.read = fun _ => x) :
    r.copyElements (fun _ => x) = fun _ => x := by
  unfold copyElements
  rw [hr]
  split
  · exact RingBuffer.copy_fst_const _ _ _ _
  · dsimp only
    rw [RingBuffer.copy_fst_const, RingBuffer.copy_fst_const]

lemma copyFrom_self {d : Deque α} (hc : 0 < d.capacity.toNat) (hend : d.end.toNat ≤ d.capacity.toNat) :
    ∃ d', d.copyFrom id = some d' ∧ d'.toList = List.replicate d.end.toNat default := by
  have hcap : 0 < d.mask + 1 := UInt32.lt_iff_toNat_lt.mpr hc
  have hle : d.end ≤ d.mask + 1 := UInt32.le_iff_toNat_le.mpr hend
  simp only [Deque.copyFrom, id, size_mk, capacity_mk, UInt32.sub_zero, if_pos hcap, hle,
    decide_true, Bool.true_or, Bool.not_true, Bool.false_eq_true, if_false, Option.map_some,
    read_mk_some, copyElements_const (read_mk_some _ _ _ _)]
  refine ⟨_, rfl, ?_⟩
  simp [toList, get]

end Operations

end Deque

/-- The calls on a program's deques, which are numbered in the order they were made. -/
inductive DequeOp (α : Type)
  /-- `Deque()`: a new deque. -/
  | construct
  | pushBack (i : ℕ) (val : α)
  | emplaceBack (i : ℕ) (val : α)
  | popBack (i : ℕ)
  | popFront (i : ℕ)
  | clear (i : ℕ)
  /-- `Deque(Deque const& r)` from deque `j`: a new deque. -/
  | copy (j : ℕ)
  /-- `operator=(Deque const& r)`: deque `i` is assigned deque `j`. -/
  | copyAssign (i j : ℕ)
  /-- `Deque(Deque&& r)` from deque `j`: a new deque. -/
  | move (j : ℕ)
  /-- `operator=(Deque&& r)`: deque `i` is assigned deque `j`, moved. -/
  | moveAssign (i j : ℕ)

namespace DequeOp

variable {α : Type}

/-- One call. A call that throws, or one on a deque that does not exist, gives `none`. -/
def run [Inhabited α] (ds : List (Deque α)) : DequeOp α → Option (List (Deque α))
  | construct => some (ds ++ [Deque.empty])
  | pushBack i val => do
    let d ← ds[i]?
    let d ← d.pushBack val
    some (ds.set i d)
  | emplaceBack i val => do
    let d ← ds[i]?
    let (_, d) ← d.emplaceBack val
    some (ds.set i d)
  | popBack i => do
    let d ← ds[i]?
    let d ← d.popBack
    some (ds.set i d)
  | popFront i => do
    let d ← ds[i]?
    let d ← d.popFront
    some (ds.set i d)
  | clear i => do
    let d ← ds[i]?
    some (ds.set i d.clear)
  | copy j => do
    let r ← ds[j]?
    let d ← r.copy
    some (ds ++ [d])
  | copyAssign i j => do
    let d ← ds[i]?
    let _ ← ds[j]?
    -- deque `j` as it reads while deque `i` is being assigned
    let d ← d.copyFrom fun s => (ds.set i s).getD j Deque.empty
    some (ds.set i d)
  | move j => do
    let r ← ds[j]?
    some (ds.set j Deque.empty ++ [r])
  | moveAssign i j => do
    let _ ← ds[i]?
    let r ← ds[j]?
    -- deque `i` takes `r`'s array and counters, then `r` is left empty
    some ((ds.set i r).set j Deque.empty)

/-- What each call does to the list of elements of each deque. -/
def apply (ls : List (List α)) : DequeOp α → List (List α)
  | construct => ls ++ [[]]
  | pushBack i val | emplaceBack i val => ls.modify i (· ++ [val])
  | popBack i => ls.modify i List.dropLast
  | popFront i => ls.modify i List.tail
  | clear i => ls.set i []
  | copy j => ls ++ [ls.getD j []]
  | copyAssign i j => ls.set i (ls.getD j [])
  | move j => ls.set j [] ++ [ls.getD j []]
  | moveAssign i j => (ls.set i (ls.getD j [])).set j []

/-- The calls of a bounded list's program: on deques that exist, a push onto fewer than
`max_size()` elements, a pop from a deque that is not empty, and an assignment of one deque
to another. -/
def allowed (ls : List (List α)) : DequeOp α → Prop
  | construct => True
  | pushBack i _ | emplaceBack i _ => i < ls.length ∧ (ls.getD i []).length < 2 ^ 30
  | popBack i | popFront i => i < ls.length ∧ ls.getD i [] ≠ []
  | clear i => i < ls.length
  | copy j | move j => j < ls.length
  | copyAssign i j => i < ls.length ∧ j < ls.length ∧ i ≠ j
  | moveAssign i j => i < ls.length ∧ j < ls.length

instance [DecidableEq α] (ls : List (List α)) : ∀ op : DequeOp α, Decidable (allowed ls op)
  | construct => inferInstanceAs (Decidable True)
  | pushBack _ _ | emplaceBack _ _ => inferInstanceAs (Decidable (_ ∧ _))
  | popBack _ | popFront _ => inferInstanceAs (Decidable (_ ∧ _))
  | clear _ | copy _ | move _ => inferInstanceAs (Decidable (_ < _))
  | copyAssign _ _ => inferInstanceAs (Decidable (_ ∧ _ ∧ _))
  | moveAssign _ _ => inferInstanceAs (Decidable (_ ∧ _))

lemma modify_eq_set_getD {ls : List (List α)} {i : ℕ} (hi : i < ls.length) (f : List α → List α) :
    ls.modify i f = ls.set i (f (ls.getD i [])) := by
  rw [List.modify_eq_set_get f hi, List.getD_eq_getElem _ _ hi]
  rfl

lemma getD_set_of_ne [Inhabited α] {ds : List (Deque α)} {i j : ℕ} (hij : i ≠ j) (s : Deque α) :
    (ds.set i s).getD j Deque.empty = ds.getD j Deque.empty := by
  simp [List.getD_eq_getElem?_getD, hij]

section Refinement

variable [Inhabited α]

/-- The deques of a program stand for lists: each keeps the invariant and holds its list. -/
def Represents (ds : List (Deque α)) (ls : List (List α)) : Prop :=
  ds.map Deque.toList = ls ∧ ∀ d ∈ ds, d.Inv

namespace Represents

variable {ds : List (Deque α)} {ls : List (List α)}

lemma length_eq (hR : Represents ds ls) : ds.length = ls.length := by
  rw [← hR.1, List.length_map]

lemma getElem (hR : Represents ds ls) {i : ℕ} (hi : i < ls.length) :
    ∃ d, ds[i]? = some d ∧ d.Inv ∧ d.toList = ls.getD i [] := by
  have hi' : i < ds.length := hR.length_eq ▸ hi
  refine ⟨ds[i], List.getElem?_eq_getElem hi', hR.2 _ (List.getElem_mem hi'), ?_⟩
  rw [← hR.1, List.getD_eq_getElem _ _ (by simpa using hi'), List.getElem_map]

lemma set (hR : Represents ds ls) (i : ℕ) {d : Deque α} (hd : d.Inv) :
    Represents (ds.set i d) (ls.set i d.toList) := by
  refine ⟨by rw [List.map_set, hR.1], fun d' hd' => ?_⟩
  rcases List.mem_or_eq_of_mem_set hd' with hd' | rfl
  · exact hR.2 d' hd'
  · exact hd

lemma append (hR : Represents ds ls) {d : Deque α} (hd : d.Inv) :
    Represents (ds ++ [d]) (ls ++ [d.toList]) := by
  refine ⟨by rw [List.map_append, hR.1]; rfl, fun d' hd' => ?_⟩
  rcases List.mem_append.mp hd' with hd' | hd'
  · exact hR.2 d' hd'
  · rw [List.mem_singleton.mp hd']
    exact hd

end Represents

lemma run_represents {ds : List (Deque α)} {ls : List (List α)} (hR : Represents ds ls)
    {op : DequeOp α} (hop : allowed ls op) : ∃ ds', op.run ds = some ds' ∧ Represents ds' (apply ls op) := by
  cases op with
  | construct =>
    have hR' := hR.append Deque.inv_empty
    rw [Deque.toList_empty] at hR'
    exact ⟨_, rfl, hR'⟩
  | pushBack i val =>
    obtain ⟨hi, hlen⟩ := hop
    obtain ⟨d, hd, hinv, hlist⟩ := hR.getElem hi
    obtain ⟨d', hd', hinv', hlist'⟩ := hinv.pushBack (hlist ▸ hlen) val
    refine ⟨ds.set i d', by simp [run, hd, hd'], ?_⟩
    rw [apply, modify_eq_set_getD hi, ← hlist, ← hlist']
    exact hR.set i hinv'
  | emplaceBack i val =>
    obtain ⟨hi, hlen⟩ := hop
    obtain ⟨d, hd, hinv, hlist⟩ := hR.getElem hi
    obtain ⟨d', hd', hinv', hlist'⟩ := hinv.emplaceBack (hlist ▸ hlen) val
    refine ⟨ds.set i d', by simp [run, hd, hd'], ?_⟩
    rw [apply, modify_eq_set_getD hi, ← hlist, ← hlist']
    exact hR.set i hinv'
  | popBack i =>
    obtain ⟨hi, hne⟩ := hop
    obtain ⟨d, hd, hinv, hlist⟩ := hR.getElem hi
    obtain ⟨d', hd', hinv', hlist'⟩ := hinv.popBack (hlist ▸ hne)
    refine ⟨ds.set i d', by simp [run, hd, hd'], ?_⟩
    rw [apply, modify_eq_set_getD hi, ← hlist, ← hlist']
    exact hR.set i hinv'
  | popFront i =>
    obtain ⟨hi, hne⟩ := hop
    obtain ⟨d, hd, hinv, hlist⟩ := hR.getElem hi
    obtain ⟨d', hd', hinv', hlist'⟩ := hinv.popFront (hlist ▸ hne)
    refine ⟨ds.set i d', by simp [run, hd, hd'], ?_⟩
    rw [apply, modify_eq_set_getD hi, ← hlist, ← hlist']
    exact hR.set i hinv'
  | clear i =>
    obtain ⟨d, hd, hinv, -⟩ := hR.getElem hop
    refine ⟨ds.set i d.clear, by simp [run, hd], ?_⟩
    rw [apply, ← hinv.clear.2]
    exact hR.set i hinv.clear.1
  | copy j =>
    obtain ⟨r, hr, hinv, hlist⟩ := hR.getElem hop
    obtain ⟨d, hd, hinv', hlist'⟩ := hinv.copyFrom Deque.empty
    refine ⟨ds ++ [d], by simp [run, hr, Deque.copy, hd], ?_⟩
    rw [apply, ← hlist, ← hlist']
    exact hR.append hinv'
  | copyAssign i j =>
    obtain ⟨hi, hj, hij⟩ := hop
    obtain ⟨d, hd, -, -⟩ := hR.getElem hi
    obtain ⟨r, hr, hinv, hlist⟩ := hR.getElem hj
    -- deque `j` is another deque: it reads the same while deque `i` is assigned
    have hview : (fun s => (ds.set i s)[j]?.getD Deque.empty) = fun _ => r := by
      funext s
      rw [← List.getD_eq_getElem?_getD, getD_set_of_ne hij, List.getD_eq_getElem?_getD, hr,
        Option.getD_some]
    obtain ⟨d', hd', hinv', hlist'⟩ := hinv.copyFrom d
    refine ⟨ds.set i d', by simp [run, hd, hr, hview, hd'], ?_⟩
    rw [apply, ← hlist, ← hlist']
    exact hR.set i hinv'
  | move j =>
    obtain ⟨r, hr, hinv, hlist⟩ := hR.getElem hop
    refine ⟨ds.set j Deque.empty ++ [r], by simp [run, hr], ?_⟩
    rw [apply, ← hlist, ← @Deque.toList_empty α]
    exact (hR.set j Deque.inv_empty).append hinv
  | moveAssign i j =>
    obtain ⟨hi, hj⟩ := hop
    obtain ⟨d, hd, -, -⟩ := hR.getElem hi
    obtain ⟨r, hr, hinv, hlist⟩ := hR.getElem hj
    refine ⟨(ds.set i r).set j Deque.empty, by simp [run, hd, hr], ?_⟩
    rw [apply, ← hlist, ← @Deque.toList_empty α]
    exact (hR.set i hinv).set j Deque.inv_empty

/-- `Deque` refines a bounded list. From one empty deque, take any program of calls that
constructs, pushes below `max_size()` elements, pops from deques that are not empty, clears,
copies, assigns one deque to another, and moves. Every call succeeds. Each deque holds the
list that the list operations give. It keeps the representation invariant, and its `front()`
and `back()` are that list's first and last elements. -/
theorem deque_refines_boundedList (ops : List (DequeOp α))
    (hops : Simulation.Allowed allowed apply [[]] ops) :
    ∃ ds, ops.foldlM run [Deque.empty] = some ds ∧ ds.map Deque.toList = ops.foldl apply [[]] ∧
      ∀ d ∈ ds, d.Inv ∧
        (d.toList ≠ [] → d.toList.head? = some d.front ∧ d.toList.getLast? = some d.back) := by
  have hinit : Represents [(Deque.empty : Deque α)] [[]] := by
    refine ⟨by simp, fun d hd => ?_⟩
    rw [List.mem_singleton.mp hd]
    exact Deque.inv_empty
  obtain ⟨ds, hrun, hR⟩ :=
    @Simulation.foldlM_refines _ _ _ Represents allowed run apply
      (fun _ _ _ hR hop => run_represents hR hop) ops _ _ hinit hops
  exact ⟨ds, hrun, hR.1, fun d hd => ⟨hR.2 d hd, (hR.2 d hd).front_back⟩⟩

end Refinement

theorem deque_refines_boundedList_sample :
    let ops : List (DequeOp ℕ) :=
      [.pushBack 0 1, .pushBack 0 2, .copy 0, .popFront 0, .moveAssign 0 1, .construct,
        .copyAssign 2 0, .emplaceBack 2 3, .popBack 0, .clear 1]
    Simulation.Allowed allowed apply [[]] ops ∧
      ∃ ds, ops.foldlM run [Deque.empty] = some ds ∧ ds.map Deque.toList = ops.foldl apply [[]] ∧
        ∀ d ∈ ds, d.Inv ∧
          (d.toList ≠ [] → d.toList.head? = some d.front ∧ d.toList.getLast? = some d.back) :=
  ⟨by decide, deque_refines_boundedList _ (by decide)⟩

/-- Assigning a deque to itself changes its elements. After `push_back(1)`, `push_back(2)` and
`pop_front()`, `begin` is 1 and the deque holds `[2]`. `d = d` leaves two elements, both read
from uninitialised memory (`default`, which is 0 here). -/
theorem copyAssign_self_changes_list :
    let ops : List (DequeOp ℕ) := [.pushBack 0 1, .pushBack 0 2, .popFront 0, .copyAssign 0 0]
    (ops.foldlM run [Deque.empty]).map (·.map Deque.toList) = some [[0, 0]] ∧
      ops.foldl apply [[]] = [[2]] := by
  decide +kernel

end DequeOp

end FoundationDB.Flow
