import FoundationDB.Client.AtomicSpec
import FoundationDB.Library.SortUnique
import FoundationDB.RYW.WriteMap

/-! The eager reads of a storage server's update (`UpdateEagerReadInfo` and `doEagerReads` in
`storageserver.actor.cpp`). Before a batch of mutations is applied, the server collects the
keys whose value an atomic operation reads, each with how many bytes of it, and the ends of the
clears. `finishKeyBegin` sorts both and keeps one entry per key, the one asking for the most
bytes, and `doEagerReads` reads that prefix of each value (`readValuePrefix`). -/

namespace FoundationDB.Storage

open RYW (keyAfter)

/-- `systemKeys.end`, `\xff\xff`. -/
def systemKeysEnd : Key := [255, 255]

/-- The parts of `UpdateEagerReadInfo` that `addMutation` and `finishKeyBegin` fill. -/
structure UpdateEagerReadInfo where
  keyBegin : List Key
  keys : List (Key × ℕ)

namespace UpdateEagerReadInfo

def empty : UpdateEagerReadInfo := ⟨[], []⟩

-- `CLIENT_KNOBS->VALUE_SIZE_LIMIT`
variable (valueSizeLimit : ℕ)

/-- `addMutation`: a clear asks for the first key from its end on, unless that end is in the
system keys' end; an atomic operation asks for a prefix of its key's value: as long as the
operand for most, one byte longer for `CompareAndClear` (merged into the entry just before it
when that is for the same key), `VALUE_SIZE_LIMIT` bytes for those that keep the whole value. -/
def addMutation (info : UpdateEagerReadInfo) (m : MutationRef) : UpdateEagerReadInfo :=
  if m.type = .clearRange ∧ ¬ systemKeysEnd <+: m.param2 then
    { info with keyBegin := info.keyBegin ++ [m.param2] }
  else if m.type = .compareAndClear then
    let keyBegin := info.keyBegin ++ [keyAfter m.param1]
    match info.keys.getLast? with
    | some (key, length) =>
      if key = m.param1 then
        ⟨keyBegin, info.keys.dropLast ++ [(key, max length (m.param2.length + 1))]⟩
      else ⟨keyBegin, info.keys ++ [(m.param1, m.param2.length + 1)]⟩
    | none => ⟨keyBegin, info.keys ++ [(m.param1, m.param2.length + 1)]⟩
  else if m.type = .appendIfFits ∨ m.type = .byteMin ∨ m.type = .byteMax then
    { info with keys := info.keys ++ [(m.param1, valueSizeLimit)] }
  else if m.type.isAtomicOp then
    { info with keys := info.keys ++ [(m.param1, m.param2.length)] }
  else info

def addMutations (info : UpdateEagerReadInfo) (mutations : List MutationRef) :
    UpdateEagerReadInfo :=
  mutations.foldl (addMutation valueSizeLimit) info

@[simp] lemma addMutations_cons (info : UpdateEagerReadInfo) (m : MutationRef)
    (mutations : List MutationRef) :
    info.addMutations valueSizeLimit (m :: mutations) =
      (info.addMutation valueSizeLimit m).addMutations valueSizeLimit mutations := rfl

/-- The comparator `finishKeyBegin` sorts `keys` with: by key, then by length downwards. -/
def keysLess (a b : Key × ℕ) : Bool := a.1 < b.1 || (a.1 = b.1 && a.2 > b.2)

/-- `finishKeyBegin`: each list sorted (`std::sort`), then one entry kept of each run with one
key (`std::unique`), the first. -/
def finishKeyBegin (info : UpdateEagerReadInfo) : UpdateEagerReadInfo :=
  ⟨(info.keyBegin.mergeSort fun a b => a ≤ b).destutter (· ≠ ·),
    (info.keys.mergeSort fun a b => !keysLess b a).destutter fun a b => a.1 ≠ b.1⟩

/-- The length of the first entry for `key`, the one `getValue(key)` finds once the keys are
sorted and unique. -/
def lengthFor (info : UpdateEagerReadInfo) (key : Key) : Option ℕ :=
  (info.keys.find? (·.1 = key)).map (·.2)

section FinishKeyBegin

lemma not_keysLess_iff {a b : Key × ℕ} :
    (!keysLess b a) = true ↔ a.1 < b.1 ∨ a.1 = b.1 ∧ b.2 ≤ a.2 := by
  simp only [keysLess, Bool.not_eq_true', Bool.or_eq_false_iff, decide_eq_false_iff_not,
    Bool.and_eq_false_iff, not_lt, gt_iff_lt]
  constructor
  · rintro ⟨h1, h2⟩
    rcases h1.lt_or_eq with h | h
    · exact .inl h
    · exact .inr ⟨h, by simpa [h] using h2⟩
  · rintro (h | ⟨h, h'⟩)
    · exact ⟨h.le, .inl (by simpa using h.ne')⟩
    · exact ⟨h.le, .inr (by simpa using h')⟩

lemma pairwise_mergeSort_keys (keys : List (Key × ℕ)) :
    (keys.mergeSort fun a b => !keysLess b a).Pairwise fun a b => (!keysLess b a) = true := by
  refine List.pairwise_mergeSort ?_ ?_ keys
  · intro a b c hab hbc
    rw [not_keysLess_iff] at hab hbc ⊢
    rcases hab with hab | ⟨hab, hab'⟩ <;> rcases hbc with hbc | ⟨hbc, hbc'⟩
    · exact .inl (hab.trans hbc)
    · exact .inl (hbc ▸ hab)
    · exact .inl (hab ▸ hbc)
    · exact .inr ⟨hab.trans hbc, hbc'.trans hab'⟩
  · intro a b
    rw [Bool.or_eq_true, not_keysLess_iff, not_keysLess_iff]
    rcases lt_trichotomy a.1 b.1 with h | h | h
    · exact .inl (.inl h)
    · rcases le_total b.2 a.2 with h' | h'
      · exact .inl (.inr ⟨h, h'⟩)
      · exact .inr (.inr ⟨h.symm, h'⟩)
    · exact .inr (.inl h)

lemma lengthFor_finishKeyBegin (info : UpdateEagerReadInfo) (key : Key) :
    info.finishKeyBegin.lengthFor key = ((info.keys.filter (·.1 = key)).map (·.2)).max? := by
  set sorted := info.keys.mergeSort fun a b => !keysLess b a
  have hfind : (info.finishKeyBegin.keys.find? (·.1 = key)) = sorted.find? (·.1 = key) :=
    List.find?_destutter Prod.fst key sorted
  -- the entries for `key` come sorted by length downwards
  have hdown : ((sorted.filter (·.1 = key)).map (·.2)).Pairwise (· ≥ ·) := by
    rw [List.pairwise_map]
    refine ((pairwise_mergeSort_keys info.keys).filter _).imp_of_mem ?_
    intro a b ha hb hab
    have ha' : a.1 = key := by simpa using (List.mem_filter.mp ha).2
    have hb' : b.1 = key := by simpa using (List.mem_filter.mp hb).2
    rcases not_keysLess_iff.mp hab with h | ⟨-, h⟩
    · rw [ha', hb'] at h
      exact absurd h (lt_irrefl key)
    · exact h
  have hperm : ((sorted.filter (·.1 = key)).map (·.2)).Perm
      ((info.keys.filter (·.1 = key)).map (·.2)) :=
    ((List.mergeSort_perm _ _).filter _).map _
  rw [lengthFor, hfind, ← List.head?_filter, ← List.head?_map,
    List.head?_eq_max?_of_pairwise hdown, List.max?_eq_of_perm hperm]

end FinishKeyBegin

section Requests

/-- The prefix length `addMutation` asks of `m`'s key, when `m` reads the value there. -/
def requestedLength (m : MutationRef) : Option ℕ :=
  if m.type = .compareAndClear then some (m.param2.length + 1)
  else if m.type = .appendIfFits ∨ m.type = .byteMin ∨ m.type = .byteMax then some valueSizeLimit
  else if m.type.isAtomicOp then some m.param2.length
  else none

/-- An entry for a key with at least a given length. -/
def Asks (info : UpdateEagerReadInfo) (key : Key) (length : ℕ) : Prop :=
  ∃ q ∈ info.keys, q.1 = key ∧ length ≤ q.2

lemma Asks.addMutation {info : UpdateEagerReadInfo} {key : Key} {length : ℕ}
    (h : info.Asks key length) (m : MutationRef) :
    (info.addMutation valueSizeLimit m).Asks key length := by
  obtain ⟨q, hq, rfl, hle⟩ := h
  unfold UpdateEagerReadInfo.addMutation
  split_ifs with hclear hcac
  · exact ⟨q, hq, rfl, hle⟩
  · cases hlast : info.keys.getLast? with
    | none => exact ⟨q, by simp [hq], rfl, hle⟩
    | some last =>
      obtain ⟨key', length'⟩ := last
      simp only
      split_ifs with hkey
      · -- the merged entry replaces the last one by a longer one
        have hsplit := List.dropLast_append_getLast? _ hlast
        rw [← hsplit, List.mem_append, List.mem_singleton] at hq
        rcases hq with hq | rfl
        · exact ⟨q, List.mem_append_left _ hq, rfl, hle⟩
        · exact ⟨_, List.mem_append_right _ (List.mem_singleton_self _), rfl,
            hle.trans (le_max_left _ _)⟩
      · exact ⟨q, List.mem_append_left _ hq, rfl, hle⟩
  · exact ⟨q, List.mem_append_left _ hq, rfl, hle⟩
  · exact ⟨q, List.mem_append_left _ hq, rfl, hle⟩
  · exact ⟨q, hq, rfl, hle⟩

lemma asks_addMutation (info : UpdateEagerReadInfo) {m : MutationRef} {length : ℕ}
    (h : requestedLength valueSizeLimit m = some length) :
    (info.addMutation valueSizeLimit m).Asks m.param1 length := by
  have hnclear : ¬(m.type = .clearRange ∧ ¬systemKeysEnd <+: m.param2) := by
    rintro ⟨hclear, -⟩
    simp [requestedLength, hclear, MutationType.isAtomicOp] at h
  have happended : ∀ length', length ≤ length' →
      (UpdateEagerReadInfo.mk info.keyBegin (info.keys ++ [(m.param1, length')])).Asks m.param1 length :=
    fun length' hle => ⟨_, List.mem_append_right _ (List.mem_singleton_self _), rfl, hle⟩
  unfold UpdateEagerReadInfo.addMutation
  unfold requestedLength at h
  rw [if_neg hnclear]
  by_cases hcac : m.type = .compareAndClear
  · rw [if_pos hcac] at h ⊢
    cases h
    cases hlast : info.keys.getLast? with
    | none => exact ⟨_, List.mem_append_right _ (List.mem_singleton_self _), rfl, le_rfl⟩
    | some last =>
      obtain ⟨key', length'⟩ := last
      simp only
      split_ifs with hkey
      · exact ⟨_, List.mem_append_right _ (List.mem_singleton_self _), hkey, le_max_right _ _⟩
      · exact ⟨_, List.mem_append_right _ (List.mem_singleton_self _), rfl, le_rfl⟩
  rw [if_neg hcac] at h ⊢
  by_cases happ : m.type = .appendIfFits ∨ m.type = .byteMin ∨ m.type = .byteMax
  · rw [if_pos happ] at h ⊢
    cases h
    exact happended _ le_rfl
  rw [if_neg happ] at h ⊢
  by_cases hatomic : m.type.isAtomicOp
  · rw [if_pos hatomic] at h ⊢
    cases h
    exact happended _ le_rfl
  · rw [if_neg hatomic] at h
    cases h

lemma Asks.addMutations {info : UpdateEagerReadInfo} {key : Key} {length : ℕ}
    (h : info.Asks key length) (mutations : List MutationRef) :
    (info.addMutations valueSizeLimit mutations).Asks key length := by
  induction mutations generalizing info with
  | nil => exact h
  | cons m mutations ih =>
    rw [addMutations_cons]
    exact ih (h.addMutation valueSizeLimit m)

lemma asks_addMutations (info : UpdateEagerReadInfo) {mutations : List MutationRef}
    {m : MutationRef} (hm : m ∈ mutations) {length : ℕ}
    (h : requestedLength valueSizeLimit m = some length) :
    (info.addMutations valueSizeLimit mutations).Asks m.param1 length := by
  induction mutations generalizing info with
  | nil => cases hm
  | cons m' mutations ih =>
    rw [addMutations_cons]
    rcases List.mem_cons.mp hm with rfl | hm
    · exact (asks_addMutation valueSizeLimit info h).addMutations valueSizeLimit mutations
    · exact ih _ hm

lemma Asks.finishKeyBegin {info : UpdateEagerReadInfo} {key : Key} {length : ℕ}
    (h : info.Asks key length) :
    ∃ L, info.finishKeyBegin.lengthFor key = some L ∧ length ≤ L := by
  obtain ⟨q, hq, hkey, hle⟩ := h
  have hmem : q.2 ∈ (info.keys.filter (·.1 = key)).map (·.2) :=
    List.mem_map.mpr ⟨q, List.mem_filter.mpr ⟨hq, decide_eq_true hkey⟩, rfl⟩
  obtain ⟨L, hL⟩ := Option.isSome_iff_exists.mp (List.isSome_max?_of_mem hmem)
  rw [lengthFor_finishKeyBegin]
  exact ⟨L, hL, hle.trans ((List.max?_eq_some_iff.mp hL).2 _ hmem)⟩

lemma requestedLength_isSome {m : MutationRef} {f : Option Value → Value → Value}
    (hf : m.type.atomicFunction valueSizeLimit = some f) :
    (requestedLength valueSizeLimit m).isSome := by
  have hatomic := MutationType.isAtomicOp_of_atomicFunction hf
  unfold requestedLength
  split_ifs <;> simp_all

lemma atomicFunction_take {m : MutationRef} {f : Option Value → Value → Value}
    (hf : m.type.atomicFunction valueSizeLimit = some f) {length L : ℕ}
    (hreq : requestedLength valueSizeLimit m = some length) (hL : length ≤ L)
    (existingValueOptional : Option Value)
    (hfits : ∀ v ∈ existingValueOptional, v.length ≤ valueSizeLimit) :
    f (existingValueOptional.map (·.take L)) m.param2 = f existingValueOptional m.param2 := by
  have hwhole (hle : valueSizeLimit ≤ L) :
      existingValueOptional.map (·.take L) = existingValueOptional := by
    cases existingValueOptional with
    | none => rfl
    | some v => exact congrArg some (List.take_of_length_le ((hfits v rfl).trans hle))
  obtain ⟨type, key, otherOperand⟩ := m
  cases type <;> simp only [MutationType.atomicFunction, reduceCtorEq, Option.some.injEq] at hf <;>
    subst hf <;> simp [requestedLength, MutationType.isAtomicOp] at hreq <;> subst hreq
  case addValue => exact doLittleEndianAdd_take _ hL
  case and => exact doAnd_take _ hL
  case or => exact doOr_take _ hL
  case xor => exact doXor_take _ hL
  case max => exact doMax_take _ hL
  case min => exact doMin_take _ hL
  case minV2 => exact doMinV2_take _ hL
  case andV2 => exact doAndV2_take _ hL
  all_goals rw [hwhole hL]

end Requests

end UpdateEagerReadInfo

open UpdateEagerReadInfo

/-- The atomic operations read no more of the existing value than the storage server's eager
read fetches: as many bytes as the operand for `AddValue`, `And`, `Or`, `Xor`, `Max`, `Min`,
`MinV2` and `AndV2`, one more for the equality test of `CompareAndClear`; and of the lengths
asked for one key, `finishKeyBegin` keeps the largest. -/
theorem atomicOps_eagerReadPrefix :
    (∀ (existingValueOptional : Option Value) (otherOperand : Value),
      let prefixRead := existingValueOptional.map (·.take otherOperand.length)
      doLittleEndianAdd prefixRead otherOperand =
          doLittleEndianAdd existingValueOptional otherOperand ∧
        doAnd prefixRead otherOperand = doAnd existingValueOptional otherOperand ∧
        doOr prefixRead otherOperand = doOr existingValueOptional otherOperand ∧
        doXor prefixRead otherOperand = doXor existingValueOptional otherOperand ∧
        doMax prefixRead otherOperand = doMax existingValueOptional otherOperand ∧
        doMin prefixRead otherOperand = doMin existingValueOptional otherOperand ∧
        doMinV2 prefixRead otherOperand = doMinV2 existingValueOptional otherOperand ∧
        doAndV2 prefixRead otherOperand = doAndV2 existingValueOptional otherOperand ∧
        (doCompareAndClear (existingValueOptional.map (·.take (otherOperand.length + 1)))
            otherOperand).isNone = (doCompareAndClear existingValueOptional otherOperand).isNone) ∧
    ∀ (info : UpdateEagerReadInfo) (key : Key),
      info.finishKeyBegin.lengthFor key = ((info.keys.filter (·.1 = key)).map (·.2)).max? := by
  refine ⟨fun existingValueOptional otherOperand => ?_, lengthFor_finishKeyBegin⟩
  have hL : otherOperand.length ≤ otherOperand.length := le_rfl
  exact ⟨doLittleEndianAdd_take _ hL, doAnd_take _ hL, doOr_take _ hL, doXor_take _ hL,
    doMax_take _ hL, doMin_take _ hL, doMinV2_take _ hL, doAndV2_take _ hL,
    doCompareAndClear_take_isNone _ le_rfl⟩

/-- The eager reads of a batch suffice: for each mutation of it that applies an atomic
operation, `finishKeyBegin` leaves a prefix length for its key, and the operation computes on
that prefix of the stored value what it computes on all of it, when stored values are within
`VALUE_SIZE_LIMIT`. -/
theorem eagerReads_suffice (valueSizeLimit : ℕ) (storage : Key → Option Value)
    (hfits : ∀ key, ∀ v ∈ storage key, v.length ≤ valueSizeLimit) (mutations : List MutationRef) :
    ∀ m ∈ mutations, ∀ f, m.type.atomicFunction valueSizeLimit = some f →
      ∃ L, ((empty.addMutations valueSizeLimit mutations).finishKeyBegin).lengthFor m.param1 =
          some L ∧
        f ((storage m.param1).map (·.take L)) m.param2 = f (storage m.param1) m.param2 := by
  intro m hm f hf
  obtain ⟨length, hreq⟩ := Option.isSome_iff_exists.mp (requestedLength_isSome valueSizeLimit hf)
  obtain ⟨L, hL, hle⟩ := (asks_addMutations valueSizeLimit empty hm hreq).finishKeyBegin
  exact ⟨L, hL, atomicFunction_take valueSizeLimit hf hreq hle _ (hfits m.param1)⟩

theorem eagerReads_suffice_sample :
    (∀ key : Key, ∀ v ∈ (fun _ => some [1, 2, 3] : Key → Option Value) key, v.length ≤ 100) ∧
    ∀ m ∈ ([⟨.addValue, [0], [1]⟩, ⟨.byteMax, [0], [5]⟩, ⟨.and, [1], [7, 7, 7, 7]⟩] :
        List MutationRef),
      ∀ f, m.type.atomicFunction 100 = some f →
        ∃ L, ((empty.addMutations 100 [⟨.addValue, [0], [1]⟩, ⟨.byteMax, [0], [5]⟩,
            ⟨.and, [1], [7, 7, 7, 7]⟩]).finishKeyBegin).lengthFor m.param1 = some L ∧
          f (((fun _ => some [1, 2, 3] : Key → Option Value) m.param1).map (·.take L)) m.param2 =
            f ((fun _ => some [1, 2, 3] : Key → Option Value) m.param1) m.param2 := by
  have hfits : ∀ key : Key, ∀ v ∈ (fun _ => some [1, 2, 3] : Key → Option Value) key,
      v.length ≤ 100 := by
    intro key v hv
    rw [Option.mem_def, Option.some.injEq] at hv
    subst hv
    decide
  exact ⟨hfits, eagerReads_suffice 100 _ hfits _⟩

end FoundationDB.Storage
