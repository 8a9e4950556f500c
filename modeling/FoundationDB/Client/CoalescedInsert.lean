import FoundationDB.Client.KeyRangeMap
import FoundationDB.Rpc.RangeMapCoalesce
import FoundationDB.RYW.Segments
import Mathlib.Data.List.Chain

/-! The inserts of the coalesced range maps. A coalesced map is a well-formed range map up to
`mapEnd` in which no boundary below `mapEnd` holds the value of the one before it, the form
`validateCoalesced` checks. `insert(keys, value)` leaves the pairs below `keys.begin`, then a
boundary at `keys.begin` unless the one before holds `value` already, then one at `keys.end`
with the value that held there unless it is `value` or a boundary is there, then the pairs from
`keys.end` on, without the first when it holds `value`. That is `RangeMap::insert` with
redundant boundaries erased, so the key values are those of the plain insert; `insert(key)` is
the range insert of `[key, keyAfter(key))`. -/

namespace FoundationDB

open RYW (allKeysBegin allKeysEnd keyAfter equalsKeyAfter)
open Map RangeMap

namespace RangeMap

variable {κ V : Type} [LinearOrder κ] [Inhabited κ] {r : RangeMap κ V} {endKey : κ}

lemma Wf.key_lt_of_succ_lt (hwf : r.Wf endKey) {i : ℕ} (hi : i + 1 < r.map.length) :
    r.map[i].key < endKey :=
  calc r.map[i].key < r.map[r.map.length - 1].key := hwf.sorted.key_lt_of_lt _ _ (by omega)
    _ ≤ endKey := (hwf.mem_bounds _ (List.getElem_mem _)).2

lemma Wf.validateCoalesced_of_isChain (hwf : r.Wf endKey)
    (h : r.map.IsChain fun p q => q.value ≠ p.value ∨ q.key = endKey) : r.validateCoalesced := by
  rw [validateCoalesced, List.isChain_iff_getElem]
  intro i hi
  have hi' : i + 1 + 1 < r.map.length := by rw [List.length_dropLast] at hi; omega
  rw [List.getElem_dropLast, List.getElem_dropLast]
  exact ((List.isChain_iff_getElem.mp h) i (by omega)).resolve_right
    (hwf.key_lt_of_succ_lt hi').ne

omit [Inhabited κ] in
lemma erases_append_cons_run {P R T : List (MapPair κ V)} {x : MapPair κ V}
    (hs : Keyed.Sorted MapPair.key (P ++ x :: (R ++ T))) (hR : ∀ y ∈ R, y.value = x.value)
    (hT : T ≠ []) : Erases (P ++ x :: T) (P ++ x :: (R ++ T)) := by
  have hxR : Keyed.Sorted MapPair.key (x :: R) :=
    hs.sublist ((List.sublist_append_left (x :: R) T).trans (List.sublist_append_right P _))
  refine ⟨?_, ?_, ?_, fun k => (valueAt_append_cons_run hxR hR k).symm⟩
  · exact (List.Sublist.refl P).append ((List.sublist_append_right R T).cons_cons x)
  · cases P <;> rfl
  · have h₁ : P ++ x :: T = (P ++ [x]) ++ T := by simp
    have h₂ : P ++ x :: (R ++ T) = (P ++ x :: R) ++ T := by simp
    rw [h₁, h₂, List.getLast?_append_of_ne_nil _ hT, List.getLast?_append_of_ne_nil _ hT]

lemma Erases.get_eq [Inhabited V] {r' : RangeMap κ V} (hs : Keyed.Sorted MapPair.key r.map)
    (h : Erases r'.map r.map) (k : κ) : r'.get k = r.get k := by
  rw [get_eq_valueAt (hs.sublist h.sublist), h.value_eq, ← get_eq_valueAt hs]

end RangeMap

namespace RangeMap.Split

variable {κ V : Type} [LinearOrder κ] [Inhabited κ] [Inhabited V] {m A M C : List (MapPair κ V)}
  {a b : κ} {c0 be : MapPair κ V}

lemma getD_last_A (s : Split m a b A M c0 C be) {ab : MapPair κ V} (h : A.getLast? = some ab) :
    m.getD (A.length - 1) default = ab := by
  obtain ⟨P, rfl⟩ := List.getLast?_eq_some_iff.mp h
  rw [s.eq, List.append_assoc, List.append_assoc, List.length_append, List.length_singleton,
    Nat.add_sub_cancel, List.getD_append_right _ _ _ _ le_rfl, Nat.sub_self]
  rfl

omit [Inhabited κ] [Inhabited V] in
lemma erase_lowerBound (s : Split m a b A M c0 C be) (skip : Bool) :
    erase m A.length (if skip then (A ++ M).length + 1 else (A ++ M).length) =
      A ++ if skip then C else c0 :: C := by
  cases skip with
  | false => rw [s.eq, if_neg Bool.false_ne_true, if_neg Bool.false_ne_true, erase_append]
  | true =>
    have hlen : (A ++ M).length + 1 = (A ++ (M ++ [c0])).length := by simp [Nat.add_assoc]
    rw [if_pos rfl, if_pos rfl, s.eq, hlen, ← erase_append A (M ++ [c0]) C]
    simp only [List.append_assoc, List.singleton_append]

end RangeMap.Split

namespace CoalescedRangeMap

variable {V : Type} {m : CoalescedRangeMap V}

/-- `q` is no redundant boundary after `p`: it changes the value, or it ends the map. -/
def NonRedundant (mapEnd : Key) (p q : MapPair Key V) : Prop := q.value ≠ p.value ∨ q.key = mapEnd

/-- A coalesced map as its constructor leaves it and its inserts keep it. -/
structure Wf (m : CoalescedRangeMap V) : Prop extends RangeMap.Wf m.toRangeMap m.mapEnd where
  chain : m.map.IsChain (NonRedundant m.mapEnd)

@[simp] lemma eraseInsert_mapEnd (b e : ℕ) (iE : Bool) (pE : MapPair Key V) (iB : Bool)
    (pB : MapPair Key V) : (m.eraseInsert b e iE pE iB pB).mapEnd = m.mapEnd := rfl

lemma eraseInsert_map {b e : ℕ} {A D : List (MapPair Key V)} (he : erase m.map b e = A ++ D)
    {iE iB : Bool} {pE pB : MapPair Key V}
    (hE : iE = true → (∀ y ∈ A, y.key < pE.key) ∧ ∀ y ∈ D, pE.key < y.key)
    (hB : iB = true → (∀ y ∈ A, y.key < pB.key) ∧ ∀ y ∈ (if iE then pE :: D else D), pB.key < y.key) :
    (m.eraseInsert b e iE pE iB pB).map =
      A ++ ((if iB then [pB] else []) ++ if iE then pE :: D else D) := by
  have hT : (if iE then Map.insert (erase m.map b e) pE else erase m.map b e) =
      A ++ if iE then pE :: D else D := by
    cases iE with
    | false => simp only [Bool.false_eq_true, if_false, he]
    | true =>
      obtain ⟨h₁, h₂⟩ := hE rfl
      simp only [if_true, he, insert_append h₁ h₂]
  simp only [eraseInsert, hT]
  cases iB with
  | false => simp only [Bool.false_eq_true, if_false, List.nil_append]
  | true =>
    obtain ⟨h₁, h₂⟩ := hB rfl
    simp only [if_true, insert_append h₁ h₂, List.singleton_append]

section Cases

/-! The decisions of `insert(keys, value)` on a map cut at the range's ends, and what follows
from each of them. -/

/-- The boundary kept at `keys.begin`: the new one, unless the pair before the range holds
`value` already. -/
def BeginCase (A : List (MapPair Key V)) (begin : Key) (value : V) (Bs : List (MapPair Key V)) :
    Prop :=
  Bs = [⟨begin, value⟩] ∧ (∀ ab ∈ A.getLast?, ab.value ≠ value) ∨
    Bs = [] ∧ ∃ ab ∈ A.getLast?, ab.value = value

/-- The pairs kept from `keys.end` on, where `be` is the last pair before it and `c0` the
first after: a new boundary with the value that held there before them all, or them all, or
all but `c0`, which holds `value`. -/
def EndCase (mapEnd «end» : Key) (value : V) (be c0 : MapPair Key V) (C T : List (MapPair Key V)) :
    Prop :=
  T = ⟨«end», be.value⟩ :: c0 :: C ∧ «end» < c0.key ∧ be.value ≠ value ∨
    T = c0 :: C ∧ (c0.key = «end» ∨ be.value = value) ∧ (c0.value ≠ value ∨ c0.key = mapEnd) ∨
    T = C ∧ (c0.key = «end» ∨ be.value = value) ∧ c0.value = value ∧ c0.key ≠ mapEnd

variable {mapEnd «end» : Key} {value : V} {be c0 : MapPair Key V} {C T : List (MapPair Key V)}

lemma EndCase.exists_run (h : EndCase mapEnd «end» value be c0 C T) {E : List (MapPair Key V)}
    (hE₁ : c0.key = «end» → E = []) (hE₂ : c0.key ≠ «end» → E = [⟨«end», be.value⟩]) :
    ∃ R, E ++ c0 :: C = R ++ T ∧ ∀ y ∈ R, y.value = value := by
  have hE : (c0.key = «end» ∨ be.value = value) → ∀ y ∈ E, y.value = value := by
    intro hc y hy
    by_cases hce : c0.key = «end»
    · rw [hE₁ hce] at hy
      exact absurd hy List.not_mem_nil
    · rw [hE₂ hce, List.mem_singleton] at hy
      rw [hy]
      exact hc.resolve_left hce
  rcases h with ⟨rfl, hlt, -⟩ | ⟨rfl, hc, -⟩ | ⟨rfl, hc, hcv, -⟩
  · refine ⟨[], ?_, by simp⟩
    rw [hE₂ hlt.ne', List.nil_append]
    rfl
  · exact ⟨E, rfl, hE hc⟩
  · refine ⟨E ++ [c0], by simp, fun y hy => ?_⟩
    rcases List.mem_append.mp hy with hy | hy
    · exact hE hc y hy
    · rw [List.mem_singleton.mp hy]
      exact hcv

lemma EndCase.ne_nil (h : EndCase mapEnd «end» value be c0 C T) {v : V}
    (hmem : (⟨mapEnd, v⟩ : MapPair Key V) ∈ c0 :: C) : T ≠ [] := by
  rcases h with ⟨rfl, -⟩ | ⟨rfl, -⟩ | ⟨rfl, -, -, hc0⟩
  · exact List.cons_ne_nil _ _
  · exact List.cons_ne_nil _ _
  · rcases List.mem_cons.mp hmem with rfl | hmem
    · exact absurd rfl hc0
    · exact List.ne_nil_of_mem hmem

lemma EndCase.isChain (h : EndCase mapEnd «end» value be c0 C T)
    (hch : (be :: c0 :: C).IsChain (NonRedundant mapEnd)) :
    T.IsChain (NonRedundant mapEnd) ∧ ∀ y ∈ T.head?, y.value ≠ value ∨ y.key = mapEnd := by
  rcases h with ⟨rfl, -, hbe⟩ | ⟨rfl, -, hc0⟩ | ⟨rfl, -, hcv, -⟩
  · -- the new boundary holds the value of `be`, which `c0` does not repeat
    obtain ⟨hbc, hC⟩ := List.isChain_cons_cons.mp hch
    exact ⟨List.isChain_cons_cons.mpr ⟨hbc, hC⟩, fun y hy => .inl (by
      rw [← Option.mem_some_iff.mp hy]
      exact hbe)⟩
  · exact ⟨hch.tail, fun y hy => by rwa [← Option.mem_some_iff.mp hy]⟩
  · -- the first pair of `C` does not repeat the value of `c0`, which is `value`
    have hC := hch.tail
    refine ⟨hC.tail, fun y hy => ?_⟩
    rw [← hcv]
    exact (List.isChain_cons.mp hC).1 y hy

end Cases

section Insert

variable [Inhabited V] [DecidableEq V] {keys : KeyRangeRef} {A M C : List (MapPair Key V)}
  {c0 be : MapPair Key V}

lemma insertRange_cases (hwf : m.Wf) (hlt : keys.begin < keys.end) (hle : keys.end ≤ m.mapEnd)
    (s : Split m.map keys.begin keys.end A M c0 C be) (value : V) :
    ∃ m' Bs T, m.insertRange keys value = some m' ∧ m'.mapEnd = m.mapEnd ∧
      m'.map = A ++ (Bs ++ T) ∧ BeginCase A keys.begin value Bs ∧
      EndCase m.mapEnd keys.end value be c0 C T := by
  have hc0 : c0.key ≤ m.mapEnd := (hwf.mem_bounds c0 (s.mem_of_mem_C List.mem_cons_self)).2
  have hD : ∀ (skip : Bool), ∀ y ∈ (if skip then C else c0 :: C), y ∈ c0 :: C := by
    intro skip y hy
    cases skip with
    | false => exact hy
    | true => exact List.mem_cons_of_mem _ hy
  rw [insertRange, if_neg (not_not.mpr hle), if_neg hlt.ne]
  simp only [s.lowerBound_a, s.lowerBound_b, s.getD_c0, s.getD_be]
  have hDe : ∀ (skip : Bool), ∀ y ∈ (if skip then C else c0 :: C), keys.end ≤ y.key :=
    fun skip y hy => s.le_C y (hD skip y hy)
  refine ⟨_, _, _, rfl, rfl, eraseInsert_map (s.erase_lowerBound _) ?_ ?_, ?_, ?_⟩
  · -- a boundary at `keys.end` goes before `c0`, which is above it
    intro hIE
    simp only [Bool.and_eq_true, bne_iff_ne, ne_eq] at hIE
    have hlt0 : keys.end < c0.key := lt_of_le_of_ne s.le_c0 (Ne.symm hIE.1.2)
    refine ⟨fun y hy => (s.lt_A y hy).trans hlt, fun y hy => ?_⟩
    rcases List.mem_cons.mp (hD _ y hy) with rfl | hy
    · exact hlt0
    · exact hlt0.trans (s.lt_C y hy)
  · intro _
    refine ⟨s.lt_A, fun y hy => hlt.trans_le ?_⟩
    split at hy
    · rcases List.mem_cons.mp hy with rfl | hy
      · exact le_rfl
      · exact hDe _ y hy
    · exact hDe _ y hy
  · -- the boundary at `keys.begin` is needed unless the one before holds `value`
    unfold BeginCase
    cases hA : A.getLast? with
    | none =>
      have hb : keys.begin = allKeysBegin := by
        obtain ⟨v₀, hv₀⟩ := hwf.begin_mem
        by_contra hb
        have hmem := s.mem_A_of_lt hv₀ (lt_of_le_of_ne (RYW.allKeysBegin_le _) (Ne.symm hb))
        rw [List.getLast?_eq_none_iff.mp hA] at hmem
        exact List.not_mem_nil hmem
      simp [hb]
    | some ab =>
      have hab : (ab : MapPair Key V).key < keys.begin :=
        s.lt_A ab (List.mem_of_getLast? hA)
      have hb : keys.begin ≠ allKeysBegin := (lt_of_le_of_lt (RYW.allKeysBegin_le _) hab).ne'
      rw [s.getD_last_A hA]
      by_cases hv : ab.value = value
      · simp [hb, hv]
      · simp [hv]
  · -- the boundary at `keys.end`, and whether the one after the range is erased
    unfold EndCase
    cases hIE : (keys.end != m.mapEnd && c0.key != keys.end && value != be.value) with
    | true =>
      simp only [Bool.and_eq_true, bne_iff_ne, ne_eq] at hIE
      refine .inl ⟨by simp, lt_of_le_of_ne s.le_c0 (Ne.symm hIE.1.2), Ne.symm hIE.2⟩
    | false =>
      simp only [Bool.and_eq_false_iff, bne_eq_false_iff_eq] at hIE
      -- at `mapEnd` the pair `c0` is the boundary at `keys.end`
      have hc0e : c0.key = keys.end ∨ be.value = value := by
        rcases hIE with (h | h) | h
        · exact .inl (le_antisymm (h ▸ hc0) s.le_c0)
        · exact .inl h
        · exact .inr h.symm
      cases hSK : (keys.end != m.mapEnd && !false && c0.value == value && c0.key != m.mapEnd) with
      | true =>
        simp only [Bool.not_false, Bool.and_true, Bool.and_eq_true, bne_iff_ne, ne_eq,
          beq_iff_eq] at hSK
        exact .inr (.inr ⟨by simp, hc0e, hSK.1.2, hSK.2⟩)
      | false =>
        simp only [Bool.not_false, Bool.and_true, Bool.and_eq_false_iff, bne_eq_false_iff_eq,
          beq_eq_false_iff_ne] at hSK
        refine .inr (.inl ⟨by simp, hc0e, ?_⟩)
        rcases hSK with (h | h) | h
        · exact .inr (le_antisymm hc0 (h ▸ s.le_c0))
        · exact .inl h
        · exact .inr h

omit [DecidableEq V] in
lemma insertRange_erases (hwf : m.Wf) (hlt : keys.begin < keys.end) (hle : keys.end ≤ m.mapEnd)
    (s : Split m.map keys.begin keys.end A M c0 C be) {Bs T : List (MapPair Key V)} (value : V)
    (hB : BeginCase A keys.begin value Bs) (hE : EndCase m.mapEnd keys.end value be c0 C T) :
    Erases (A ++ (Bs ++ T)) (m.toRangeMap.insert ⟨keys.begin, keys.end⟩ value).map := by
  have hplain := @insert_map_of_split _ _ _ _ _ m.toRangeMap ⟨keys.begin, keys.end⟩ _ _ _ _ _ value s
  dsimp only at hplain
  have hs : Keyed.Sorted MapPair.key (m.toRangeMap.insert ⟨keys.begin, keys.end⟩ value).map :=
    (insert_wf hwf.toWf value (RYW.allKeysBegin_le _) hlt.le hle).sorted
  obtain ⟨R, hR, hRv⟩ := hE.exists_run (fun h => if_pos h) (fun h => if_neg h)
  obtain ⟨v₁, hv₁⟩ := hwf.end_mem
  have hT : T ≠ [] := hE.ne_nil (s.mem_C_of_le hv₁ hle)
  rw [hplain, hR] at hs ⊢
  rcases hB with ⟨rfl, -⟩ | ⟨rfl, ab, hab, habv⟩
  · exact erases_append_cons_run hs hRv hT
  · -- the pair before the range holds `value`: the new boundary joins the run after it
    obtain ⟨P, rfl⟩ := List.getLast?_eq_some_iff.mp hab
    have hRv' : ∀ y ∈ (⟨keys.begin, value⟩ : MapPair Key V) :: R, y.value = ab.value := by
      intro y hy
      rw [habv]
      rcases List.mem_cons.mp hy with rfl | hy
      · rfl
      · exact hRv y hy
    simp only [List.append_assoc, List.singleton_append, List.nil_append] at hs ⊢
    exact erases_append_cons_run (R := ⟨keys.begin, value⟩ :: R) hs hRv' hT

omit [Inhabited V] [DecidableEq V] in
lemma insertRange_isChain (hwf : m.Wf) (s : Split m.map keys.begin keys.end A M c0 C be)
    {Bs T : List (MapPair Key V)} {value : V} (hB : BeginCase A keys.begin value Bs)
    (hE : EndCase m.mapEnd keys.end value be c0 C T) :
    (A ++ (Bs ++ T)).IsChain (NonRedundant m.mapEnd) := by
  -- the pairs below the range, and `be` with the pairs from `c0` on, come from the map
  obtain ⟨P, hP⟩ := List.getLast?_eq_some_iff.mp s.last
  have hA : A.IsChain (NonRedundant m.mapEnd) :=
    hwf.chain.prefix ⟨M ++ c0 :: C, by rw [s.eq, List.append_assoc]⟩
  have hbC : (be :: c0 :: C).IsChain (NonRedundant m.mapEnd) :=
    hwf.chain.suffix ⟨P, by rw [s.eq, hP, List.append_assoc, List.singleton_append]⟩
  obtain ⟨hT, hThead⟩ := hE.isChain hbC
  rcases hB with ⟨rfl, hne⟩ | ⟨rfl, ab, hab, habv⟩
  · -- the new boundary differs from the pair before it and from the one after it
    refine List.isChain_append.mpr ⟨hA, hT.cons hThead, fun ab hab y hy => ?_⟩
    rw [List.singleton_append, List.head?_cons, Option.mem_some_iff] at hy
    rw [← hy]
    exact .inl (Ne.symm (hne ab hab))
  · -- the pair before the range holds `value`, which the first pair kept after it does not
    refine List.isChain_append.mpr ⟨hA, hT, fun ab' hab' y hy => ?_⟩
    obtain rfl : ab = ab' := Option.mem_unique hab hab'
    show y.value ≠ ab.value ∨ y.key = m.mapEnd
    rw [habv]
    exact hThead y (by rwa [List.nil_append] at hy)

lemma insertRange_spec (hwf : m.Wf) (hle : keys.end ≤ m.mapEnd) (value : V) :
    ∃ m', m.insertRange keys value = some m' ∧ m'.mapEnd = m.mapEnd ∧ m'.Wf ∧
      ∀ k, m'.get k = if keys.begin ≤ k ∧ k < keys.end then value else m.get k := by
  rcases keys.begin_le_end.lt_or_eq with hlt | heq
  · obtain ⟨A, M, c0, C, be, s⟩ := hwf.split (RYW.allKeysBegin_le _) hlt hle
    obtain ⟨m', Bs, T, hins, hend, hmap, hB, hE⟩ := insertRange_cases hwf hlt hle s value
    have hwfi : (m.toRangeMap.insert ⟨keys.begin, keys.end⟩ value).Wf m.mapEnd :=
      insert_wf hwf.toWf value (RYW.allKeysBegin_le _) hlt.le hle
    have her := insertRange_erases hwf hlt hle s value hB hE
    rw [← hmap] at her
    have hwf' : m'.toRangeMap.Wf m'.mapEnd := hend ▸ hwfi.of_erases her
    refine ⟨m', hins, hend, ⟨hwf', ?_⟩, fun k => ?_⟩
    · rw [hend, hmap]
      exact insertRange_isChain hwf s hB hE
    · -- the keys' values are those of the plain insert
      have hget := @insert_get _ _ _ _ _ m.toRangeMap m.mapEnd ⟨keys.begin, keys.end⟩ hwf.toWf value
        (RYW.allKeysBegin_le _) hlt.le hle k
      dsimp only at hget
      rw [her.get_eq hwfi.sorted, hget]
      by_cases hk : keys.begin ≤ k ∧ k < keys.end
      · rw [if_pos hk, if_pos hk]
      · rw [if_neg hk, if_neg hk]
  · -- an empty range changes nothing
    refine ⟨m, ?_, rfl, hwf, fun k => ?_⟩
    · rw [insertRange, if_neg (not_not.mpr hle), if_pos heq]
    · rw [if_neg (fun h => absurd (h.1.trans_lt h.2) (heq ▸ lt_irrefl _))]

/-- `singleKeyRange(key)`: the range of `key` alone. -/
def singleKeyRange (key : Key) : KeyRangeRef := ⟨key, keyAfter key, (RYW.lt_keyAfter key).le⟩

@[simp] lemma singleKeyRange_begin (key : Key) : (singleKeyRange key).begin = key := rfl

@[simp] lemma singleKeyRange_end (key : Key) : (singleKeyRange key).end = keyAfter key := rfl

lemma insertKey_eq (hwf : m.Wf) {key : Key} (hk : key < m.mapEnd) (value : V) :
    m.insertKey key value = m.insertRange (singleKeyRange key) value := by
  have hle : keyAfter key ≤ m.mapEnd := RYW.keyAfter_le_iff.mpr hk
  obtain ⟨A, M, c0, C, be, s⟩ := hwf.split (RYW.allKeysBegin_le _) (RYW.lt_keyAfter key) hle
  have hc0 : key < c0.key := (RYW.lt_keyAfter key).trans_le s.le_c0
  -- the pairs between `key` and `keyAfter(key)` are at most the one at `key`
  have hM : M = [] ∨ ∃ p, M = [p] ∧ p.key = key := by
    have hMkey : ∀ y ∈ M, y.key = key := fun y hy =>
      le_antisymm (RYW.lt_keyAfter_iff.mp (s.mem_M y hy).2) (s.mem_M y hy).1
    have hMs : Keyed.Sorted MapPair.key M := by
      refine hwf.sorted.sublist ?_
      rw [s.eq]
      exact (List.sublist_append_right A M).trans (List.sublist_append_left _ _)
    match M, hMkey, hMs with
    | [], _, _ => exact .inl rfl
    | [p], hMkey, _ => exact .inr ⟨p, rfl, hMkey p List.mem_cons_self⟩
    | p :: q :: _, hMkey, hMs =>
      have hpq := (List.pairwise_cons.mp hMs).1 q (by simp)
      rw [hMkey p (by simp), hMkey q (by simp)] at hpq
      exact absurd hpq (lt_irrefl _)
  have he : (if (m.map.getD A.length default).key = key then A.length + 1 else A.length) =
      (A ++ M).length := by
    rcases hM with rfl | ⟨p, rfl, hp⟩
    · have hget := s.getD_c0
      rw [List.append_nil] at hget
      rw [hget, if_neg hc0.ne', List.append_nil]
    · have hget : m.map.getD A.length default = p := by
        rw [s.eq, List.append_assoc, List.getD_append_right _ _ _ _ le_rfl, Nat.sub_self]
        rfl
      rw [hget, if_pos hp, List.length_append, List.length_singleton]
  rw [insertKey, insertRange, if_neg (not_not.mpr hk),
    if_neg (show ¬¬(singleKeyRange key).end ≤ m.mapEnd from not_not.mpr hle),
    if_neg (show (singleKeyRange key).begin ≠ (singleKeyRange key).end from
      (RYW.lt_keyAfter key).ne)]
  simp only [singleKeyRange_begin, singleKeyRange_end, s.lowerBound_a, s.lowerBound_b, he,
    s.getD_c0, s.getD_be]
  have hek : ∀ k, equalsKeyAfter key k = (k == keyAfter key) := fun k =>
    Bool.eq_iff_iff.mpr (by rw [RYW.equalsKeyAfter_iff, beq_iff_eq])
  by_cases hend : keyAfter key = m.mapEnd
  · -- at `mapEnd` the boundary after `key` is the one at `mapEnd`
    have hc0e : c0.key = keyAfter key :=
      le_antisymm (hend ▸ (hwf.mem_bounds c0 (s.mem_of_mem_C List.mem_cons_self)).2) s.le_c0
    simp [hend, hc0e, hek]
  · have hend' : (keyAfter key == m.mapEnd) = false := beq_eq_false_iff_ne.mpr hend
    simp [hek, bne, hend']

lemma insertKey_spec (hwf : m.Wf) {key : Key} (hk : key < m.mapEnd) (value : V) :
    ∃ m', m.insertKey key value = some m' ∧ m'.mapEnd = m.mapEnd ∧ m'.Wf ∧
      ∀ k, m'.get k = if k = key then value else m.get k := by
  obtain ⟨m', hins, hend, hwf', hget⟩ :=
    insertRange_spec hwf (show (singleKeyRange key).end ≤ m.mapEnd from RYW.keyAfter_le_iff.mpr hk)
      value
  refine ⟨m', by rw [insertKey_eq hwf hk]; exact hins, hend, hwf', fun k => ?_⟩
  -- the keys of `[key, keyAfter(key))` are `key` alone
  have hcov : ((singleKeyRange key).begin ≤ k ∧ k < (singleKeyRange key).end) ↔ k = key := by
    rw [singleKeyRange_begin, singleKeyRange_end, RYW.lt_keyAfter_iff, ← le_antisymm_iff, eq_comm]
  by_cases hkk : k = key
  · rw [hget, if_pos (hcov.mpr hkk), if_pos hkk]
  · rw [hget, if_neg (mt hcov.mp hkk), if_neg hkk]

lemma apply_spec (hwf : m.Wf) {op : CoalescedOp V} (hop : op.Valid m.mapEnd) :
    ∃ m', m.apply op = some m' ∧ m'.mapEnd = m.mapEnd ∧ m'.Wf ∧
      ∀ k, m'.get k = if op.covers k then op.value else m.get k := by
  cases op with
  | insertRange keys value => exact insertRange_spec hwf hop value
  | insertKey key value => exact insertKey_spec hwf hop value

lemma run_spec (hwf : m.Wf) {ops : List (CoalescedOp V)} (hops : ∀ op ∈ ops, op.Valid m.mapEnd) :
    ∃ m', m.run ops = some m' ∧ m'.mapEnd = m.mapEnd ∧ m'.Wf ∧
      ∀ k, m'.get k = ops.foldl (fun x op => if op.covers k then op.value else x) (m.get k) := by
  induction ops generalizing m with
  | nil => exact ⟨m, rfl, rfl, hwf, fun k => rfl⟩
  | cons op ops ih =>
    obtain ⟨m₁, h₁, hend₁, hwf₁, hget₁⟩ := apply_spec hwf (hops op List.mem_cons_self)
    obtain ⟨m', h', hend', hwf', hget'⟩ :=
      ih hwf₁ fun o ho => hend₁ ▸ hops o (List.mem_cons_of_mem _ ho)
    refine ⟨m', ?_, hend'.trans hend₁, hwf', fun k => ?_⟩
    · rw [run, List.foldlM_cons, h₁, Option.bind_eq_bind, Option.bind_some]
      exact h'
    · rw [hget' k, hget₁ k, List.foldl_cons]

end Insert

section Init

variable [Inhabited V]

lemma init_wf (v : V) (endKey : Key) : (init v endKey).Wf := by
  refine ⟨RangeMap.init_wf (RYW.allKeysBegin_le endKey) v, ?_⟩
  show (RangeMap.init endKey v).map.IsChain (NonRedundant endKey)
  rcases (RYW.allKeysBegin_le endKey).lt_or_eq with h | h
  · rw [RangeMap.init_map_of_lt h v]
    exact List.isChain_pair.mpr (.inr rfl)
  · -- a map that ends where it begins holds one pair
    have hmap : (RangeMap.init (default : Key) v).map = [⟨default, default⟩] := by
      simp [RangeMap.init, Map.insert, Keyed.insert, Keyed.eraseKey]
    rw [← h]
    exact hmap ▸ List.isChain_singleton _

lemma init_get (v : V) {endKey k : Key} (hk : k < endKey) : (init v endKey).get k = v :=
  RangeMap.init_get v (RYW.allKeysBegin_le k) hk

variable [DecidableEq V]

lemma run_lastWriter (v : V) (endKey : Key) {ops : List (CoalescedOp V)}
    (hops : ∀ op ∈ ops, op.Valid endKey) :
    ∃ m, (init v endKey).run ops = some m ∧ m.mapEnd = endKey ∧ m.Wf ∧ m.validateCoalesced ∧
      ∀ k < endKey, m.get k = lastWriter v ops k := by
  obtain ⟨m, hrun, hend, hwf, hget⟩ := run_spec (init_wf v endKey) hops
  refine ⟨m, hrun, hend, hwf, hwf.validateCoalesced_of_isChain hwf.chain, fun k hk => ?_⟩
  rw [hget k, init_get v hk]
  rfl

end Init

end CoalescedRangeMap

section Runs

variable {κ V : Type} [LinearOrder κ] [Inhabited κ] [Inhabited V] [DecidableEq V]

theorem rangeMap_inserts_lastWriter :
    (∀ (v : V) (endKey : Key) (ops : List (CoalescedOp V)), (∀ op ∈ ops, op.Valid endKey) →
      ∃ m, (CoalescedRangeMap.init v endKey).run ops = some m ∧ m.mapEnd = endKey ∧
        Keyed.Sorted MapPair.key m.map ∧ (∃ v₀, (⟨allKeysBegin, v₀⟩ : MapPair Key V) ∈ m.map) ∧
        (∃ v₁, (⟨endKey, v₁⟩ : MapPair Key V) ∈ m.map) ∧ m.validateCoalesced ∧
        ∀ k < endKey, m.get k = CoalescedRangeMap.lastWriter v ops k) ∧
    (∀ (r : RangeMap κ V) (endKey : κ) (keys : RangeMapRange κ) (value : V), r.Wf endKey →
      default ≤ keys.begin → keys.begin ≤ keys.end → keys.end ≤ endKey →
      (r.insert keys value).Wf endKey ∧
        ∀ k, (r.insert keys value).get k = if keys.begin ≤ k ∧ k < keys.end then value else r.get k) ∧
    (∀ (r : RangeMap κ V) (endKey : κ) (k : RangeMapRange κ), r.Wf endKey → default < endKey →
      default ≤ k.begin →
      ∃ r', r.coalesceRange k = some r' ∧ r'.Wf endKey ∧ r'.map.Sublist r.map ∧
        (∀ x, r'.get x = r.get x) ∧
        ∀ j (hj : j + 1 < r'.map.length), lastLessOrEqual r'.map k.begin ≤ j → 0 < j →
          r'.map[j - 1].key < k.end → r'.map[j - 1].value ≠ r'.map[j].value) := by
  refine ⟨fun v endKey ops hops => ?_, fun r endKey keys value hwf hb hbe he =>
    ⟨RangeMap.insert_wf hwf value hb hbe he, RangeMap.insert_get hwf value hb hbe he⟩,
    fun r endKey k hwf hlt hk => ?_⟩
  · obtain ⟨m, hrun, hend, hwf, hval, hget⟩ := CoalescedRangeMap.run_lastWriter v endKey hops
    exact ⟨m, hrun, hend, hwf.sorted, hwf.begin_mem, hend ▸ hwf.end_mem, hval, hget⟩
  · obtain ⟨r', hco, her, hdiff⟩ := RangeMap.coalesceRange_spec hwf hlt k hk
    refine ⟨r', hco, hwf.of_erases her, her.sublist, her.get_eq hwf.sorted,
      fun j hj hj₁ hj₀ hkey => ?_⟩
    -- the pairs around `j` are where the loop left them
    have hd := hdiff j hj₁ hj₀ hj
    rw [List.getD_eq_getElem _ _ (by omega), List.getD_eq_getElem _ _ (by omega)] at hd
    exact hd hkey

theorem rangeMap_inserts_lastWriter_sample :
    (∃ m, (CoalescedRangeMap.init (0 : ℕ) allKeysEnd).run
        [.insertRange ⟨[1], [3], by decide⟩ 5, .insertKey [2] 7, .insertRange ⟨[2], [4], by decide⟩ 0] =
          some m ∧ m.get [1] = 5 ∧ m.get [2] = 0 ∧ m.get [3] = 0 ∧ m.validateCoalesced) := by
  obtain ⟨m, hrun, -, -, -, -, hval, hget⟩ :=
    (@rangeMap_inserts_lastWriter ℕ ℕ _ _ _ _).1 0 allKeysEnd
      [.insertRange ⟨[1], [3], by decide⟩ 5, .insertKey [2] 7, .insertRange ⟨[2], [4], by decide⟩ 0]
      (by decide)
  refine ⟨m, hrun, ?_, ?_, ?_, hval⟩
  · rw [hget [1] (by decide)]
    decide
  · rw [hget [2] (by decide)]
    decide
  · rw [hget [3] (by decide)]
    decide

end Runs

end FoundationDB
