import FoundationDB.Rpc.RangeMap

/-! What a range map denotes, and how `insert` and `coalesce` change it. A well-formed map
has its boundaries in increasing order from `Key()` to `endKey`, and `operator[]` reads the
last one at or before the key. `insert` gives the range the new value and leaves every other
key's; `coalesce` erases only boundaries that hold the value of the one kept before them, so
that no key's value changes. -/

namespace FoundationDB.RangeMap

open Map

variable {κ V : Type} [LinearOrder κ]

/-- A range map as its constructor leaves it and its operations keep it: boundaries in
increasing order, one at `Key()` and one at `endKey`, and none outside them. -/
structure Wf [Inhabited κ] (r : RangeMap κ V) (endKey : κ) : Prop where
  sorted : Keyed.Sorted MapPair.key r.map
  begin_mem : ∃ v, (⟨default, v⟩ : MapPair κ V) ∈ r.map
  end_mem : ∃ v, (⟨endKey, v⟩ : MapPair κ V) ∈ r.map
  mem_bounds : ∀ p ∈ r.map, default ≤ p.key ∧ p.key ≤ endKey

section ValueAt

/-- The value a list of boundaries gives a key: that of the last one at or before it. -/
def valueAt (l : List (MapPair κ V)) (k : κ) : Option V :=
  (Keyed.lastLE MapPair.key l k).map MapPair.value

variable {l : List (MapPair κ V)} {k : κ}

lemma valueAt_append (l₁ l₂ : List (MapPair κ V)) (k : κ) :
    valueAt (l₁ ++ l₂) k = (valueAt l₂ k).or (valueAt l₁ k) := by
  rw [valueAt, Keyed.lastLE_append, Option.map_or]
  rfl

lemma valueAt_eq_none (h : ∀ y ∈ l, k < y.key) : valueAt l k = none := by
  rw [valueAt, Keyed.lastLE_eq_none_iff.mpr h, Option.map_none]

lemma valueAt_eq_getLast? (h : ∀ y ∈ l, y.key ≤ k) :
    valueAt l k = l.getLast?.map MapPair.value := by
  rw [valueAt, Keyed.lastLE_eq_getLast? h]

lemma valueAt_singleton_of_le {x : MapPair κ V} (hx : x.key ≤ k) : valueAt [x] k = some x.value := by
  rw [valueAt_eq_getLast? (by simpa using hx)]
  rfl

lemma valueAt_cons_of_le {x : MapPair κ V} (hx : x.key ≤ k) (l : List (MapPair κ V)) :
    valueAt (x :: l) k = (valueAt l k).or (some x.value) := by
  rw [← List.singleton_append, valueAt_append, valueAt_singleton_of_le hx]

lemma get_eq_valueAt [Inhabited κ] [Inhabited V] {r : RangeMap κ V} (hs : Keyed.Sorted MapPair.key r.map) (k : κ) :
    r.get k = (valueAt r.map k).getD default := by
  rw [get, getD_lastLessOrEqual hs, valueAt]
  cases Keyed.lastLE MapPair.key r.map k <;> rfl

end ValueAt

section Init

variable [Inhabited κ] [Inhabited V] {endKey : κ}

lemma init_map_of_lt (h : default < endKey) (v : V) :
    (init endKey v).map = [⟨default, v⟩, ⟨endKey, default⟩] := by
  simp [init, Map.insert, Keyed.insert, Keyed.eraseKey, h.ne, h.le]

lemma init_wf (h : default ≤ endKey) (v : V) : (init endKey v).Wf endKey := by
  rcases h.lt_or_eq with h | h
  · have hmap := init_map_of_lt h v
    refine ⟨?_, ⟨v, ?_⟩, ⟨default, ?_⟩, ?_⟩ <;> rw [hmap]
    · simp [Keyed.Sorted, h]
    · simp
    · simp
    · simp [h.le]
  · subst h
    have hmap : (init (default : κ) v).map = [⟨default, default⟩] := by
      simp [init, Map.insert, Keyed.insert, Keyed.eraseKey]
    refine ⟨?_, ⟨default, ?_⟩, ⟨default, ?_⟩, ?_⟩ <;> rw [hmap]
    · simp [Keyed.Sorted]
    · simp
    · simp
    · simp

lemma init_get (v : V) {k : κ} (hk : default ≤ k) (hke : k < endKey) : (init endKey v).get k = v := by
  have h : default < endKey := hk.trans_lt hke
  rw [get_eq_valueAt (init_wf h.le v).sorted, init_map_of_lt h, ← List.singleton_append,
    valueAt_append, valueAt_eq_none (by simpa using hke), valueAt_eq_getLast? (by simpa using hk)]
  rfl

lemma init_get_of_le (v : V) {k : κ} (h : default < endKey) (hke : endKey ≤ k) :
    (init endKey v).get k = default := by
  rw [get_eq_valueAt (init_wf h.le v).sorted, init_map_of_lt h,
    valueAt_eq_getLast? (by simpa using ⟨h.le.trans hke, hke⟩)]
  rfl

lemma init_intersectingRanges (v : V) {b e : κ} (hb : default ≤ b) (hbe : b < e)
    (he : e ≤ endKey) : (init endKey v).intersectingRanges ⟨b, e⟩ = [(⟨default, endKey⟩, v)] := by
  have h : default < endKey := hb.trans_lt (hbe.trans_le he)
  -- `rangeContaining(b)` is the first pair, and the second is the first not below `e`
  have hfirst : Map.lastLessOrEqual (init endKey v).map b = 0 := by
    simp [init_map_of_lt h v, Map.lastLessOrEqual, hb, hbe.trans_le he]
  have hlower : Map.lowerBound (init endKey v).map e = 1 := by
    simp [init_map_of_lt h v, Map.lowerBound, hb.trans_lt hbe, he]
  simp only [intersectingRanges, hfirst, hlower]
  simp [init_map_of_lt h v]

end Init

section Split

/-- A map cut at keys `a < b` into the pairs `A` below `a`, those `M` from `a` below `b`
(ending with `be`), and those from `b` on (starting with `c0`). -/
structure Split (m : List (MapPair κ V)) (a b : κ) (A M : List (MapPair κ V)) (c0 : MapPair κ V)
    (C : List (MapPair κ V)) (be : MapPair κ V) : Prop where
  lt : a < b
  eq : m = A ++ M ++ c0 :: C
  lt_A : ∀ y ∈ A, y.key < a
  mem_M : ∀ y ∈ M, a ≤ y.key ∧ y.key < b
  le_c0 : b ≤ c0.key
  lt_C : ∀ y ∈ C, c0.key < y.key
  last : (A ++ M).getLast? = some be

namespace Split

variable {m A M C : List (MapPair κ V)} {a b : κ} {c0 be : MapPair κ V}
  (s : Split m a b A M c0 C be)
include s

lemma lt_AM : ∀ y ∈ A ++ M, y.key < b := by
  intro y hy
  rcases List.mem_append.mp hy with hy | hy
  · exact (s.lt_A y hy).trans s.lt
  · exact (s.mem_M y hy).2

lemma le_C : ∀ y ∈ c0 :: C, b ≤ y.key := by
  intro y hy
  rcases List.mem_cons.mp hy with rfl | hy
  · exact s.le_c0
  · exact s.le_c0.trans (s.lt_C y hy).le

lemma le_MC : ∀ y ∈ M ++ c0 :: C, a ≤ y.key := by
  intro y hy
  rcases List.mem_append.mp hy with hy | hy
  · exact (s.mem_M y hy).1
  · exact s.lt.le.trans (s.le_C y hy)

lemma lowerBound_a : lowerBound m a = A.length := by
  rw [s.eq, List.append_assoc]
  exact lowerBound_append s.lt_A s.le_MC

lemma lowerBound_b : lowerBound m b = (A ++ M).length := by
  rw [s.eq]
  exact lowerBound_append s.lt_AM s.le_C

lemma mem_A_of_lt {y : MapPair κ V} (hy : y ∈ m) (hk : y.key < a) : y ∈ A := by
  rw [s.eq, List.append_assoc] at hy
  rcases List.mem_append.mp hy with hy | hy
  · exact hy
  · exact absurd (s.le_MC y hy) (not_le.mpr hk)

lemma mem_C_of_le {y : MapPair κ V} (hy : y ∈ m) (hk : b ≤ y.key) : y ∈ c0 :: C := by
  rw [s.eq] at hy
  rcases List.mem_append.mp hy with hy | hy
  · exact absurd (s.lt_AM y hy) (not_lt.mpr hk)
  · exact hy

lemma mem_of_mem_A {y : MapPair κ V} (hy : y ∈ A) : y ∈ m := by
  rw [s.eq, List.append_assoc]
  exact List.mem_append_left _ hy

lemma mem_of_mem_C {y : MapPair κ V} (hy : y ∈ c0 :: C) : y ∈ m := by
  rw [s.eq]
  exact List.mem_append_right _ hy

lemma sorted_A (hs : Keyed.Sorted MapPair.key m) : Keyed.Sorted MapPair.key A :=
  hs.sublist (by rw [s.eq, List.append_assoc]; exact List.sublist_append_left _ _)

lemma sorted_C (hs : Keyed.Sorted MapPair.key m) : Keyed.Sorted MapPair.key (c0 :: C) :=
  hs.sublist (by rw [s.eq]; exact List.sublist_append_right _ _)

lemma valueAt_of_lt {k : κ} (hk : k < a) : valueAt m k = valueAt A k := by
  rw [s.eq, List.append_assoc, valueAt_append,
    valueAt_eq_none fun y hy => hk.trans_le (s.le_MC y hy), Option.none_or]

lemma valueAt_of_le {k : κ} (hk : b ≤ k) :
    valueAt m k = (valueAt (c0 :: C) k).or (some be.value) := by
  rw [s.eq, valueAt_append, valueAt_eq_getLast? fun y hy => (s.lt_AM y hy).le.trans hk, s.last]
  rfl

variable [Inhabited κ] [Inhabited V]

lemma getD_c0 : m.getD (A ++ M).length default = c0 := by
  rw [s.eq, List.getD_append_right _ _ _ _ le_rfl, Nat.sub_self]
  rfl

lemma getD_be : m.getD ((A ++ M).length - 1) default = be := by
  obtain ⟨P, hP⟩ := List.getLast?_eq_some_iff.mp s.last
  rw [s.eq, hP, List.length_append, List.length_singleton, Nat.add_sub_cancel, List.append_assoc,
    List.getD_append_right _ _ _ _ le_rfl, Nat.sub_self]
  rfl

end Split

variable [Inhabited κ] {r : RangeMap κ V} {endKey : κ}

lemma Wf.split (hwf : r.Wf endKey) {a b : κ} (ha : default ≤ a) (hab : a < b) (hb : b ≤ endKey) :
    ∃ A M c0 C be, Split r.map a b A M c0 C be := by
  obtain ⟨A, M, C, hm, hA, hM, hC⟩ := Map.exists_split hwf.sorted hab.le
  obtain ⟨v₀, hv₀⟩ := hwf.begin_mem
  obtain ⟨v₁, hv₁⟩ := hwf.end_mem
  -- the boundary at `endKey` is from `b` on, so the last part is not empty
  obtain ⟨c0, C, rfl⟩ : ∃ c0 C', C = c0 :: C' := by
    cases C with
    | nil =>
      rw [hm, List.append_nil] at hv₁
      rcases List.mem_append.mp hv₁ with hv | hv
      · exact absurd ((hA _ hv).trans (hab.trans_le hb)) (lt_irrefl _)
      · exact absurd ((hM _ hv).2.trans_le hb) (lt_irrefl _)
    | cons c0 C' => exact ⟨c0, C', rfl⟩
  -- the boundary at `Key()` is below `b`, so the first two parts are not empty
  obtain ⟨be, hbe⟩ : ∃ be, (A ++ M).getLast? = some be := by
    cases h : (A ++ M).getLast? with
    | none =>
      rw [List.getLast?_eq_none_iff] at h
      rw [hm, h, List.nil_append] at hv₀
      exact absurd (hC _ hv₀) (not_le.mpr (ha.trans_lt hab))
    | some be => exact ⟨be, rfl⟩
  have hsC : Keyed.Sorted MapPair.key (c0 :: C) :=
    hwf.sorted.sublist (by rw [hm]; exact List.sublist_append_right _ _)
  exact ⟨A, M, c0, C, be, hab, hm, hA, hM, hC c0 List.mem_cons_self,
    fun y hy => (List.pairwise_cons.mp hsC).1 y hy, hbe⟩

end Split

section Insert

variable [Inhabited κ] [Inhabited V] {r : RangeMap κ V} {endKey : κ} {keys : RangeMapRange κ}
  {A M C : List (MapPair κ V)} {c0 be : MapPair κ V}

lemma insert_map_of_split (value : V) (s : Split r.map keys.begin keys.end A M c0 C be) :
    (r.insert keys value).map =
      A ++ ⟨keys.begin, value⟩ :: ((if c0.key = keys.end then [] else [⟨keys.end, be.value⟩]) ++ c0 :: C) := by
  unfold insert
  rw [if_neg s.lt.ne]
  dsimp only
  rw [s.lowerBound_b, s.getD_c0, s.getD_be]
  by_cases hc : c0.key = keys.end
  · -- the boundary at `keys.end` is there: the pairs of the range give way to the new one
    have hCb : ∀ y ∈ c0 :: C, keys.begin < y.key := fun y hy => s.lt.trans_le (s.le_C y hy)
    rw [if_neg (not_not.mpr hc), if_pos hc, s.lowerBound_b, s.lowerBound_a, s.eq, erase_append,
      List.nil_append, insert_append s.lt_A hCb]
  · have hCe : ∀ y ∈ c0 :: C, keys.end < y.key := by
      intro y hy
      rcases List.mem_cons.mp hy with rfl | hy
      · exact lt_of_le_of_ne s.le_c0 (Ne.symm hc)
      · exact s.le_c0.trans_lt (s.lt_C y hy)
    -- the map with the boundary at `keys.end` added is cut at the same places
    have s' : Split (A ++ M ++ ⟨keys.end, be.value⟩ :: c0 :: C) keys.begin keys.end A M
        ⟨keys.end, be.value⟩ (c0 :: C) be :=
      ⟨s.lt, rfl, s.lt_A, s.mem_M, le_rfl, hCe, s.last⟩
    rw [if_pos hc, if_neg hc, s.eq, insert_append s.lt_AM hCe, s'.lowerBound_b, s'.lowerBound_a,
      erase_append, insert_append s.lt_A fun y hy => s.lt.trans_le (s'.le_C y hy)]
    rfl

lemma insert_of_empty (value : V) (h : keys.begin = keys.end) : r.insert keys value = r := by
  rw [insert, if_pos h]

omit [Inhabited κ] [Inhabited V] in
lemma insert_tail_spec (s : Split r.map keys.begin keys.end A M c0 C be)
    (hs : Keyed.Sorted MapPair.key r.map) :
    Keyed.Sorted MapPair.key ((if c0.key = keys.end then [] else [⟨keys.end, be.value⟩]) ++ c0 :: C) ∧
      (∀ y ∈ (if c0.key = keys.end then [] else [⟨keys.end, be.value⟩]) ++ c0 :: C,
        keys.end ≤ y.key ∧ (y ∈ r.map ∨ y.key = keys.end)) ∧
      ∀ k, keys.end ≤ k →
        valueAt ((if c0.key = keys.end then [] else [⟨keys.end, be.value⟩]) ++ c0 :: C) k =
          (valueAt (c0 :: C) k).or (some be.value) := by
  have hC : ∀ y ∈ c0 :: C, keys.end ≤ y.key ∧ (y ∈ r.map ∨ y.key = keys.end) :=
    fun y hy => ⟨s.le_C y hy, .inl (s.mem_of_mem_C hy)⟩
  split_ifs with hc
  · refine ⟨s.sorted_C hs, hC, fun k hk => ?_⟩
    rw [List.nil_append, valueAt_cons_of_le (hc ▸ hk), Option.or_assoc, Option.some_or]
  · have hCe : ∀ y ∈ c0 :: C, keys.end < y.key := by
      intro y hy
      rcases List.mem_cons.mp hy with rfl | hy
      · exact lt_of_le_of_ne s.le_c0 (Ne.symm hc)
      · exact s.le_c0.trans_lt (s.lt_C y hy)
    refine ⟨List.pairwise_cons.mpr ⟨hCe, s.sorted_C hs⟩, ?_, fun k hk => ?_⟩
    · intro y hy
      rcases List.mem_cons.mp hy with rfl | hy
      · exact ⟨le_rfl, .inr rfl⟩
      · exact hC y hy
    · rw [List.singleton_append, valueAt_cons_of_le hk]

lemma insert_wf (hwf : r.Wf endKey) (value : V) (hb : default ≤ keys.begin)
    (hbe : keys.begin ≤ keys.end) (he : keys.end ≤ endKey) : (r.insert keys value).Wf endKey := by
  rcases hbe.lt_or_eq with hlt | heq
  · obtain ⟨A, M, c0, C, be, s⟩ := hwf.split hb hlt he
    obtain ⟨hDs, hD, -⟩ := insert_tail_spec s hwf.sorted
    have hmap := insert_map_of_split value s
    have hCD : ∀ y ∈ c0 :: C, y ∈ (if c0.key = keys.end then [] else [⟨keys.end, be.value⟩]) ++ c0 :: C :=
      fun y hy => List.mem_append_right _ hy
    generalize (if c0.key = keys.end then [] else [⟨keys.end, be.value⟩]) ++ c0 :: C = D
      at hDs hD hmap hCD
    obtain ⟨v₀, hv₀⟩ := hwf.begin_mem
    obtain ⟨v₁, hv₁⟩ := hwf.end_mem
    refine ⟨?_, ?_, ⟨v₁, ?_⟩, ?_⟩ <;> rw [hmap]
    · exact Keyed.sorted_append_cons (s.sorted_A hwf.sorted) hDs s.lt_A
        fun y hy => hlt.trans_le (hD y hy).1
    · -- the boundary at `Key()` is below the range, or the range starts there
      rcases hb.lt_or_eq with hb | hb
      · exact ⟨v₀, List.mem_append_left _ (s.mem_A_of_lt hv₀ hb)⟩
      · exact ⟨value, List.mem_append_right _ (by rw [hb]; exact List.mem_cons_self)⟩
    · exact List.mem_append_right _ (List.mem_cons_of_mem _ (hCD _ (s.mem_C_of_le hv₁ he)))
    · intro p hp
      rcases List.mem_append.mp hp with hp | hp
      · exact hwf.mem_bounds p (s.mem_of_mem_A hp)
      · rcases List.mem_cons.mp hp with rfl | hp
        · exact ⟨hb, hlt.le.trans he⟩
        · rcases (hD p hp).2 with hp | hp
          · exact hwf.mem_bounds p hp
          · rw [hp]
            exact ⟨hb.trans hlt.le, he⟩
  · rw [insert_of_empty value heq]
    exact hwf

lemma insert_get (hwf : r.Wf endKey) (value : V) (hb : default ≤ keys.begin)
    (hbe : keys.begin ≤ keys.end) (he : keys.end ≤ endKey) (k : κ) :
    (r.insert keys value).get k = if keys.begin ≤ k ∧ k < keys.end then value else r.get k := by
  rw [get_eq_valueAt (insert_wf hwf value hb hbe he).sorted, get_eq_valueAt hwf.sorted]
  rcases hbe.lt_or_eq with hlt | heq
  · obtain ⟨A, M, c0, C, be, s⟩ := hwf.split hb hlt he
    obtain ⟨-, hD, hDv⟩ := insert_tail_spec s hwf.sorted
    rw [insert_map_of_split value s]
    generalize (if c0.key = keys.end then [] else [⟨keys.end, be.value⟩]) ++ c0 :: C = D at hD hDv
    rw [valueAt_append]
    by_cases hkb : k < keys.begin
    · -- below the range nothing changed
      have hDk : ∀ y ∈ (⟨keys.begin, value⟩ : MapPair κ V) :: D, k < y.key := by
        intro y hy
        rcases List.mem_cons.mp hy with rfl | hy
        · exact hkb
        · exact hkb.trans (hlt.trans_le (hD y hy).1)
      rw [if_neg (show ¬(keys.begin ≤ k ∧ k < keys.end) from fun h => absurd h.1 (not_le.mpr hkb)),
        s.valueAt_of_lt hkb, valueAt_eq_none hDk, Option.none_or]
    · by_cases hke : k < keys.end
      · -- inside the range the new boundary is the last one
        rw [if_pos ⟨not_lt.mp hkb, hke⟩, valueAt_cons_of_le (not_lt.mp hkb),
          valueAt_eq_none fun y hy => hke.trans_le (hD y hy).1, Option.none_or, Option.some_or]
        rfl
      · -- from `keys.end` on, the boundary at `keys.end` carries the value that held there
        have hek : keys.end ≤ k := not_lt.mp hke
        rw [if_neg (show ¬(keys.begin ≤ k ∧ k < keys.end) from fun h => hke h.2),
          s.valueAt_of_le hek, valueAt_cons_of_le (hlt.le.trans hek), hDv k hek]
        simp only [Option.or_assoc, Option.some_or]
  · rw [insert_of_empty value heq,
      if_neg (show ¬(keys.begin ≤ k ∧ k < keys.end) from fun h => absurd (h.1.trans_lt h.2) (heq ▸ lt_irrefl _))]

end Insert

end FoundationDB.RangeMap
