import FoundationDB.Rpc.RangeMapUpdate

/-! `coalesce(k)` and `coalesce(range)`. Both erase only boundaries that hold the value of the
boundary kept before them, so the map keeps its bounds and every key its value. `coalesce(k)`
keeps the first boundary of the run that holds the value at `k`; the loop of
`coalesce(range)` goes on from the boundary after it and, through the first kept boundary at
or after the range's end, leaves none with the value of the one before it. -/

namespace FoundationDB.RangeMap

open Map

variable {κ V : Type} [LinearOrder κ]

section Runs

variable {A R B : List (MapPair κ V)} {x : MapPair κ V}

lemma valueAt_mem {l : List (MapPair κ V)} {k : κ} {v : V} (h : valueAt l k = some v) :
    ∃ y ∈ l, y.value = v := by
  obtain ⟨y, hy, rfl⟩ := Option.map_eq_some_iff.mp h
  exact ⟨y, (List.mem_filter.mp (List.mem_of_getLast? hy)).1, rfl⟩

lemma valueAt_cons_run (hs : Keyed.Sorted MapPair.key (x :: R)) (hR : ∀ y ∈ R, y.value = x.value)
    (k : κ) : valueAt (x :: R) k = valueAt [x] k := by
  by_cases hx : x.key ≤ k
  · rw [valueAt_cons_of_le hx, valueAt_singleton_of_le hx]
    cases h : valueAt R k with
    | none => rfl
    | some v =>
      obtain ⟨y, hy, rfl⟩ := valueAt_mem h
      rw [Option.some_or, hR y hy]
  · have hxk : k < x.key := not_le.mp hx
    rw [valueAt_eq_none, valueAt_eq_none] <;> intro y hy
    · rw [List.mem_singleton.mp hy]
      exact hxk
    · rcases List.mem_cons.mp hy with rfl | hy
      · exact hxk
      · exact hxk.trans ((List.pairwise_cons.mp hs).1 y hy)

lemma valueAt_append_cons_run (hs : Keyed.Sorted MapPair.key (x :: R))
    (hR : ∀ y ∈ R, y.value = x.value) (k : κ) :
    valueAt (A ++ x :: (R ++ B)) k = valueAt (A ++ x :: B) k := by
  have h₁ : A ++ x :: (R ++ B) = A ++ ((x :: R) ++ B) := rfl
  have h₂ : A ++ x :: B = A ++ ([x] ++ B) := rfl
  rw [h₁, h₂, valueAt_append A, valueAt_append A, valueAt_append (x :: R), valueAt_append [x],
    valueAt_cons_run hs hR]

end Runs

section Erase

variable [Inhabited κ] [Inhabited V] {m : List (MapPair κ V)}

lemma valueAt_erase_run (hs : Keyed.Sorted MapPair.key m) {s e : ℕ} (hse : s < e)
    (he : e ≤ m.length)
    (hv : ∀ t, s < t → t < e → (m.getD t default).value = (m.getD s default).value) (k : κ) :
    valueAt (erase m (s + 1) e) k = valueAt m k := by
  have hs' : s < m.length := by omega
  have hdrop : m.drop (s + 1) = (m.drop (s + 1)).take (e - (s + 1)) ++ m.drop e := by
    conv_lhs => rw [← List.take_append_drop (e - (s + 1)) (m.drop (s + 1))]
    rw [List.drop_drop, Nat.add_sub_cancel' (by omega)]
  have hm : m = m.take s ++ m[s] :: ((m.drop (s + 1)).take (e - (s + 1)) ++ m.drop e) := by
    rw [← hdrop, ← List.drop_eq_getElem_cons hs', List.take_append_drop]
  have herase : erase m (s + 1) e = m.take s ++ m[s] :: m.drop e := by
    rw [erase, List.take_succ_eq_append_getElem hs', List.append_assoc, List.singleton_append]
  -- the run is sorted after the pair at `s`, and each of its pairs holds that pair's value
  have hsub : (m[s] :: (m.drop (s + 1)).take (e - (s + 1))).Sublist m := by
    refine List.Sublist.trans ?_ (List.drop_sublist s m)
    rw [List.drop_eq_getElem_cons hs']
    exact (List.take_sublist _ _).cons_cons _
  have hR : ∀ y ∈ (m.drop (s + 1)).take (e - (s + 1)), y.value = m[s].value := by
    intro y hy
    obtain ⟨t, ht, rfl⟩ := List.getElem_of_mem hy
    have ht' : t < e - (s + 1) := by simp only [List.length_take, List.length_drop] at ht; omega
    have := hv (s + 1 + t) (by omega) (by omega)
    rw [List.getD_eq_getElem _ _ (by omega), List.getD_eq_getElem _ _ hs'] at this
    rwa [List.getElem_take, List.getElem_drop]
  rw [herase]
  conv_rhs => rw [hm]
  exact (valueAt_append_cons_run (hs.sublist hsub) hR k).symm

end Erase

section Bounds

variable [Inhabited κ] {r r' : RangeMap κ V} {endKey : κ}

lemma Wf.head_key (hwf : r.Wf endKey) {x : MapPair κ V} (hx : r.map.head? = some x) :
    x.key = default := by
  obtain ⟨v, hv⟩ := hwf.begin_mem
  obtain ⟨l, hl⟩ := List.head?_eq_some_iff.mp hx
  have hs := hwf.sorted
  rw [hl] at hv hs
  refine le_antisymm ?_ (hwf.mem_bounds x (by rw [hl]; exact List.mem_cons_self)).1
  rcases List.mem_cons.mp hv with h | h
  · rw [← h]
  · exact ((List.pairwise_cons.mp hs).1 _ h).le

lemma Wf.getLast_key (hwf : r.Wf endKey) {x : MapPair κ V} (hx : r.map.getLast? = some x) :
    x.key = endKey := by
  obtain ⟨v, hv⟩ := hwf.end_mem
  obtain ⟨l, hl⟩ := List.getLast?_eq_some_iff.mp hx
  have hs := hwf.sorted
  rw [hl] at hv hs
  refine le_antisymm (hwf.mem_bounds x (by rw [hl]; simp)).2 ?_
  rcases List.mem_append.mp hv with h | h
  · exact ((List.pairwise_append.mp hs).2.2 _ h x (by simp)).le
  · rw [← List.mem_singleton.mp h]

lemma Wf.of_sublist (hwf : r.Wf endKey) (hsub : r'.map.Sublist r.map)
    (hhead : r'.map.head? = r.map.head?) (hlast : r'.map.getLast? = r.map.getLast?) :
    r'.Wf endKey := by
  obtain ⟨v₀, hv₀⟩ := hwf.begin_mem
  obtain ⟨v₁, hv₁⟩ := hwf.end_mem
  obtain ⟨⟨k₀, w₀⟩, h₀⟩ := Option.isSome_iff_exists.mp
    (List.isSome_head?.mpr (List.ne_nil_of_mem hv₀))
  obtain ⟨⟨k₁, w₁⟩, h₁⟩ := Option.isSome_iff_exists.mp
    (List.getLast?_isSome.mpr (List.ne_nil_of_mem hv₁))
  have hk₀ : k₀ = default := hwf.head_key h₀
  have hk₁ : k₁ = endKey := hwf.getLast_key h₁
  subst hk₀ hk₁
  refine ⟨hwf.sorted.sublist hsub, ⟨w₀, ?_⟩, ⟨w₁, ?_⟩, fun p hp => hwf.mem_bounds p (hsub.subset hp)⟩
  · exact List.mem_of_mem_head? (hhead.trans h₀)
  · exact List.mem_of_getLast? (hlast.trans h₁)

lemma Wf.one_lt_length (hwf : r.Wf endKey) (hlt : default < endKey) : 1 < r.map.length := by
  obtain ⟨v₀, hv₀⟩ := hwf.begin_mem
  obtain ⟨v₁, hv₁⟩ := hwf.end_mem
  generalize r.map = l at hv₀ hv₁
  rcases l with _ | ⟨x, _ | ⟨y, l⟩⟩
  · cases hv₀
  · rw [List.mem_singleton] at hv₀ hv₁
    exact absurd (congrArg MapPair.key (hv₀.trans hv₁.symm)) hlt.ne
  · simp

end Bounds

section Coalesce

variable [Inhabited κ] [Inhabited V] [DecidableEq V] (m : List (MapPair κ V)) (cv : V)

omit [LinearOrder κ] in
lemma coalesceBegin_spec (i : ℕ) :
    coalesceBegin m cv i ≤ i ∧
      (∀ t, coalesceBegin m cv i < t → t ≤ i → (m.getD t default).value = cv) ∧
      (coalesceBegin m cv i = 0 ∨ (m.getD (coalesceBegin m cv i) default).value ≠ cv) := by
  induction i with
  | zero => exact ⟨le_rfl, fun t h₁ h₂ => absurd h₁ (by omega), .inl rfl⟩
  | succ i ih =>
    by_cases h : (m.getD (i + 1) default).value = cv
    · rw [coalesceBegin, if_pos h]
      obtain ⟨h₁, h₂, h₃⟩ := ih
      refine ⟨by omega, fun t ht₁ ht₂ => ?_, h₃⟩
      rcases Nat.lt_or_eq_of_le ht₂ with ht₂ | rfl
      · exact h₂ t ht₁ (by omega)
      · exact h
    · rw [coalesceBegin, if_neg h]
      exact ⟨le_rfl, fun t ht₁ ht₂ => absurd ht₁ (by omega), .inr h⟩

omit [LinearOrder κ] in
lemma coalesceEnd_spec (i : ℕ) (hi : i < m.length) :
    i ≤ coalesceEnd m cv i ∧ coalesceEnd m cv i < m.length ∧
      (∀ t, i ≤ t → t < coalesceEnd m cv i → (m.getD t default).value = cv) ∧
      (coalesceEnd m cv i + 1 = m.length ∨ (m.getD (coalesceEnd m cv i) default).value ≠ cv) := by
  induction i using coalesceEnd.induct m cv with
  | case1 i h ih =>
    rw [coalesceEnd, if_pos h]
    obtain ⟨h₁, h₂, h₃, h₄⟩ := ih h.1
    refine ⟨by omega, h₂, fun t ht₁ ht₂ => ?_, h₄⟩
    rcases Nat.lt_or_eq_of_le ht₁ with ht₁ | rfl
    · exact h₃ t ht₁ ht₂
    · exact h.2
  | case2 i h =>
    rw [coalesceEnd, if_neg h]
    refine ⟨le_rfl, hi, fun t ht₁ ht₂ => absurd ht₁ (by omega), ?_⟩
    by_cases hl : i + 1 < m.length
    · exact .inr fun hv => h ⟨hl, hv⟩
    · exact .inl (by omega)

/-- Positions `s ≤ i ≤ e` of a map: the pairs from `s` up to `e` hold the value at `i`, the run
starts at `s` (the first pair, or after one with another value) and stops at `e` (the last
item, or a pair with another value). -/
structure Run (m : List (MapPair κ V)) (i s e : ℕ) : Prop where
  s_le : s ≤ i
  le_e : i ≤ e
  e_lt : e < m.length
  value_s : (m.getD s default).value = (m.getD i default).value
  value_run : ∀ t, s ≤ t → t < e → (m.getD t default).value = (m.getD s default).value
  start : s = 0 ∨ (m.getD (s - 1) default).value ≠ (m.getD s default).value
  stop : e + 1 = m.length ∨ (m.getD e default).value ≠ (m.getD s default).value

variable {r : RangeMap κ V} {endKey : κ}

lemma coalesce_eq (hwf : r.Wf endKey) (hlt : default < endKey) {k : κ} (hk : default ≤ k) :
    ∃ s e, Run r.map (lastLessOrEqual r.map k) s e ∧
      r.coalesce k = some ⟨if s = e then r.map else erase r.map (s + 1) e⟩ := by
  -- the first pair is at `Key()`, so `rangeContaining(k)` is a pair
  obtain ⟨v₀, hv₀⟩ := hwf.begin_mem
  have hi : lastLessOrEqual r.map k < r.map.length := lastLessOrEqual_lt_length hwf.sorted hv₀ hk
  have hlen := hwf.one_lt_length hlt
  unfold coalesce
  dsimp only
  rw [if_neg hi.ne]
  set i := lastLessOrEqual r.map k
  set cv := (r.map.getD i default).value with hcv
  obtain ⟨hb₁, hb₂, hb₃⟩ := coalesceBegin_spec r.map cv i
  obtain ⟨he₁, he₂, he₃, he₄⟩ := coalesceEnd_spec r.map cv i hi
  set b := coalesceBegin r.map cv i
  set e := coalesceEnd r.map cv i
  by_cases hbv : (r.map.getD b default).value = cv
  · -- the run reaches the first pair
    have hb0 : b = 0 := hb₃.resolve_right (not_not.mpr hbv)
    have hbe : b ≠ e := by
      intro hbe
      have hie : i = e := by omega
      rcases he₄ with he₄ | he₄
      · omega
      · exact he₄ (by rw [← hie])
    refine ⟨b, e, ⟨hb₁, he₁, he₂, hbv, fun t ht₁ ht₂ => ?_, .inl hb0, ?_⟩, ?_⟩
    · rw [hbv]
      rcases Nat.lt_or_ge i t with hit | hit
      · exact he₃ t hit.le ht₂
      · rcases Nat.lt_or_eq_of_le ht₁ with ht₁ | rfl
        · exact hb₂ t ht₁ hit
        · exact hbv
    · rwa [hbv]
    · rw [if_neg (not_not.mpr hbv), if_neg (show ¬(e < b + 1 ∧ e < r.map.length) by omega),
        if_neg hbe]
  · -- the pair at `b` holds another value, and the run starts after it
    have hbi : b < i := lt_of_le_of_ne hb₁ fun h => hbv (by rw [h])
    have hvb : (r.map.getD (b + 1) default).value = cv := hb₂ (b + 1) (by omega) (by omega)
    refine ⟨b + 1, e, ⟨by omega, he₁, he₂, hvb, fun t ht₁ ht₂ => ?_, .inr ?_, ?_⟩, ?_⟩
    · rw [hvb]
      rcases Nat.lt_or_ge i t with hit | hit
      · exact he₃ t hit.le ht₂
      · exact hb₂ t (by omega) hit
    · rwa [Nat.add_sub_cancel, hvb]
    · rwa [hvb]
    · rw [if_pos hbv]
      by_cases hbe : b + 1 = e
      · rw [if_pos hbe, if_pos hbe]
      · rw [if_neg hbe, if_neg hbe]

end Coalesce

section Loop

variable [Inhabited κ] [Inhabited V]

lemma key_getD_le {l : List (MapPair κ V)} (hs : Keyed.Sorted MapPair.key l) {i j : ℕ} (hij : i ≤ j)
    (hj : j < l.length) : (l.getD i default).key ≤ (l.getD j default).key := by
  rw [List.getD_eq_getElem _ _ (by omega), List.getD_eq_getElem _ _ hj]
  exact hs.key_le_of_le _ hj hij

omit [LinearOrder κ] in
lemma getD_eraseIdx_of_lt (l : List (MapPair κ V)) {i j : ℕ} (h : j < i) :
    (l.eraseIdx i).getD j default = l.getD j default := by
  rw [List.getD_eq_getElem?_getD, List.getElem?_eraseIdx_of_lt h, ← List.getD_eq_getElem?_getD]

/-- What holds at each turn of the loop of `coalesce(Range)` started after the pair at
`start`: the pairs kept after it so far (those before `it`) each differ in value from the one
before them, the last of them holds `lastVal`, all but the last have keys below `kEnd`, and
`doCheck` says whether the last one's is below `kEnd` too (or none was kept yet). -/
structure LoopInv (kEnd : κ) (start : ℕ) (l : List (MapPair κ V)) (it : ℕ) (lastVal : V)
    (doCheck : Bool) : Prop where
  sorted : Keyed.Sorted MapPair.key l
  start_lt : start < it
  lt_length : it < l.length
  last : lastVal = (l.getD (it - 1) default).value
  diff : ∀ j, start < j → j < it → (l.getD (j - 1) default).value ≠ (l.getD j default).value
  keys : ∀ t, start < t → t + 1 < it → (l.getD t default).key < kEnd
  check : doCheck = true ↔ (it = start + 1 ∨ (l.getD (it - 1) default).key < kEnd)

/-- What the loop leaves: the pairs before `it` and a sublist of the others, with the same
last pair and the same value at every key, and no pair after `start` with the value of the one
before it while that one's key is below `kEnd`. -/
structure LoopPost (kEnd : κ) (start : ℕ) (l : List (MapPair κ V)) (it : ℕ)
    (r : List (MapPair κ V)) : Prop where
  take_append : ∃ X, r = l.take it ++ X ∧ X.Sublist (l.drop it)
  getLast_eq : r.getLast? = l.getLast?
  value_eq : ∀ k, valueAt r k = valueAt l k
  diff : ∀ j, start < j → j + 1 < r.length → (r.getD (j - 1) default).key < kEnd →
    (r.getD (j - 1) default).value ≠ (r.getD j default).value

variable [DecidableEq V]

lemma coalesceLoop_spec (kEnd : κ) (start : ℕ) (l : List (MapPair κ V)) (it : ℕ) (lastVal : V)
    (doCheck : Bool) (hinv : LoopInv kEnd start l it lastVal doCheck) :
    LoopPost kEnd start l it (coalesceLoop kEnd l it lastVal doCheck) := by
  fun_induction coalesceLoop kEnd l it lastVal doCheck with
  | case1 l it doCheck h p ih =>
    -- the pair at `it` holds `lastVal`: it is erased, and the loop goes on at the same place
    have hlen : (l.eraseIdx it).length = l.length - 1 := List.length_eraseIdx_of_lt (by omega)
    have hpre : ∀ j, j < it → (l.eraseIdx it).getD j default = l.getD j default :=
      fun j hj => getD_eraseIdx_of_lt l hj
    have hinv' : LoopInv kEnd start (l.eraseIdx it) it (l.getD it default).value true := by
      refine ⟨hinv.sorted.sublist (List.eraseIdx_sublist _ _), hinv.start_lt, by omega, ?_,
        fun j hj₁ hj₂ => ?_, fun t ht₁ ht₂ => ?_, ?_⟩
      · rw [hpre _ (by have := hinv.start_lt; omega)]
        exact hinv.last
      · rw [hpre _ (by omega), hpre _ hj₂]
        exact hinv.diff j hj₁ hj₂
      · rw [hpre _ (by omega)]
        exact hinv.keys t ht₁ ht₂
      · rw [hpre _ (by have := hinv.start_lt; omega), ← hinv.check]
        exact ⟨fun _ => h.2, fun _ => rfl⟩
    obtain ⟨⟨X, hX, hXsub⟩, hlast, hval, hdiff⟩ := ih hinv'
    have herase : l.eraseIdx it = l.take it ++ l.drop (it + 1) := List.eraseIdx_eq_take_drop_succ _ _
    refine ⟨⟨X, ?_, ?_⟩, ?_, fun k => ?_, hdiff⟩
    · rw [hX, herase, List.take_left' (List.length_take_of_le (by omega))]
    · rw [herase, List.drop_left' (List.length_take_of_le (by omega))] at hXsub
      exact hXsub.trans (List.drop_sublist_drop_left _ (Nat.le_succ it))
    · -- the last item stays
      rw [hlast, herase, List.getLast?_append, List.getLast?_drop, if_neg (by omega)]
      cases hl : l.getLast? with
      | none => exact absurd (List.getLast?_eq_none_iff.mp hl) (List.ne_nil_of_length_pos (by omega))
      | some x => rfl
    · -- the erased pair holds the value of the pair before it
      have hstart := hinv.start_lt
      have hrun := valueAt_erase_run hinv.sorted (s := it - 1) (e := it + 1) (by omega) (by omega)
        (fun t ht₁ ht₂ => by rw [show t = it by omega, ← hinv.last]) k
      rw [hval, ← hrun, erase, Nat.sub_add_cancel (by omega), ← herase]
  | case2 l it lastVal doCheck h p hne ih =>
    -- the pair at `it` holds another value: it is kept and becomes the one before the next
    have hstart := hinv.start_lt
    have hinv' : LoopInv kEnd start l (it + 1) (l.getD it default).value
        (decide ((l.getD it default).key < kEnd)) := by
      refine ⟨hinv.sorted, by omega, h.1, by rw [Nat.add_sub_cancel], fun j hj₁ hj₂ => ?_,
        fun t ht₁ ht₂ => ?_, ?_⟩
      · rcases Nat.lt_or_eq_of_le (Nat.lt_succ_iff.mp hj₂) with hj | rfl
        · exact hinv.diff j hj₁ hj
        · rw [← hinv.last]
          exact Ne.symm hne
      · rcases Nat.lt_or_eq_of_le (Nat.lt_succ_iff.mp ht₂) with ht | ht
        · exact hinv.keys t ht₁ ht
        · -- the pair before `it` was checked, and the loop went on
          have hc := hinv.check.mp h.2
          rw [show t = it - 1 by omega]
          exact hc.resolve_left (by omega)
      · rw [Nat.add_sub_cancel, decide_eq_true_iff]
        exact ⟨.inr, fun hc => hc.resolve_left (by omega)⟩
    obtain ⟨⟨X, hX, hXsub⟩, hlast, hval, hdiff⟩ := ih hinv'
    refine ⟨⟨l[it] :: X, ?_, ?_⟩, hlast, hval, hdiff⟩
    · rw [hX, List.take_succ_eq_append_getElem (by omega), List.append_assoc, List.singleton_append]
    · rw [List.drop_eq_getElem_cons (by omega)]
      exact hXsub.cons_cons _
  | case3 l it lastVal doCheck h =>
    -- the loop stops: at the last item, or after a kept pair whose key is not below `kEnd`
    refine ⟨⟨l.drop it, (List.take_append_drop _ _).symm, List.Sublist.refl _⟩, rfl,
      fun _ => rfl, fun j hj₁ hj₂ hkey => ?_⟩
    rcases Nat.lt_or_ge j it with hj | hj
    · exact hinv.diff j hj₁ hj
    · have hc : ¬(it = start + 1 ∨ (l.getD (it - 1) default).key < kEnd) := by
        rw [← hinv.check]
        intro hc
        exact h ⟨by omega, hc⟩
      have hle := key_getD_le hinv.sorted (i := it - 1) (j := j - 1) (by omega) (by omega)
      exact absurd (hle.trans_lt hkey) (not_or.mp hc).2

end Loop

section Result

variable {r : RangeMap κ V} {endKey : κ}

/-- `l'` is `l` with pairs erased other than the first and the last, and every key keeps its
value. -/
structure Erases (l' l : List (MapPair κ V)) : Prop where
  sublist : l'.Sublist l
  head_eq : l'.head? = l.head?
  getLast_eq : l'.getLast? = l.getLast?
  value_eq : ∀ k, valueAt l' k = valueAt l k

lemma Erases.trans {l'' l' l : List (MapPair κ V)} (h₁ : Erases l'' l') (h₂ : Erases l' l) :
    Erases l'' l :=
  ⟨h₁.sublist.trans h₂.sublist, h₁.head_eq.trans h₂.head_eq, h₁.getLast_eq.trans h₂.getLast_eq,
    fun k => (h₁.value_eq k).trans (h₂.value_eq k)⟩

lemma lastLessOrEqual_take_append {l X : List (MapPair κ V)} (hs : Keyed.Sorted MapPair.key l)
    (hs' : Keyed.Sorted MapPair.key (l.take (lastLessOrEqual l k + 1) ++ X))
    (hX : X.Sublist (l.drop (lastLessOrEqual l k + 1))) {y : MapPair κ V} (hy : y ∈ l)
    (hyk : y.key ≤ k) :
    lastLessOrEqual (l.take (lastLessOrEqual l k + 1) ++ X) k = lastLessOrEqual l k := by
  set p := lastLessOrEqual l k
  have hp : p < l.length := lastLessOrEqual_lt_length hs hy hyk
  have hlen : (l.take (p + 1)).length = p + 1 := List.length_take_of_le (by omega)
  have hp' : p < (l.take (p + 1) ++ X).length := by rw [List.length_append]; omega
  have hget : (l.take (p + 1) ++ X)[p] = l[p] := by
    rw [List.getElem_append_left (by omega), List.getElem_take]
  have hpk : (l.take (p + 1) ++ X)[p].key ≤ k := by
    rw [hget]
    exact (le_lastLessOrEqual_iff hs hy hyk hp).mp le_rfl
  have hmem := List.getElem_mem hp'
  refine le_antisymm ?_ ((le_lastLessOrEqual_iff hs' hmem hpk hp').mpr hpk)
  by_contra hgt
  -- the pair after `p` comes from the pairs of `l` after `p`, which are above `k`
  have hq : p + 1 < (l.take (p + 1) ++ X).length :=
    lt_of_le_of_lt (not_le.mp hgt) (lastLessOrEqual_lt_length hs' hmem hpk)
  have hqk := (le_lastLessOrEqual_iff hs' hmem hpk hq).mp (not_le.mp hgt)
  have hqX : (l.take (p + 1) ++ X)[p + 1] ∈ l.drop (p + 1) := by
    refine hX.subset ?_
    rw [List.getElem_append_right (by omega)]
    exact List.getElem_mem _
  obtain ⟨t, ht, hteq⟩ := List.getElem_of_mem hqX
  rw [List.getElem_drop] at hteq
  have hlt : ¬p + 1 + t ≤ p := by omega
  rw [le_lastLessOrEqual_iff hs hy hyk (by simp only [List.length_drop] at ht; omega), hteq] at hlt
  exact hlt hqk

variable [Inhabited κ]

lemma Wf.of_erases {r' : RangeMap κ V} (hwf : r.Wf endKey) (h : Erases r'.map r.map) :
    r'.Wf endKey :=
  hwf.of_sublist h.sublist h.head_eq h.getLast_eq

variable [Inhabited V]

/-- The pair at `p` is the last one, or the first of its run. -/
def RunStart (l : List (MapPair κ V)) (p : ℕ) : Prop :=
  p + 1 = l.length ∨
    (p + 1 < l.length ∧ (p = 0 ∨ (l.getD (p - 1) default).value ≠ (l.getD p default).value))

lemma erase_spec {m : List (MapPair κ V)} (hs : Keyed.Sorted MapPair.key m) {s e : ℕ} (hse : s < e)
    (he : e < m.length)
    (hv : ∀ t, s < t → t < e → (m.getD t default).value = (m.getD s default).value) :
    Erases (erase m (s + 1) e) m := by
  refine ⟨?_, ?_, ?_, valueAt_erase_run hs hse he.le hv⟩
  · conv_rhs => rw [← List.take_append_drop (s + 1) m]
    exact (List.Sublist.refl _).append (List.drop_sublist_drop_left _ (by omega))
  · rw [erase, List.head?_append, List.head?_take, if_neg (by omega)]
    cases hh : m.head? with
    | none => exact absurd (List.head?_eq_none_iff.mp hh) (List.ne_nil_of_length_pos (by omega))
    | some x => rfl
  · rw [erase, List.getLast?_append, List.getLast?_drop, if_neg (by omega)]
    cases hl : m.getLast? with
    | none => exact absurd (List.getLast?_eq_none_iff.mp hl) (List.ne_nil_of_length_pos (by omega))
    | some x => rfl

omit [LinearOrder κ] in
lemma getD_take_append {l X : List (MapPair κ V)} {n t : ℕ} (ht : t < n) (hn : n ≤ l.length) :
    (l.take n ++ X).getD t default = l.getD t default := by
  rw [List.getD_eq_getElem?_getD, List.getElem?_append_left (by rw [List.length_take]; omega),
    List.getElem?_take_of_lt ht, ← List.getD_eq_getElem?_getD]

omit [LinearOrder κ] in
lemma getD_erase_of_le {m : List (MapPair κ V)} {s e t : ℕ} (ht : t ≤ s) (hs : s < m.length) :
    (erase m (s + 1) e).getD t default = m.getD t default :=
  getD_take_append (by omega) (by omega)

omit [LinearOrder κ] in
lemma getD_erase_succ {m : List (MapPair κ V)} {s e : ℕ} (hs : s < m.length) :
    (erase m (s + 1) e).getD (s + 1) default = m.getD e default := by
  rw [erase, List.getD_eq_getElem?_getD, List.getElem?_append_right (by rw [List.length_take]; omega),
    List.length_take_of_le (by omega), Nat.sub_self, List.getElem?_drop, Nat.add_zero,
    ← List.getD_eq_getElem?_getD]

variable [DecidableEq V]

lemma coalesce_spec (hwf : r.Wf endKey) (hlt : default < endKey) {k : κ} (hk : default ≤ k) :
    ∃ r', r.coalesce k = some r' ∧ Erases r'.map r.map ∧
      RunStart r'.map (lastLessOrEqual r'.map k) := by
  obtain ⟨s, e, hrun, hco⟩ := coalesce_eq hwf hlt hk
  refine ⟨_, hco, ?_⟩
  dsimp only
  obtain ⟨v₀, hv₀⟩ := hwf.begin_mem
  have hs := hwf.sorted
  have hi := lastLessOrEqual_lt_length hs hv₀ hk
  set i := lastLessOrEqual r.map k
  by_cases hse : s = e
  · -- nothing is erased, and `rangeContaining(k)` is the last item
    rw [if_pos hse]
    refine ⟨⟨List.Sublist.refl _, rfl, rfl, fun _ => rfl⟩, .inl ?_⟩
    have hie : i = e := by have := hrun.s_le; have := hrun.le_e; omega
    rcases hrun.stop with h | h
    · omega
    · exact absurd (by rw [hse]) h
  · rw [if_neg hse]
    have hse' : s < e := lt_of_le_of_ne (hrun.s_le.trans hrun.le_e) hse
    have he := hrun.e_lt
    refine ⟨erase_spec hs hse' he fun t ht₁ ht₂ => hrun.value_run t ht₁.le ht₂, ?_⟩
    have hs' : Keyed.Sorted MapPair.key (erase r.map (s + 1) e) :=
      hs.sublist (erase_spec hs hse' he fun t ht₁ ht₂ => hrun.value_run t ht₁.le ht₂).sublist
    have hlen : (erase r.map (s + 1) e).length = s + 1 + (r.map.length - e) := by
      simp only [erase, List.length_append, List.length_take, List.length_drop]
      omega
    -- the pair at `s` is at or before `k`, and it is kept with the pairs before it
    have hsk : (r.map.getD s default).key ≤ k := by
      have h₁ := key_getD_le hs hrun.s_le hi
      have h₂ : (r.map.getD i default).key ≤ k := by
        rw [List.getD_eq_getElem _ _ hi]
        exact (le_lastLessOrEqual_iff hs hv₀ hk hi).mp le_rfl
      exact h₁.trans h₂
    have hs1 : s < (erase r.map (s + 1) e).length := by omega
    have hs2 : s + 1 < (erase r.map (s + 1) e).length := by omega
    have hm1s : (erase r.map (s + 1) e)[s] = r.map.getD s default := by
      rw [← List.getD_eq_getElem _ default hs1, getD_erase_of_le le_rfl (by omega)]
    have hm1s2 : (erase r.map (s + 1) e)[s + 1] = r.map.getD e default := by
      rw [← List.getD_eq_getElem _ default hs2, getD_erase_succ (by omega)]
    have hpk : (erase r.map (s + 1) e)[s].key ≤ k := by
      rw [hm1s]
      exact hsk
    have hpmem := List.getElem_mem hs1
    have hsp := (le_lastLessOrEqual_iff hs' hpmem hpk hs1).mpr hpk
    have hp := lastLessOrEqual_lt_length hs' hpmem hpk
    rcases hrun.le_e.lt_or_eq with hie | hie
    · -- the run ends before the last item, at a pair above `k`
      have hek : ¬(r.map.getD e default).key ≤ k := by
        rw [List.getD_eq_getElem _ _ he, ← le_lastLessOrEqual_iff hs hv₀ hk he]
        omega
      have hpe : ¬s + 1 ≤ lastLessOrEqual (erase r.map (s + 1) e) k := by
        rw [le_lastLessOrEqual_iff hs' hpmem hpk hs2, hm1s2]
        exact hek
      have hps : lastLessOrEqual (erase r.map (s + 1) e) k = s := by omega
      refine .inr ⟨by omega, ?_⟩
      rw [hps]
      rcases hrun.start with h₀ | hne
      · exact .inl h₀
      · right
        rwa [getD_erase_of_le (by omega) (by omega), getD_erase_of_le le_rfl (by omega)]
    · -- the run reaches the last item, which now follows the pair at `s`
      have hlast : e + 1 = r.map.length := by
        rcases hrun.stop with h | h
        · exact h
        · exact absurd (by rw [← hie, hrun.value_s]) h
      have hpe : s + 1 ≤ lastLessOrEqual (erase r.map (s + 1) e) k := by
        rw [le_lastLessOrEqual_iff hs' hpmem hpk hs2, hm1s2, List.getD_eq_getElem _ _ he]
        exact (le_lastLessOrEqual_iff hs hv₀ hk he).mp hie.ge
      exact .inl (by omega)

lemma coalesceRange_spec (hwf : r.Wf endKey) (hlt : default < endKey) (k : RangeMapRange κ)
    (hk : default ≤ k.begin) :
    ∃ r', r.coalesceRange k = some r' ∧ Erases r'.map r.map ∧
      ∀ j, lastLessOrEqual r'.map k.begin ≤ j → 0 < j → j + 1 < r'.map.length →
        (r'.map.getD (j - 1) default).key < k.end →
        (r'.map.getD (j - 1) default).value ≠ (r'.map.getD j default).value := by
  obtain ⟨r₁, hco, her₁, hstart⟩ := coalesce_spec hwf hlt hk
  have hwf₁ := hwf.of_erases her₁
  obtain ⟨v₀, hv₀⟩ := hwf₁.begin_mem
  unfold coalesceRange
  rw [hco, Option.bind_eq_bind, Option.bind_some]
  set p := lastLessOrEqual r₁.map k.begin
  rcases hstart with hlast | ⟨hp, hp0⟩
  · -- `rangeContaining(k.begin)` is the last item: nothing after it to check
    rw [if_pos hlast]
    exact ⟨r₁, rfl, her₁, fun j hj₁ _ hj₂ => absurd hj₂ (by omega)⟩
  · rw [if_neg hp.ne]
    have hinv : LoopInv k.end p r₁.map (p + 1) (r₁.map.getD p default).value true :=
      ⟨hwf₁.sorted, by omega, hp, by rw [Nat.add_sub_cancel], fun j hj₁ hj₂ => absurd hj₂ (by omega),
        fun t ht₁ ht₂ => absurd ht₂ (by omega), by simp⟩
    obtain ⟨⟨X, hX, hXsub⟩, hlast, hval, hdiff⟩ := coalesceLoop_spec k.end p r₁.map (p + 1) _ true hinv
    set r' := coalesceLoop k.end r₁.map (p + 1) (r₁.map.getD p default).value true
    have hsub : r'.Sublist r₁.map := by
      rw [hX]
      conv_rhs => rw [← List.take_append_drop (p + 1) r₁.map]
      exact (List.Sublist.refl _).append hXsub
    have her : Erases r' r₁.map := by
      refine ⟨hsub, ?_, hlast, hval⟩
      rw [hX, List.head?_append, List.head?_take, if_neg (by omega)]
      cases hh : r₁.map.head? with
      | none => exact absurd (List.head?_eq_none_iff.mp hh) (List.ne_nil_of_length_pos (by omega))
      | some x => rfl
    refine ⟨⟨r'⟩, rfl, her.trans her₁, fun j hj₁ hj₀ hj₂ hkey => ?_⟩
    have hs' : Keyed.Sorted MapPair.key r' := hwf₁.sorted.sublist hsub
    have hp' : lastLessOrEqual r' k.begin = p := by
      have h := lastLessOrEqual_take_append hwf₁.sorted (X := X) (hX ▸ hs') hXsub hv₀ hk
      rwa [← hX] at h
    dsimp only at hj₁ hj₂ hkey ⊢
    rw [hp'] at hj₁
    rcases hj₁.lt_or_eq with hj | rfl
    · exact hdiff j hj hj₂ hkey
    · -- the pair of `rangeContaining(k.begin)` starts its run
      rw [hX, getD_take_append (by omega) (by omega), getD_take_append (by omega) (by omega)]
      exact hp0.resolve_left (by omega)

end Result

end FoundationDB.RangeMap
