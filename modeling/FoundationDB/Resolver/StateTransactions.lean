import FoundationDB.Resolver.ResolveBatch

/-! The state transactions a reply carries, and what one call of `resolveBatch` does
to the resolver's state, stated once for the invariant to use: the entry of the
requesting proxy, the recorded batches and the trimming. -/

namespace FoundationDB.Resolver

variable {A C : Type}

abbrev Batch (A : Type) := ℤ × Option A × List StateTransactionRef

/-- The state transactions of the batches recorded strictly between `lo` and `hi`. -/
def window (P : List (Batch A)) (lo hi : ℤ) : List (List StateTransactionRef) :=
  (P.filter fun e => lo < e.1 ∧ e.1 < hi).map (·.2.2)

/-- Each reply carries the window from the version of the previous new request of
its address to its own. -/
def Covers (P : List (Batch A)) : ℤ → List (ℤ × ResolveTransactionBatchReply) → Prop
  | _, [] => True
  | lo, (v, rep) :: rest => rep.stateMutations = window P lo v ∧ Covers P v rest

/-- The version of the last reply of `F`, or `lo` when there is none. -/
def lastFresh (lo : ℤ) (F : List (ℤ × ResolveTransactionBatchReply)) : ℤ :=
  (F.getLast?.map (·.1)).getD lo

@[simp] lemma lastFresh_nil (lo : ℤ) : lastFresh lo [] = lo := rfl

@[simp] lemma lastFresh_cons (lo v : ℤ) (rep : ResolveTransactionBatchReply)
    (F : List (ℤ × ResolveTransactionBatchReply)) : lastFresh lo ((v, rep) :: F) = lastFresh v F := by
  cases h : F.getLast? <;> simp [lastFresh, List.getLast?_cons, h]

@[simp] lemma lastFresh_concat (lo v : ℤ) (F : List (ℤ × ResolveTransactionBatchReply))
    (rep : ResolveTransactionBatchReply) : lastFresh lo (F ++ [(v, rep)]) = v := by
  simp [lastFresh]

lemma lastFresh_mem (lo : ℤ) :
    ∀ F : List (ℤ × ResolveTransactionBatchReply), lastFresh lo F = lo ∨ ∃ f ∈ F, f.1 = lastFresh lo F
  | [] => .inl rfl
  | (v, rep) :: F => by
    rw [lastFresh_cons]
    rcases lastFresh_mem v F with h | ⟨f, hf, h⟩
    · exact .inr ⟨(v, rep), by simp, h.symm⟩
    · exact .inr ⟨f, List.mem_cons_of_mem _ hf, h⟩

lemma window_concat_of_le {P : List (Batch A)} {e : Batch A} {lo hi : ℤ} (h : hi ≤ e.1) :
    window (P ++ [e]) lo hi = window P lo hi := by
  simp [window, List.filter_append, show ¬ e.1 < hi from not_lt.mpr h]

lemma Covers.concat_batch {P : List (Batch A)} {e : Batch A} :
    ∀ {lo : ℤ} {F : List (ℤ × ResolveTransactionBatchReply)}, Covers P lo F →
      (∀ f ∈ F, f.1 ≤ e.1) → Covers (P ++ [e]) lo F
  | _, [], _, _ => trivial
  | _, (v, rep) :: rest, ⟨hrep, hrest⟩, hle => by
    refine ⟨?_, hrest.concat_batch fun f hf => hle f (by simp [hf])⟩
    rw [window_concat_of_le (hle (v, rep) (by simp))]
    exact hrep

lemma Covers.concat_reply {P : List (Batch A)} (v : ℤ) (rep : ResolveTransactionBatchReply) :
    ∀ {lo : ℤ} {F : List (ℤ × ResolveTransactionBatchReply)}, Covers P lo F →
      rep.stateMutations = window P (lastFresh lo F) v → Covers P lo (F ++ [(v, rep)])
  | _, [], _, h => ⟨h, trivial⟩
  | _, (_, _) :: _, ⟨hrep', hrest⟩, h =>
    ⟨hrep', hrest.concat_reply v rep (by rwa [lastFresh_cons] at h)⟩

lemma Covers.flatMap_eq {P : List (Batch A)} (hP : P.Pairwise fun e f => e.1 < f.1) :
    ∀ {lo : ℤ} {F : List (ℤ × ResolveTransactionBatchReply)}, Covers P lo F →
      (F.map (·.1)).Pairwise (· < ·) → (∀ f ∈ F, lo < f.1) →
      F.flatMap (·.2.stateMutations) =
        (P.filter fun e => lo < e.1 ∧ e.1 < lastFresh lo F ∧ e.1 ∉ F.map (·.1)).map (·.2.2)
  | lo, [], _, _, _ => by
    simp only [List.flatMap_nil, lastFresh_nil, List.map_nil, List.not_mem_nil, not_false_eq_true,
      and_true]
    rw [List.filter_eq_nil_iff.mpr fun e _ => by simpa using le_of_lt]
    rfl
  | lo, (v, rep) :: rest, ⟨hrep, hrest⟩, hsorted, hlo => by
    simp only [List.map_cons, List.pairwise_cons] at hsorted
    have hv : lo < v := hlo (v, rep) (by simp)
    have hrest_lo : ∀ f ∈ rest, v < f.1 := fun f hf => hsorted.1 f.1 (List.mem_map_of_mem hf)
    have hlast : v ≤ lastFresh v rest := by
      rcases lastFresh_mem v rest with h | ⟨f, hf, h⟩
      · exact h.ge
      · exact h ▸ (hrest_lo f hf).le
    rw [List.flatMap_cons, hrep, hrest.flatMap_eq hP hsorted.2 hrest_lo, lastFresh_cons, window]
    -- split the batches at `v`: those below make this reply, those above the rest
    conv_rhs => rw [← SortedMap.filter_lt_append_filter_le (hP.filter _) v, List.filter_filter,
      List.filter_filter, List.map_append]
    congr 2
    · apply List.filter_congr
      intro e _
      have hnot : e.1 < v → e.1 ∉ rest.map (·.1) := fun he hmem => by
        obtain ⟨f, hf, hfe⟩ := List.mem_map.mp hmem
        have hfv : v < f.1 := hrest_lo f hf
        rw [hfe] at hfv
        exact absurd hfv (not_lt.mpr he.le)
      rw [Bool.eq_iff_iff]
      simp only [Bool.and_eq_true, decide_eq_true_eq, List.map_cons, List.mem_cons, not_or]
      constructor
      · rintro ⟨hlo', he⟩
        exact ⟨he, hlo', he.trans_le hlast, ne_of_lt he, hnot he⟩
      · rintro ⟨he, hlo', -⟩
        exact ⟨hlo', he⟩
    · apply List.filter_congr
      intro e _
      rw [Bool.eq_iff_iff]
      simp only [Bool.and_eq_true, decide_eq_true_eq, List.map_cons, List.mem_cons, not_or]
      constructor
      · rintro ⟨hve, hlast', hmem⟩
        exact ⟨hve.le, hv.trans hve, hlast', ne_of_gt hve, hmem⟩
      · rintro ⟨hve, -, hlast', hne, hmem⟩
        exact ⟨lt_of_le_of_ne hve (Ne.symm hne), hlast', hmem⟩

/-- `recentStateTransactions` holds the batches from version `d` on. -/
def recentOf (d : ℤ) (P : List (Batch A)) : List (ℤ × List StateTransactionRef) :=
  (P.filter fun e => d ≤ e.1).map fun e => (e.1, e.2.2)

lemma recentOf_concat {d : ℤ} {P : List (Batch A)} {e : Batch A} (h : d ≤ e.1) :
    recentOf d (P ++ [e]) = recentOf d P ++ [(e.1, e.2.2)] := by
  simp [recentOf, List.filter_append, h]

lemma eraseUpTo_recentOf {d c : ℤ} (P : List (Batch A)) (h : d ≤ c + 1) :
    SortedMap.eraseUpTo c (recentOf d P) = recentOf (c + 1) P := by
  simp only [SortedMap.eraseUpTo, recentOf, List.filter_map, List.filter_filter]
  congr 1
  apply List.filter_congr
  intro e _
  rw [Bool.eq_iff_iff]
  simp only [Function.comp_apply, Bool.and_eq_true, decide_eq_true_eq]
  omega

lemma valuesFrom_recentOf {d lo hi : ℤ} (P : List (Batch A)) (h : d ≤ lo + 1) :
    SortedMap.valuesFrom (lo + 1) hi (recentOf d P) = window P lo hi := by
  simp only [SortedMap.valuesFrom, recentOf, window, List.filter_map, List.filter_filter,
    List.map_map]
  congr 1
  apply List.filter_congr
  intro e _
  rw [Bool.eq_iff_iff]
  simp only [Function.comp_apply, Bool.and_eq_true, decide_eq_true_eq]
  omega

lemma processed_of_sent {w w' : World A C} {req : ResolveTransactionBatchRequest A}
    {o : BatchOutcome} (h : w'.sent = w.sent ++ [(req, o)]) :
    w'.processed = w.processed ++ (processedEntry (req, o)).toList := by
  simp only [World.processed, h, List.filterMap_append, List.filterMap_cons, List.filterMap_nil]
  cases processedEntry (req, o) <;> rfl

lemma outstanding_of_pruned {info : ProxyRequestsInfo} {lastReceivedVersion v : ℤ}
    {rep : ResolveTransactionBatchReply}
    (h : prunedOutstanding info lastReceivedVersion v = some rep) :
    info.outstandingBatches v = some rep := by
  unfold prunedOutstanding at h
  split_ifs at h with hpos
  · simp only at h
    split_ifs at h
    exact h
  · exact h

lemma recordRecent_of_lt {recent : List (ℤ × List StateTransactionRef)} {v : ℤ}
    (recorded : List StateTransactionRef) (h : ∀ e ∈ recent, e.1 < v) :
    recordRecent recent v recorded = recent ++ [(v, recorded)] := by
  simp [recordRecent, SortedMap.upsert_of_lt _ h]

lemma answerDuplicate_cases (self : Resolver A C)
    (req : ResolveTransactionBatchRequest A) :
    answerDuplicate self req = .never ∨ ∃ rep, answerDuplicate self req = .duplicate rep ∧
      (self.info (proxyAddress req)).outstandingBatches req.version = some rep := by
  unfold answerDuplicate
  split
  · rename_i info hinfo
    split
    · rename_i rep hrep
      exact .inr ⟨rep, rfl, by simp [Resolver.info, hinfo, hrep]⟩
    · exact .inl rfl
  · exact .inl rfl

lemma processedEntry_answerDuplicate (self : Resolver A C) (req : ResolveTransactionBatchRequest A) :
    processedEntry (req, answerDuplicate self req) = none := by
  rcases answerDuplicate_cases self req with hd | ⟨rep, hd, -⟩ <;> rw [hd] <;> rfl

lemma answerDuplicate_ne_assertionFailed (self : Resolver A C)
    (req : ResolveTransactionBatchRequest A) : answerDuplicate self req ≠ .assertionFailed := by
  rcases answerDuplicate_cases self req with hd | ⟨rep, hd, -⟩ <;> rw [hd] <;> simp

section Oldest

variable [Fintype A] {m : Option A → Option ProxyRequestsInfo} {v : ℤ}

lemma oldestProxyVersion_le_version : oldestProxyVersion m v ≤ v :=
  (Finset.fold_min_le _).mpr (Or.inl le_rfl)

lemma oldestProxyVersion_le {a : A} {info : ProxyRequestsInfo} (h : m (some a) = some info) :
    oldestProxyVersion m v ≤ info.lastVersion := by
  apply (Finset.fold_min_le _).mpr
  refine Or.inr ⟨a, Finset.mem_univ a, ?_⟩
  simp [h]

lemma le_oldestProxyVersion {c : ℤ} (hv : c ≤ v)
    (h : ∀ a info, m (some a) = some info → c ≤ info.lastVersion) : c ≤ oldestProxyVersion m v := by
  apply (Finset.le_fold_min _).mpr
  refine ⟨hv, fun a _ => ?_⟩
  cases ha : m (some a) with
  | none => simpa [ha] using hv
  | some info => simpa [ha] using h a info ha

lemma isSome_of_mapSize (h : mapSize m = Fintype.card A + 1) (x : Option A) : (m x).isSome := by
  rw [mapSize, ← Fintype.card_option, ← Finset.card_univ, Finset.card_filter_eq_iff] at h
  exact h x (Finset.mem_univ x)

end Oldest

section Addresses

variable [DecidableEq A]

lemma freshTo_of_sent {w w' : World A C} {req : ResolveTransactionBatchRequest A}
    {o : BatchOutcome} (h : w'.sent = w.sent ++ [(req, o)]) (x : Option A) :
    w'.freshTo x = w.freshTo x ++ (freshEntry x (req, o)).toList := by
  simp only [World.freshTo, h, List.filterMap_append, List.filterMap_cons, List.filterMap_nil]
  cases freshEntry x (req, o) <;> rfl

lemma freshTo_versions (w : World A C) (x : Option A) :
    (w.freshTo x).map (·.1) = (w.processed.filter fun e => e.2.1 = x).map (·.1) := by
  simp only [World.freshTo, World.processed]
  induction w.sent with
  | nil => rfl
  | cons s sent ih =>
    obtain ⟨req, o⟩ := s
    cases o with
    | fresh rep recorded =>
      by_cases hx : proxyAddress req = x
      · simp [freshEntry, processedEntry, hx, ih]
      · simp [freshEntry, processedEntry, hx, ih]
    | duplicate rep => exact ih
    | never => exact ih
    | assertionFailed => exact ih

lemma exists_processed_of_mem_freshTo {w : World A C} {x : Option A}
    {f : ℤ × ResolveTransactionBatchReply} (hf : f ∈ w.freshTo x) :
    ∃ e ∈ w.processed, e.1 = f.1 ∧ e.2.1 = x := by
  have hmem : f.1 ∈ (w.processed.filter fun e => e.2.1 = x).map (·.1) :=
    freshTo_versions w x ▸ List.mem_map_of_mem hf
  obtain ⟨e, he, hef⟩ := List.mem_map.mp hmem
  rw [List.mem_filter, decide_eq_true_eq] at he
  exact ⟨e, he.1, hef, he.2⟩

lemma lastFresh_processed (w : World A C) (x : Option A) :
    lastFresh (-1) (w.freshTo x) = -1 ∨ ∃ e ∈ w.processed, e.1 = lastFresh (-1) (w.freshTo x) := by
  rcases lastFresh_mem (-1) (w.freshTo x) with hl | ⟨f, hf, hl⟩
  · exact .inl hl
  · obtain ⟨e, he, hef, -⟩ := exists_processed_of_mem_freshTo hf
    exact .inr ⟨e, he, hef.trans hl⟩

lemma touch_info (self : Resolver A C) (x y : Option A) : (self.touch x).info y = self.info y := by
  by_cases hy : y = x
  · subst hy
    simp [Resolver.touch, Resolver.info]
  · simp [Resolver.touch, Resolver.info, hy]

lemma freshEntry_answerDuplicate (self : Resolver A C)
    (req : ResolveTransactionBatchRequest A) (x : Option A) :
    freshEntry x (req, answerDuplicate self req) = none := by
  rcases answerDuplicate_cases self req with hd | ⟨rep, hd, -⟩ <;> rw [hd] <;> rfl

end Addresses

section NewBatch

variable [DecidableEq A] [Fintype A] (maxWrite : ℤ) (detect : ConflictDetector C)
  (self : Resolver A C) (req : ResolveTransactionBatchRequest A)

@[simp] lemma newBatch_version : (newBatch maxWrite detect self req).1.version = req.version := rfl

@[simp] lemma newBatch_commitProxyCount :
    (newBatch maxWrite detect self req).1.commitProxyCount = self.commitProxyCount := rfl

lemma newBatch_info (y : Option A) : (newBatch maxWrite detect self req).1.info y =
    if y = proxyAddress req then
      ⟨Function.update (prunedOutstanding (self.info (proxyAddress req)) req.lastReceivedVersion)
        req.version (some (newBatch maxWrite detect self req).2.1), req.version⟩
    else self.info y := by
  by_cases hy : y = proxyAddress req
  · subst hy
    simp [Resolver.info, newBatch]
  · simp [Resolver.info, newBatch, hy]

lemma newBatch_stateMutations : (newBatch maxWrite detect self req).2.1.stateMutations =
    SortedMap.valuesFrom (firstUnseenVersion self req) req.version
      (recordRecent self.recentStateTransactions req.version
        (newBatch maxWrite detect self req).2.2) := rfl

lemma newBatch_recentStateTransactions :
    (newBatch maxWrite detect self req).1.recentStateTransactions =
      if trimCondition self req (newBatch maxWrite detect self req).1.proxyInfoMap then
        SortedMap.eraseUpTo
          (oldestProxyVersion (newBatch maxWrite detect self req).1.proxyInfoMap req.version)
          (recordRecent self.recentStateTransactions req.version
            (newBatch maxWrite detect self req).2.2)
      else recordRecent self.recentStateTransactions req.version
        (newBatch maxWrite detect self req).2.2 := rfl

lemma newBatch_debugMinRecentStateVersion :
    (newBatch maxWrite detect self req).1.debugMinRecentStateVersion =
      if trimCondition self req (newBatch maxWrite detect self req).1.proxyInfoMap then
        oldestProxyVersion (newBatch maxWrite detect self req).1.proxyInfoMap req.version + 1
      else self.debugMinRecentStateVersion := rfl

lemma resolveBatch_of_ne (hv : self.version ≠ req.prevVersion) :
    resolveBatch maxWrite detect self req = (self, answerDuplicate self req) :=
  if_neg hv

lemma resolveBatch_of_eq (hv : self.version = req.prevVersion)
    (hok : ¬ (req.version < firstUnseenVersion self req ∨
      firstUnseenVersion self req < self.debugMinRecentStateVersion)) :
    resolveBatch maxWrite detect self req =
      ((newBatch maxWrite detect self req).1,
        .fresh (newBatch maxWrite detect self req).2.1 (newBatch maxWrite detect self req).2.2) := by
  simp only [resolveBatch, if_pos hv, if_neg hok]

end NewBatch

end FoundationDB.Resolver
