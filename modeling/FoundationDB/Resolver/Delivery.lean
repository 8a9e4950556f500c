import FoundationDB.Resolver.StateTransactions

/-! Every commit proxy is sent each recorded batch of state transactions once, in
version order, whatever the order in which requests arrive: the reply to a new request
carries the batches recorded strictly between the proxy's previous batch and this one,
and trimming never removes a batch some proxy has not been sent. -/

namespace FoundationDB.Resolver

open TransitionSystem

variable {A C : Type} [DecidableEq A] [Fintype A]

/-- What holds of every reachable world: the batches processed so far are in version
order, `recentStateTransactions` is every one of them from `debugMinRecentStateVersion`
on, which no proxy's last version has passed, and each proxy's entry of the map is the
last of its replies and those still outstanding. -/
structure Inv (w : World A C) : Prop where
  count : w.resolver.commitProxyCount = Fintype.card A
  sorted : w.processed.Pairwise fun e f => e.1 < f.1
  le_version : ∀ e ∈ w.processed, e.1 ≤ w.resolver.version
  nonneg : ∀ e ∈ w.processed, 0 ≤ e.1
  version_ge : -1 ≤ w.resolver.version
  recent : w.resolver.recentStateTransactions =
    recentOf w.resolver.debugMinRecentStateVersion w.processed
  debugMin_le_version : w.resolver.debugMinRecentStateVersion ≤ w.resolver.version + 1
  debugMin_le : ∀ a, w.resolver.debugMinRecentStateVersion ≤ (w.resolver.info (some a)).lastVersion + 1
  lastVersion : ∀ x, (w.resolver.info x).lastVersion = lastFresh (-1) (w.freshTo x)
  outstanding : ∀ x v rep, (w.resolver.info x).outstandingBatches v = some rep →
    (v, rep) ∈ w.freshTo x
  arrived : ∀ req ∈ w.arrived,
    req.prevVersion < req.version ∧ (req.replyAddress = none → req.prevVersion < 0)
  covers : ∀ x, Covers w.processed (-1) (w.freshTo x)
  noAssert : ∀ req, (req, BatchOutcome.assertionFailed) ∉ w.sent
  duplicates : ∀ req rep, (req, BatchOutcome.duplicate rep) ∈ w.sent →
    (req.version, rep) ∈ w.freshTo (proxyAddress req)

lemma inv_initial {cs₀ : C} {w : World A C} (h : World.initial cs₀ w) : Inv w := by
  obtain ⟨hr, ha, hs⟩ := h
  have hP : w.processed = [] := by simp [World.processed, hs]
  have hF : ∀ x, w.freshTo x = [] := by simp [World.freshTo, hs]
  exact
    { count := by rw [hr]
      sorted := by simp [hP]
      le_version := by simp [hP]
      nonneg := by simp [hP]
      version_ge := by rw [hr]
      recent := by simp [hr, hP, recentOf]
      debugMin_le_version := by simp [hr]
      debugMin_le := by simp [hr, Resolver.info, ProxyRequestsInfo.init]
      lastVersion := by simp [hr, hF, Resolver.info, ProxyRequestsInfo.init]
      outstanding := by simp [hr, Resolver.info, ProxyRequestsInfo.init]
      arrived := by simp [ha]
      covers := by simp [hF, Covers]
      noAssert := by simp [hs]
      duplicates := by simp [hs] }

namespace Inv

variable {w : World A C} (h : Inv w)
include h

lemma lastFresh_le_version (x : Option A) : lastFresh (-1) (w.freshTo x) ≤ w.resolver.version := by
  rcases lastFresh_processed w x with hl | ⟨e, he, hl⟩
  · rw [hl]
    exact h.version_ge
  · rw [← hl]
    exact h.le_version e he

lemma neg_one_le_lastFresh (x : Option A) : -1 ≤ lastFresh (-1) (w.freshTo x) := by
  rcases lastFresh_processed w x with hl | ⟨e, he, hl⟩
  · rw [hl]
  · have := h.nonneg e he
    omega

lemma fresh_le_version {x : Option A} {f : ℤ × ResolveTransactionBatchReply}
    (hf : f ∈ w.freshTo x) : f.1 ≤ w.resolver.version := by
  obtain ⟨e, he, hef, -⟩ := exists_processed_of_mem_freshTo hf
  rw [← hef]
  exact h.le_version e he

lemma recent_lt {v : ℤ} (hv : w.resolver.version < v) :
    ∀ e ∈ w.resolver.recentStateTransactions, e.1 < v := by
  rw [h.recent]
  intro e he
  obtain ⟨p, hp, rfl⟩ := List.mem_map.mp he
  exact lt_of_le_of_lt (h.le_version p (List.mem_filter.mp hp).1) hv

lemma debugMin_le_firstUnseen {req : ResolveTransactionBatchRequest A} (hmem : req ∈ w.arrived)
    (hv : w.resolver.version = req.prevVersion) :
    w.resolver.debugMinRecentStateVersion ≤ firstUnseenVersion w.resolver req := by
  rw [firstUnseenVersion]
  cases hx : proxyAddress req with
  | some a => exact h.debugMin_le a
  | none =>
    have hprev : req.prevVersion < 0 := by
      rw [proxyAddress] at hx
      split_ifs at hx with h0
      · exact (h.arrived req hmem).2 hx
      · exact lt_of_not_ge h0
    have := h.debugMin_le_version
    have := h.version_ge
    have := h.lastVersion none
    have := h.neg_one_le_lastFresh none
    omega

lemma firstUnseen_le {req : ResolveTransactionBatchRequest A} (hmem : req ∈ w.arrived)
    (hv : w.resolver.version = req.prevVersion) : firstUnseenVersion w.resolver req ≤ req.version := by
  have := h.lastVersion (proxyAddress req)
  have := h.lastFresh_le_version (proxyAddress req)
  have := (h.arrived req hmem).1
  rw [firstUnseenVersion]
  omega

end Inv

lemma Inv.arrive {w : World A C} (h : Inv w) {req : ResolveTransactionBatchRequest A}
    (hlt : req.prevVersion < req.version) (hnone : req.replyAddress = none → req.prevVersion < 0) :
    Inv { w with resolver := w.resolver.touch (proxyAddress req), arrived := w.arrived ++ [req] } where
  count := h.count
  sorted := h.sorted
  le_version := h.le_version
  nonneg := h.nonneg
  version_ge := h.version_ge
  recent := h.recent
  debugMin_le_version := h.debugMin_le_version
  debugMin_le a := by
    simp only [touch_info]
    exact h.debugMin_le a
  lastVersion x := by
    simp only [touch_info]
    exact h.lastVersion x
  outstanding x v rep := by
    simp only [touch_info]
    exact h.outstanding x v rep
  arrived r hr := by
    rcases List.mem_append.mp hr with hr | hr
    · exact h.arrived r hr
    · rw [List.mem_singleton.mp hr]
      exact ⟨hlt, hnone⟩
  covers := h.covers
  noAssert := h.noAssert
  duplicates := h.duplicates

lemma Inv.duplicate {w w' : World A C} (h : Inv w) {req : ResolveTransactionBatchRequest A}
    (hr : w'.resolver = w.resolver) (ha : w'.arrived = w.arrived)
    (hs : w'.sent = w.sent ++ [(req, answerDuplicate w.resolver req)]) : Inv w' := by
  have hP : w'.processed = w.processed := by
    rw [processed_of_sent hs, processedEntry_answerDuplicate, Option.toList_none, List.append_nil]
  have hF : w'.freshTo = w.freshTo := funext fun x => by
    rw [freshTo_of_sent hs, freshEntry_answerDuplicate w.resolver req, Option.toList_none, List.append_nil]
  exact
    { count := hr ▸ h.count
      sorted := hP ▸ h.sorted
      le_version := hr ▸ hP ▸ h.le_version
      nonneg := hP ▸ h.nonneg
      version_ge := hr ▸ h.version_ge
      recent := hr ▸ hP ▸ h.recent
      debugMin_le_version := hr ▸ h.debugMin_le_version
      debugMin_le := hr ▸ h.debugMin_le
      lastVersion := hr ▸ hF ▸ h.lastVersion
      outstanding := hr ▸ hF ▸ h.outstanding
      arrived := ha ▸ h.arrived
      covers := hP ▸ hF ▸ h.covers
      noAssert := fun r hmem => by
        rw [hs] at hmem
        rcases List.mem_append.mp hmem with hmem | hmem
        · exact h.noAssert r hmem
        · obtain ⟨rfl, ho⟩ := Prod.mk.inj (List.mem_singleton.mp hmem)
          exact answerDuplicate_ne_assertionFailed _ _ ho.symm
      duplicates := fun r rep hmem => by
        rw [hs] at hmem
        rw [hF]
        rcases List.mem_append.mp hmem with hmem | hmem
        · exact h.duplicates r rep hmem
        · obtain ⟨rfl, ho⟩ := Prod.mk.inj (List.mem_singleton.mp hmem)
          rcases answerDuplicate_cases w.resolver r with hd | ⟨rep', hd, hout⟩
          · rw [hd] at ho
            cases ho
          · rw [hd] at ho
            cases ho
            exact h.outstanding _ _ _ hout }

section Fresh

variable {maxWrite : ℤ} {detect : ConflictDetector C} {w : World A C}
  {req : ResolveTransactionBatchRequest A}

namespace Inv

variable (h : Inv w) (hmem : req ∈ w.arrived) (hv : w.resolver.version = req.prevVersion)
include h hmem hv

lemma version_lt : w.resolver.version < req.version := hv ▸ (h.arrived req hmem).1

lemma recordRecent_eq :
    recordRecent w.resolver.recentStateTransactions req.version
        (newBatch maxWrite detect w.resolver req).2.2 =
      recentOf w.resolver.debugMinRecentStateVersion
        (w.processed ++ [(req.version, proxyAddress req, (newBatch maxWrite detect w.resolver req).2.2)]) := by
  have hlt := h.version_lt hmem hv
  rw [recordRecent_of_lt _ (h.recent_lt hlt), h.recent, recentOf_concat]
  exact h.debugMin_le_version.trans (by omega)

lemma newBatch_stateMutations_eq : (newBatch maxWrite detect w.resolver req).2.1.stateMutations =
    window w.processed (lastFresh (-1) (w.freshTo (proxyAddress req))) req.version := by
  rw [newBatch_stateMutations, h.recordRecent_eq hmem hv, recentOf_concat, SortedMap.valuesFrom_concat_of_le _ _ le_rfl, firstUnseenVersion, h.lastVersion]
  · apply valuesFrom_recentOf
    have := h.debugMin_le_firstUnseen hmem hv
    rwa [firstUnseenVersion, h.lastVersion] at this
  · exact h.debugMin_le_version.trans (by have := h.version_lt hmem hv; omega)

lemma debugMin_le_newBatch (a : A) :
    w.resolver.debugMinRecentStateVersion ≤
      ((newBatch maxWrite detect w.resolver req).1.info (some a)).lastVersion + 1 := by
  rw [newBatch_info]
  split_ifs
  · have := h.debugMin_le_version
    have := h.version_lt hmem hv
    dsimp only
    omega
  · exact h.debugMin_le a

lemma debugMin_le_oldest : w.resolver.debugMinRecentStateVersion ≤
    oldestProxyVersion (newBatch maxWrite detect w.resolver req).1.proxyInfoMap req.version + 1 := by
  have hle : w.resolver.debugMinRecentStateVersion - 1 ≤
      oldestProxyVersion (newBatch maxWrite detect w.resolver req).1.proxyInfoMap req.version := by
    apply le_oldestProxyVersion
    · have := h.debugMin_le_version
      have := h.version_lt hmem hv
      omega
    · intro a info hinfo
      have ha : w.resolver.debugMinRecentStateVersion ≤
          ((newBatch maxWrite detect w.resolver req).1.info (some a)).lastVersion + 1 :=
        h.debugMin_le_newBatch hmem hv a
      rw [Resolver.info, hinfo, Option.getD_some] at ha
      omega
  omega

end Inv

lemma Inv.fresh {w' : World A C} (h : Inv w) (hmem : req ∈ w.arrived)
    (hv : w.resolver.version = req.prevVersion)
    (hr : w'.resolver = (newBatch maxWrite detect w.resolver req).1) (ha : w'.arrived = w.arrived)
    (hs : w'.sent = w.sent ++ [(req, .fresh (newBatch maxWrite detect w.resolver req).2.1
      (newBatch maxWrite detect w.resolver req).2.2)]) : Inv w' := by
  have hlt := h.version_lt hmem hv
  have hP : w'.processed = w.processed ++
      [(req.version, proxyAddress req, (newBatch maxWrite detect w.resolver req).2.2)] := by
    rw [processed_of_sent hs]
    rfl
  have hFx : w'.freshTo (proxyAddress req) = w.freshTo (proxyAddress req) ++
      [(req.version, (newBatch maxWrite detect w.resolver req).2.1)] := by
    rw [freshTo_of_sent hs]
    simp [freshEntry]
  have hFy : ∀ y, y ≠ proxyAddress req → w'.freshTo y = w.freshTo y := fun y hy => by
    rw [freshTo_of_sent hs]
    simp [freshEntry, Ne.symm hy]
  have hFmono : ∀ y f, f ∈ w.freshTo y → f ∈ w'.freshTo y := fun y f hf => by
    rw [freshTo_of_sent hs]
    exact List.mem_append_left _ hf
  exact
    { count := by
        rw [hr]
        exact h.count
      sorted := by
        rw [hP, List.pairwise_append]
        refine ⟨h.sorted, List.pairwise_singleton _ _, fun e he f hf => ?_⟩
        rw [List.mem_singleton.mp hf]
        exact lt_of_le_of_lt (h.le_version e he) hlt
      le_version := by
        rw [hr, hP, newBatch_version]
        intro e he
        rcases List.mem_append.mp he with he | he
        · exact (h.le_version e he).trans hlt.le
        · rw [List.mem_singleton.mp he]
      nonneg := by
        rw [hP]
        intro e he
        rcases List.mem_append.mp he with he | he
        · exact h.nonneg e he
        · rw [List.mem_singleton.mp he]
          have := h.version_ge
          dsimp only
          omega
      version_ge := by
        rw [hr, newBatch_version]
        have := h.version_ge
        omega
      recent := by
        rw [hr, hP, newBatch_recentStateTransactions, newBatch_debugMinRecentStateVersion,
          h.recordRecent_eq hmem hv]
        split_ifs
        · exact eraseUpTo_recentOf _ (h.debugMin_le_oldest hmem hv)
        · rfl
      debugMin_le_version := by
        rw [hr, newBatch_debugMinRecentStateVersion, newBatch_version]
        split_ifs
        · have := oldestProxyVersion_le_version
            (m := (newBatch maxWrite detect w.resolver req).1.proxyInfoMap) (v := req.version)
          omega
        · have := h.debugMin_le_version
          omega
      debugMin_le := by
        intro a
        rw [hr, newBatch_debugMinRecentStateVersion]
        split_ifs with htrim
        · -- trimming waits for every proxy's entry, so `a` has one and bounds the oldest
          obtain ⟨info, hinfo⟩ := Option.isSome_iff_exists.mp
            (isSome_of_mapSize (h.count ▸ htrim.2) (some a))
          have := oldestProxyVersion_le (v := req.version) hinfo
          rw [Resolver.info, hinfo, Option.getD_some]
          omega
        · exact h.debugMin_le_newBatch hmem hv a
      lastVersion := by
        intro y
        rw [hr, newBatch_info]
        split_ifs with hy
        · rw [hy, hFx, lastFresh_concat]
        · rw [hFy y hy]
          exact h.lastVersion y
      outstanding := by
        intro y v rep hout
        rw [hr, newBatch_info] at hout
        split_ifs at hout with hy
        · rw [hy, hFx]
          simp only [Function.update_apply] at hout
          split_ifs at hout with hver
          · cases hout
            rw [hver]
            exact List.mem_append_right _ (List.mem_singleton_self _)
          · exact List.mem_append_left _ (h.outstanding _ _ _ (outstanding_of_pruned hout))
        · rw [hFy y hy]
          exact h.outstanding y v rep hout
      arrived := ha ▸ h.arrived
      covers := by
        intro y
        rw [hP]
        by_cases hy : y = proxyAddress req
        · rw [hy, hFx]
          apply Covers.concat_reply
          · exact (h.covers _).concat_batch fun f hf => (h.fresh_le_version hf).trans hlt.le
          · rw [window_concat_of_le le_rfl]
            exact h.newBatch_stateMutations_eq hmem hv
        · rw [hFy y hy]
          exact (h.covers y).concat_batch fun f hf => (h.fresh_le_version hf).trans hlt.le
      noAssert := by
        intro r hm
        rw [hs] at hm
        rcases List.mem_append.mp hm with hm | hm
        · exact h.noAssert r hm
        · cases (Prod.mk.inj (List.mem_singleton.mp hm)).2
      duplicates := by
        intro r rep hm
        rw [hs] at hm
        rcases List.mem_append.mp hm with hm | hm
        · exact hFmono _ _ (h.duplicates r rep hm)
        · cases (Prod.mk.inj (List.mem_singleton.mp hm)).2 }

end Fresh

lemma Inv.step {maxWrite : ℤ} {detect : ConflictDetector C} {w w' : World A C} (h : Inv w)
    (hs : Step maxWrite detect w w') : Inv w' := by
  cases hs with
  | arrive req hlt hnone => exact h.arrive hlt hnone
  | resume req hmem hle =>
    by_cases hv : w.resolver.version = req.prevVersion
    · -- the request is the next one: the resolver's assertions hold, and it is new
      have hok : ¬ (req.version < firstUnseenVersion w.resolver req ∨
          firstUnseenVersion w.resolver req < w.resolver.debugMinRecentStateVersion) := by
        have := h.firstUnseen_le hmem hv
        have := h.debugMin_le_firstUnseen hmem hv
        omega
      rw [resolveBatch_of_eq maxWrite detect w.resolver req hv hok]
      exact h.fresh hmem hv rfl rfl rfl
    · rw [resolveBatch_of_ne maxWrite detect w.resolver req hv]
      exact h.duplicate rfl rfl rfl

lemma inv_reachable {maxWrite : ℤ} {detect : ConflictDetector C} {cs₀ : C} {w : World A C}
    (hw : Reachable (World.initial cs₀) (Step maxWrite detect) w) : Inv w :=
  Reachable.induction (P := Inv) (fun _ h => inv_initial h) (fun _ _ _ h hs => h.step hs) hw

lemma resolveBatch_fresh {maxWrite : ℤ} {detect : ConflictDetector C} {self : Resolver A C}
    {req : ResolveTransactionBatchRequest A} {rep : ResolveTransactionBatchReply}
    {recorded : List StateTransactionRef}
    (h : (resolveBatch maxWrite detect self req).2 = .fresh rep recorded) :
    recorded = stateTransactions req rep.committed := by
  by_cases hv : self.version = req.prevVersion
  · by_cases hok : req.version < firstUnseenVersion self req ∨
        firstUnseenVersion self req < self.debugMinRecentStateVersion
    · simp [resolveBatch, hv, hok] at h
    · rw [resolveBatch_of_eq maxWrite detect self req hv hok] at h
      cases h
      simp [newBatch]
  · -- a request out of turn is a duplicate, answered without a record
    rw [resolveBatch_of_ne maxWrite detect self req hv] at h
    rcases answerDuplicate_cases self req with hd | ⟨rep', hd, -⟩ <;> rw [hd] at h <;> cases h

lemma sent_fresh_records {maxWrite : ℤ} {detect : ConflictDetector C} {cs₀ : C} {w : World A C}
    (hw : Reachable (World.initial cs₀) (Step maxWrite detect) w)
    {req : ResolveTransactionBatchRequest A} {rep : ResolveTransactionBatchReply}
    {recorded : List StateTransactionRef} (hm : (req, BatchOutcome.fresh rep recorded) ∈ w.sent) :
    recorded = stateTransactions req rep.committed := by
  -- by induction on the run: only a resumed batch sends, and its record is its request's
  obtain ⟨w₀, h₀, hr⟩ := hw
  induction hr with
  | refl =>
    rw [h₀.2.2] at hm
    cases hm
  | tail _ hs ih =>
    cases hs with
    | arrive => exact ih hm
    | resume _ req' =>
      rcases List.mem_append.mp hm with hm | hm
      · exact ih hm
      · obtain ⟨rfl, ho⟩ := Prod.mk.inj (List.mem_singleton.mp hm)
        exact resolveBatch_fresh ho.symm

lemma processed_records {maxWrite : ℤ} {detect : ConflictDetector C} {cs₀ : C} {w : World A C}
    (hw : Reachable (World.initial cs₀) (Step maxWrite detect) w) :
    ∀ e ∈ w.processed, ∃ req rep, (req, BatchOutcome.fresh rep e.2.2) ∈ w.sent ∧
      e.1 = req.version ∧ e.2.1 = proxyAddress req ∧
        e.2.2 = stateTransactions req rep.committed := by
  intro e he
  obtain ⟨⟨req, o⟩, hm, he⟩ := List.mem_filterMap.mp he
  cases o with
  | fresh rep recorded =>
    cases he
    exact ⟨req, rep, hm, rfl, rfl, sent_fresh_records hw hm⟩
  | duplicate rep => cases he
  | never => cases he
  | assertionFailed => cases he

/-- What every address is sent, the master's under the invalid address and each commit
proxy's under its own. Each processed batch records the state transactions its request names
(`txnStateTransactions`), marked with the commit results of its reply. An address's replies
follow its batches in version order; the reply to a
new batch carries the state transactions of the batches after its previous batch and
below this one, so that all its replies together carry, in order and each once, every
batch below its last one except its own; and a duplicate is answered with the reply
first sent. No assertion of the resolver fails. -/
def DeliverySpec (w : World A C) : Prop :=
  w.processed.Pairwise (fun e f => e.1 < f.1) ∧
  (∀ e ∈ w.processed, ∃ req rep, (req, BatchOutcome.fresh rep e.2.2) ∈ w.sent ∧
    e.1 = req.version ∧ e.2.1 = proxyAddress req ∧
      e.2.2 = stateTransactions req rep.committed) ∧
  (∀ req, (req, BatchOutcome.assertionFailed) ∉ w.sent) ∧
  ∀ x : Option A,
    (w.freshTo x).map (·.1) = (w.processed.filter fun e => e.2.1 = x).map (·.1) ∧
    ((w.freshTo x).map (·.1)).Pairwise (· < ·) ∧
    Covers w.processed (-1) (w.freshTo x) ∧
    (w.freshTo x).flatMap (·.2.stateMutations) =
      (w.processed.filter fun e =>
        0 ≤ e.1 ∧ e.1 < lastFresh (-1) (w.freshTo x) ∧ e.1 ∉ (w.freshTo x).map (·.1)).map (·.2.2) ∧
    ∀ req rep, (req, BatchOutcome.duplicate rep) ∈ w.sent → proxyAddress req = x →
      (req.version, rep) ∈ w.freshTo x

theorem stateTransactions_sent_once {maxWrite : ℤ} {detect : ConflictDetector C} {cs₀ : C}
    {w : World A C} (hw : Reachable (World.initial cs₀) (Step maxWrite detect) w) :
    DeliverySpec w := by
  have h := inv_reachable hw
  refine ⟨h.sorted, processed_records hw, h.noAssert, fun x => ?_⟩
  have hvers := freshTo_versions w x
  have hsorted : ((w.freshTo x).map (·.1)).Pairwise (· < ·) := by
    rw [hvers, List.pairwise_map]
    exact h.sorted.filter _
  have hpos : ∀ f ∈ w.freshTo x, -1 < f.1 := fun f hf => by
    obtain ⟨e, he, hef, -⟩ := exists_processed_of_mem_freshTo hf
    have := h.nonneg e he
    omega
  refine ⟨hvers, hsorted, h.covers x, ?_, fun req rep hmem hx => hx ▸ h.duplicates req rep hmem⟩
  -- on ℤ, `-1 < v` is `-1 + 1 ≤ v` by definition
  rw [(h.covers x).flatMap_eq h.sorted hsorted hpos]
  rfl

def sampleDetect : ConflictDetector Unit := fun cs _ _ _ => (cs, [], [])

def sampleStart : World Unit Unit := ⟨⟨1, -1, fun _ => none, [], (), 0⟩, [], []⟩

/-- The master's first batch, at version 0, with one state transaction. -/
def sampleMasterRequest : ResolveTransactionBatchRequest Unit :=
  ⟨-1, 0, 0, [⟨[], [], [⟨.setValue, [1], [2]⟩], 0, false⟩], [0], none⟩

/-- The proxy's first batch, at version 5. -/
def sampleProxyRequest : ResolveTransactionBatchRequest Unit := ⟨0, 5, 0, [], [], some ()⟩

def sampleMasterArrived : World Unit Unit :=
  { sampleStart with
    resolver := sampleStart.resolver.touch (proxyAddress sampleMasterRequest)
    arrived := sampleStart.arrived ++ [sampleMasterRequest] }

def sampleMasterDone : World Unit Unit :=
  { sampleMasterArrived with
    resolver := (resolveBatch 5 sampleDetect sampleMasterArrived.resolver sampleMasterRequest).1
    sent := sampleMasterArrived.sent ++
      [(sampleMasterRequest,
        (resolveBatch 5 sampleDetect sampleMasterArrived.resolver sampleMasterRequest).2)] }

def sampleProxyArrived : World Unit Unit :=
  { sampleMasterDone with
    resolver := sampleMasterDone.resolver.touch (proxyAddress sampleProxyRequest)
    arrived := sampleMasterDone.arrived ++ [sampleProxyRequest] }

def sampleProxyDone : World Unit Unit :=
  { sampleProxyArrived with
    resolver := (resolveBatch 5 sampleDetect sampleProxyArrived.resolver sampleProxyRequest).1
    sent := sampleProxyArrived.sent ++
      [(sampleProxyRequest,
        (resolveBatch 5 sampleDetect sampleProxyArrived.resolver sampleProxyRequest).2)] }

theorem stateTransactions_sent_once_sample :
    Reachable (World.initial ()) (Step 5 sampleDetect) sampleProxyDone ∧
      DeliverySpec sampleProxyDone := by
  have h₀ : Reachable (World.initial ()) (Step 5 sampleDetect) sampleStart :=
    Reachable.of_init ⟨rfl, rfl, rfl⟩
  have h₂ := (h₀.tail (Step.arrive sampleStart sampleMasterRequest (by decide) (by decide))).tail
    (Step.resume sampleMasterArrived sampleMasterRequest
      (List.mem_append_right _ (List.mem_singleton_self _)) (by decide))
  have h₄ := (h₂.tail (Step.arrive sampleMasterDone sampleProxyRequest (by decide)
    (by decide))).tail (Step.resume sampleProxyArrived sampleProxyRequest
      (List.mem_append_right _ (List.mem_singleton_self _)) (by decide))
  exact ⟨h₄, stateTransactions_sent_once h₄⟩

end FoundationDB.Resolver
