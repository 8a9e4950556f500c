import FoundationDB.CommitProxy.Reply

/-! Read versions follow acknowledged commits. The master's live version is never below
a proxy's `committedVersion`, because a proxy raises that only to a version the master
has acknowledged or served; a batch that skips its report does not raise it, and answers
its clients only because a later version of its proxy already reached the master. -/

namespace FoundationDB.CommitProxy

open TransitionSystem Master

variable {P : Type} [DecidableEq P] {epoch : EpochVersions}

/-- The version a `getLiveCommittedVersion` request is answered with now. -/
def servedVersion (epoch : EpochVersions) (m : LiveCommittedState) : ℤ :=
  (serveGetLiveCommittedVersion epoch m).2.version

lemma servedVersion_eq (m : LiveCommittedState) :
    servedVersion epoch m =
      if m.liveCommittedVersion = invalidVersion then epoch.recoveryTransactionVersion
      else m.liveCommittedVersion := by
  unfold servedVersion serveGetLiveCommittedVersion
  split_ifs <;> rfl

@[simp] lemma servedVersion_serveGet (m : LiveCommittedState) :
    servedVersion epoch (serveGetLiveCommittedVersion epoch m).1 = servedVersion epoch m := by
  rw [servedVersion_eq, servedVersion_eq]
  unfold serveGetLiveCommittedVersion
  split_ifs with h₁ h₂ <;> simp_all [invalidVersion]

lemma le_servedVersion_serveReport (m : LiveCommittedState) {req : ReportRawCommittedVersionRequest}
    (h : epoch.recoveryTransactionVersion ≤ req.version) :
    servedVersion epoch m ≤ servedVersion epoch (serveReportLiveCommittedVersion m req) ∧
      req.version ≤ servedVersion epoch (serveReportLiveCommittedVersion m req) := by
  have hpos := epoch.recoveryTransactionVersion_pos
  unfold serveReportLiveCommittedVersion
  split_ifs with hgt
  · rw [servedVersion_eq, servedVersion_eq]
    have hne : req.version ≠ invalidVersion := by simp only [invalidVersion]; omega
    simp only [hne, if_false]
    split_ifs <;> omega
  · rw [servedVersion_eq]
    have hne : m.liveCommittedVersion ≠ invalidVersion := by simp only [invalidVersion]; omega
    simp only [hne, if_false]
    omega

lemma committedVersion_le_raise (self : ProxyCommitData) (version : ℤ) (locked : Bool)
    (metadataVersion : Option Value) :
    self.committedVersion ≤ (self.raise version locked metadataVersion).committedVersion := by
  unfold ProxyCommitData.raise
  split_ifs with h
  · exact h.le
  · exact le_rfl

lemma raise_committedVersion_le {self : ProxyCommitData} {version c : ℤ} {locked : Bool}
    {metadataVersion : Option Value} (hself : self.committedVersion ≤ c) (hv : version ≤ c) :
    (self.raise version locked metadataVersion).committedVersion ≤ c := by
  unfold ProxyCommitData.raise
  split_ifs
  · exact hv
  · exact hself

/-- Every read version served after a `CommitID(v)` was sent is at least `v`. -/
def ReadsFollowCommits (events : List (Event P)) : Prop :=
  ∀ (i j : ℕ) (p : P) (v r : ℤ), i < j → events[i]? = some (Event.commitId p v) →
    events[j]? = some (Event.readVersion r) → v ≤ r

lemma getElem?_concat_eq_some {α : Type} {l : List α} {x y : α} {j : ℕ}
    (h : (l ++ [x])[j]? = some y) : (j < l.length ∧ l[j]? = some y) ∨ (j = l.length ∧ x = y) := by
  rw [List.getElem?_append] at h
  split_ifs at h with hj
  · exact .inl ⟨hj, h⟩
  · right
    rcases Nat.lt_or_ge (j - l.length) 1 with h1 | h1
    · have hjl : j = l.length := by omega
      subst hjl
      simpa using h
    · rw [List.getElem?_eq_none (by simp only [List.length_singleton]; omega)] at h
      cases h

lemma ReadsFollowCommits.append_commitId {events : List (Event P)}
    (h : ReadsFollowCommits events) (p : P) (v : ℤ) :
    ReadsFollowCommits (events ++ [.commitId p v]) := by
  intro i j q u r hij hi hj
  rcases getElem?_concat_eq_some hj with ⟨hjlt, hj⟩ | ⟨-, hx⟩
  · rw [List.getElem?_append_left (by omega)] at hi
    exact h i j q u r hij hi hj
  · cases hx

lemma ReadsFollowCommits.append_readVersion {events : List (Event P)}
    (h : ReadsFollowCommits events) {r : ℤ} (hr : ∀ p v, .commitId p v ∈ events → v ≤ r) :
    ReadsFollowCommits (events ++ [.readVersion r]) := by
  intro i j q u r' hij hi hj
  rw [List.getElem?_append_left (by
    rcases getElem?_concat_eq_some hj with ⟨hjlt, -⟩ | ⟨rfl, -⟩ <;> omega)] at hi
  rcases getElem?_concat_eq_some hj with ⟨-, hj⟩ | ⟨-, hx⟩
  · exact h i j q u r' hij hi hj
  · -- the read served last: `r` bounds every commit sent before it
    cases hx
    exact hr q u (List.mem_of_getElem? hi)

/-- What holds of every reachable world: no proxy's committed version is above the
version the master serves; a report in flight carries its batch's version, at least the
proxy's committed version when it was sent; a batch past its report either reached the
master or was overtaken by a later committed version of its proxy. -/
structure Inv (epoch : EpochVersions) (w : World P) : Prop where
  recovery_le : ∀ p, epoch.recoveryTransactionVersion ≤ (w.proxies p).committedVersion
  committed_le : ∀ p, (w.proxies p).committedVersion ≤ servedVersion epoch w.master
  reporting : ∀ b ∈ w.batches, ∀ req, b.phase = .reporting req →
    req.version = b.commitVersion ∧ epoch.recoveryTransactionVersion ≤ req.version
  reported : ∀ b ∈ w.batches, b.phase = .reported →
    b.commitVersion ≤ servedVersion epoch w.master ∨
      b.commitVersion < (w.proxies b.proxy).committedVersion
  liveReplies : ∀ x ∈ w.liveReplies, x.2.version ≤ servedVersion epoch w.master
  commitIds : ∀ p v, Event.commitId p v ∈ w.events → v ≤ servedVersion epoch w.master
  causal : ReadsFollowCommits w.events

lemma inv_initial {w : World P} (h : World.initial epoch w) : Inv epoch w := by
  obtain ⟨hlive, hproxies, hbatches, hreplies, hevents⟩ := h
  have hserved : servedVersion epoch w.master = epoch.recoveryTransactionVersion := by
    rw [servedVersion_eq, if_pos hlive]
  exact
    { recovery_le := fun p => (hproxies p).ge
      committed_le := fun p => by rw [hproxies p, hserved]
      reporting := by simp [hbatches]
      reported := by simp [hbatches]
      liveReplies := by simp [hreplies]
      commitIds := by simp [hevents]
      causal := by simp [hevents, ReadsFollowCommits] }

namespace Inv

variable {w : World P} (h : Inv epoch w)
include h

lemma reported_of_le {served : ℤ} {committed : P → ℤ}
    (hserved : servedVersion epoch w.master ≤ served)
    (hcommitted : ∀ p, (w.proxies p).committedVersion ≤ committed p)
    {b : CommitBatch P} (hb : b ∈ w.batches) (hph : b.phase = .reported) :
    b.commitVersion ≤ served ∨ b.commitVersion < committed b.proxy := by
  rcases h.reported b hb hph with hle | hlt
  · exact .inl (hle.trans hserved)
  · exact .inr (hlt.trans_le (hcommitted b.proxy))

lemma startBatch {b : CommitBatch P} (hb : b.phase = .logging) :
    Inv epoch { w with batches := w.batches ++ [b] } where
  recovery_le := h.recovery_le
  committed_le := h.committed_le
  reporting b' hb' req hph := by
    rcases List.mem_append.mp hb' with hb' | hb'
    · exact h.reporting b' hb' req hph
    · rw [List.mem_singleton.mp hb', hb] at hph
      cases hph
  reported b' hb' hph := by
    rcases List.mem_append.mp hb' with hb' | hb'
    · exact h.reported b' hb' hph
    · rw [List.mem_singleton.mp hb', hb] at hph
      cases hph
  liveReplies := h.liveReplies
  commitIds := h.commitIds
  causal := h.causal

lemma beginReply {i : ℕ} {b : CommitBatch P} (hi : w.batches[i]? = some b) :
    Inv epoch
      { w with batches := w.batches.set i { b with phase := CommitProxy.beginReply (w.proxies b.proxy) b } } where
  recovery_le := h.recovery_le
  committed_le := h.committed_le
  reporting b' hb' req hph := by
    rcases List.mem_or_eq_of_mem_set hb' with hb' | rfl
    · exact h.reporting b' hb' req hph
    · simp only [CommitProxy.beginReply] at hph
      split_ifs at hph with hge
      cases hph
      exact ⟨rfl, (h.recovery_le b.proxy).trans hge⟩
  reported b' hb' hph := by
    rcases List.mem_or_eq_of_mem_set hb' with hb' | rfl
    · exact h.reported b' hb' hph
    · -- a batch that skips its report was overtaken by its proxy's committed version
      simp only [CommitProxy.beginReply] at hph
      split_ifs at hph with hge
      exact .inr (lt_of_not_ge hge)
  liveReplies := h.liveReplies
  commitIds := h.commitIds
  causal := h.causal

lemma masterReport {i : ℕ} {b : CommitBatch P} {req : ReportRawCommittedVersionRequest}
    (hi : w.batches[i]? = some b) (hph : b.phase = .reporting req) :
    Inv epoch
      { w with
        master := serveReportLiveCommittedVersion w.master req
        batches := w.batches.set i { b with phase := .reported } } := by
  obtain ⟨hreq, hrtv⟩ := h.reporting b (List.mem_of_getElem? hi) req hph
  obtain ⟨hmono, hge⟩ := le_servedVersion_serveReport w.master hrtv
  exact
    { recovery_le := h.recovery_le
      committed_le := fun p => (h.committed_le p).trans hmono
      reporting := fun b' hb' req' hph' => by
        rcases List.mem_or_eq_of_mem_set hb' with hb' | rfl
        · exact h.reporting b' hb' req' hph'
        · cases hph'
      reported := fun b' hb' hph' => by
        rcases List.mem_or_eq_of_mem_set hb' with hb' | rfl
        · exact h.reported_of_le hmono (fun _ => le_rfl) hb' hph'
        · exact .inl (hreq ▸ hge)
      liveReplies := fun x hx => (h.liveReplies x hx).trans hmono
      commitIds := fun p v hv => (h.commitIds p v hv).trans hmono
      causal := h.causal }

lemma commitVersion_le {i : ℕ} {b : CommitBatch P} (hi : w.batches[i]? = some b)
    (hph : b.phase = .reported) : b.commitVersion ≤ servedVersion epoch w.master := by
  rcases h.reported b (List.mem_of_getElem? hi) hph with hle | hlt
  · exact hle
  · exact hlt.le.trans (h.committed_le b.proxy)

lemma finishReply {i : ℕ} {b : CommitBatch P} (hi : w.batches[i]? = some b)
    (hph : b.phase = .reported) :
    Inv epoch
      { w with
        proxies := Function.update w.proxies b.proxy
          ((w.proxies b.proxy).raise b.commitVersion b.lockedAfter b.metadataVersionAfter)
        batches := w.batches.set i { b with phase := .replied }
        events := w.events ++ [.commitId b.proxy b.commitVersion] } := by
  have hv := h.commitVersion_le hi hph
  have hgrow : ∀ p, (w.proxies p).committedVersion ≤
      (Function.update w.proxies b.proxy ((w.proxies b.proxy).raise b.commitVersion b.lockedAfter
        b.metadataVersionAfter) p).committedVersion := fun p => by
    rw [Function.update_apply]
    split_ifs with hp
    · subst hp
      exact committedVersion_le_raise _ _ _ _
    · exact le_rfl
  exact
    { recovery_le := fun p => (h.recovery_le p).trans (hgrow p)
      committed_le := fun p => by
        dsimp only
        rw [Function.update_apply]
        split_ifs with hp
        · exact raise_committedVersion_le (hp ▸ h.committed_le p) hv
        · exact h.committed_le p
      reporting := fun b' hb' req' hph' => by
        rcases List.mem_or_eq_of_mem_set hb' with hb' | rfl
        · exact h.reporting b' hb' req' hph'
        · cases hph'
      reported := fun b' hb' hph' => by
        rcases List.mem_or_eq_of_mem_set hb' with hb' | rfl
        · exact h.reported_of_le le_rfl hgrow hb' hph'
        · cases hph'
      liveReplies := h.liveReplies
      commitIds := fun p v hmem => by
        rcases List.mem_append.mp hmem with hmem | hmem
        · exact h.commitIds p v hmem
        · cases List.mem_singleton.mp hmem
          exact hv
      causal := h.causal.append_commitId _ _ }

lemma serveReadVersion :
    Inv epoch
      { w with
        master := (serveGetLiveCommittedVersion epoch w.master).1
        events := w.events ++
          [.readVersion (serveGetLiveCommittedVersion epoch w.master).2.version] } where
  recovery_le := h.recovery_le
  committed_le p := by
    simpa using h.committed_le p
  reporting := h.reporting
  reported b hb hph := by
    simpa using h.reported b hb hph
  liveReplies x hx := by
    simpa using h.liveReplies x hx
  commitIds p v hmem := by
    rcases List.mem_append.mp hmem with hmem | hmem
    · simpa using h.commitIds p v hmem
    · cases List.mem_singleton.mp hmem
  causal := h.causal.append_readVersion h.commitIds

lemma serveProxy (p : P) :
    Inv epoch
      { w with
        master := (serveGetLiveCommittedVersion epoch w.master).1
        liveReplies := w.liveReplies ++ [(p, (serveGetLiveCommittedVersion epoch w.master).2)] } where
  recovery_le := h.recovery_le
  committed_le q := by
    simpa using h.committed_le q
  reporting := h.reporting
  reported b hb hph := by
    simpa using h.reported b hb hph
  liveReplies x hx := by
    rcases List.mem_append.mp hx with hx | hx
    · simpa using h.liveReplies x hx
    · rw [List.mem_singleton.mp hx]
      exact (servedVersion_serveGet _).ge
  commitIds q v hmem := by
    simpa using h.commitIds q v hmem
  causal := h.causal

lemma receiveLive {p : P} {rep : GetRawCommittedVersionReply} (hrep : (p, rep) ∈ w.liveReplies) :
    Inv epoch
      { w with
        proxies := Function.update w.proxies p
          ((w.proxies p).raise rep.version rep.locked rep.metadataVersion) } := by
  have hv : rep.version ≤ servedVersion epoch w.master := h.liveReplies (p, rep) hrep
  have hgrow : ∀ q, (w.proxies q).committedVersion ≤
      (Function.update w.proxies p ((w.proxies p).raise rep.version rep.locked rep.metadataVersion)
        q).committedVersion := fun q => by
    rw [Function.update_apply]
    split_ifs with hq
    · subst hq
      exact committedVersion_le_raise _ _ _ _
    · exact le_rfl
  exact
    { recovery_le := fun q => (h.recovery_le q).trans (hgrow q)
      committed_le := fun q => by
        dsimp only
        rw [Function.update_apply]
        split_ifs with hq
        · exact raise_committedVersion_le (hq ▸ h.committed_le q) hv
        · exact h.committed_le q
      reporting := h.reporting
      reported := fun b hb hph => h.reported_of_le le_rfl hgrow hb hph
      liveReplies := h.liveReplies
      commitIds := h.commitIds
      causal := h.causal }

lemma step {w' : World P} (hs : Step epoch w w') : Inv epoch w' := by
  cases hs with
  | startBatch b hb => exact h.startBatch hb
  | beginReply i b hi _ => exact h.beginReply hi
  | masterReport i b req hi hph => exact h.masterReport hi hph
  | finishReply i b hi hph => exact h.finishReply hi hph
  | serveReadVersion => exact h.serveReadVersion
  | serveProxy p => exact h.serveProxy p
  | receiveLive p rep hrep => exact h.receiveLive hrep

end Inv

lemma inv_reachable {w : World P} (hw : Reachable (World.initial epoch) (Step epoch) w) :
    Inv epoch w :=
  Reachable.induction (P := Inv epoch) (fun _ h => inv_initial h) (fun _ _ _ h hs => h.step hs) hw

lemma Step.commitId_sent {w w' : World P} (hs : Step epoch w w') {p : P} {v : ℤ}
    (hev : w'.events = w.events ++ [.commitId p v]) :
    ∃ (i : ℕ) (b : CommitBatch P), w.batches[i]? = some b ∧ b.phase = .reported ∧
      b.commitVersion = v := by
  have hsame : w'.events = w.events → False := fun he => by
    rw [he] at hev
    simp at hev
  cases hs with
  | finishReply i b hi hph =>
    obtain ⟨-, hv⟩ := Event.commitId.inj (List.mem_singleton.mp
      ((List.append_cancel_left hev).symm ▸ List.mem_singleton_self _))
    exact ⟨i, b, hi, hph, hv.symm⟩
  | serveReadVersion =>
    cases List.mem_singleton.mp ((List.append_cancel_left hev).symm ▸ List.mem_singleton_self _)
  | startBatch => exact (hsame rfl).elim
  | beginReply => exact (hsame rfl).elim
  | masterReport => exact (hsame rfl).elim
  | serveProxy => exact (hsame rfl).elim
  | receiveLive => exact (hsame rfl).elim

/-- Reads are causal within an epoch: (a) the master's live version is never below a
proxy's committed version; (b) a step sends `CommitID(v)` only when the master's live
version is at least `v`; (c) every read version served after it is at least `v`. -/
def CausalReads (epoch : EpochVersions) (w : World P) : Prop :=
  (∀ p, (w.proxies p).committedVersion ≤ servedVersion epoch w.master) ∧
    (∀ w', Step epoch w w' → ∀ p v, w'.events = w.events ++ [.commitId p v] →
      v ≤ servedVersion epoch w.master) ∧
    ReadsFollowCommits w.events

theorem readVersions_causal {w : World P} (hw : Reachable (World.initial epoch) (Step epoch) w) :
    CausalReads epoch w := by
  have h := inv_reachable hw
  refine ⟨h.committed_le, fun w' hs p v hev => ?_, h.causal⟩
  obtain ⟨i, b, hi, hph, rfl⟩ := hs.commitId_sent hev
  exact h.commitVersion_le hi hph

def sampleEpoch : EpochVersions := ⟨0, 1, Int.zero_lt_one⟩

def sampleStart : World Unit := ⟨⟨invalidVersion, false, none⟩, fun _ => ⟨1, false, none⟩, [], [], []⟩

def sampleBatch : CommitBatch Unit := ⟨(), 5, false, none, .logging⟩

def sampleStarted : World Unit := { sampleStart with batches := sampleStart.batches ++ [sampleBatch] }

def sampleReporting : World Unit :=
  { sampleStarted with
    batches := sampleStarted.batches.set 0
      { sampleBatch with phase := beginReply (sampleStarted.proxies sampleBatch.proxy) sampleBatch } }

def sampleReportingBatch : CommitBatch Unit := { sampleBatch with phase := .reporting ⟨5, false, none⟩ }

def sampleReported : World Unit :=
  { sampleReporting with
    master := serveReportLiveCommittedVersion sampleReporting.master ⟨5, false, none⟩
    batches := sampleReporting.batches.set 0 { sampleReportingBatch with phase := .reported } }

def sampleReportedBatch : CommitBatch Unit := { sampleReportingBatch with phase := .reported }

def sampleReplied : World Unit :=
  { sampleReported with
    proxies := Function.update sampleReported.proxies sampleReportedBatch.proxy
      ((sampleReported.proxies sampleReportedBatch.proxy).raise sampleReportedBatch.commitVersion
        sampleReportedBatch.lockedAfter sampleReportedBatch.metadataVersionAfter)
    batches := sampleReported.batches.set 0 { sampleReportedBatch with phase := .replied }
    events := sampleReported.events ++
      [.commitId sampleReportedBatch.proxy sampleReportedBatch.commitVersion] }

def sampleRead : World Unit :=
  { sampleReplied with
    master := (serveGetLiveCommittedVersion sampleEpoch sampleReplied.master).1
    events := sampleReplied.events ++
      [.readVersion (serveGetLiveCommittedVersion sampleEpoch sampleReplied.master).2.version] }

theorem readVersions_causal_sample :
    Reachable (World.initial sampleEpoch) (Step sampleEpoch) sampleRead ∧
      CausalReads sampleEpoch sampleRead := by
  have h₀ : Reachable (World.initial sampleEpoch) (Step sampleEpoch) sampleStart :=
    Reachable.of_init ⟨rfl, fun _ => rfl, rfl, rfl, rfl⟩
  have h₁ := h₀.tail (Step.startBatch sampleStart sampleBatch rfl)
  have h₂ := h₁.tail (Step.beginReply sampleStarted 0 sampleBatch rfl rfl)
  have h₃ := h₂.tail (Step.masterReport sampleReporting 0 sampleReportingBatch ⟨5, false, none⟩
    (by simp [sampleReporting, sampleStarted, sampleStart, sampleReportingBatch, beginReply,
      sampleBatch]) rfl)
  have h₄ := h₃.tail (Step.finishReply sampleReported 0 sampleReportedBatch rfl rfl)
  have h₅ := h₄.tail (Step.serveReadVersion sampleReplied)
  exact ⟨h₅, readVersions_causal h₅⟩

end FoundationDB.CommitProxy
