import FoundationDB.Master.GetVersion
import Mathlib.Data.List.Nodup

/-! The versions the master hands out form one chain: the first reply of the epoch
goes from `lastEpochEnd` to `recoveryTransactionVersion`, each later reply starts
at the version of the reply before it, every proxy's new requests are answered in
the order of their numbers, and a request number never gets two different
replies. -/

namespace FoundationDB.Master

open TransitionSystem

variable {P : Type} [DecidableEq P] (knobs : VersionKnobs) (epoch : EpochVersions)

def Follows (a b : GetCommitVersionReply) : Prop :=
  b.prevVersion = a.version ∧ 1 ≤ b.version - b.prevVersion ∧
    b.version - b.prevVersion ≤ knobs.maxReadTransactionLifeVersions

/-- The replies, in the order the master made them, form the epoch's chain. -/
def VersionChain (reps : List GetCommitVersionReply) : Prop :=
  (∀ r ∈ reps.head?, r.prevVersion = epoch.lastEpochEnd ∧
    r.version = epoch.recoveryTransactionVersion) ∧ reps.IsChain (Follows knobs)

variable {knobs epoch}

lemma versionStep_mem (knobs : VersionKnobs) (elapsed : ℤ) :
    1 ≤ versionStep knobs elapsed ∧ versionStep knobs elapsed ≤ knobs.maxReadTransactionLifeVersions := by
  have h := knobs.one_le_maxReadTransactionLifeVersions
  constructor
  · exact le_max_left _ _
  · exact max_le h (min_le_left _ _)

lemma VersionChain.recovery_le {reps : List GetCommitVersionReply}
    (h : VersionChain knobs epoch reps) : ∀ r ∈ reps, epoch.recoveryTransactionVersion ≤ r.version := by
  obtain ⟨hhead, hchain⟩ := h
  induction reps using List.reverseRecOn with
  | nil => simp
  | append_singleton reps b ih =>
    intro r hr
    rcases reps.eq_nil_or_concat with rfl | ⟨init, a, rfl⟩
    · simp only [List.nil_append, List.mem_singleton] at hr
      subst hr
      exact (hhead r (by simp)).2.ge
    · have hch := List.isChain_append.mp hchain
      have ha : epoch.recoveryTransactionVersion ≤ a.version :=
        ih (by simpa using hhead) hch.1 a (by simp)
      rcases List.mem_append.mp hr with hr | hr
      · exact ih (by simpa using hhead) hch.1 r hr
      · simp only [List.mem_singleton] at hr
        subst hr
        obtain ⟨hprev, hstep, -⟩ := hch.2.2 a (by simp) r (by simp)
        omega

def lastVersion (reps : List GetCommitVersionReply) : ℤ :=
  (reps.getLast?.map (·.version)).getD invalidVersion

@[simp] lemma lastVersion_nil : lastVersion [] = invalidVersion := rfl

@[simp] lemma lastVersion_concat (reps : List GetCommitVersionReply) (a : GetCommitVersionReply) :
    lastVersion (reps ++ [a]) = a.version := by
  simp [lastVersion]

lemma VersionChain.concat {reps : List GetCommitVersionReply} (h : VersionChain knobs epoch reps)
    (elapsed : ℤ) (n : ℕ) :
    VersionChain knobs epoch (reps ++
      [⟨(nextVersions knobs epoch (lastVersion reps) elapsed).1,
        (nextVersions knobs epoch (lastVersion reps) elapsed).2, n⟩]) := by
  rcases reps.eq_nil_or_concat with rfl | ⟨init, a, rfl⟩
  · refine ⟨?_, List.isChain_singleton _⟩
    simp [nextVersions]
  · rw [List.concat_eq_append] at h ⊢
    have hpos := epoch.recoveryTransactionVersion_pos
    have ha := h.recovery_le a (by simp)
    have hvs : nextVersions knobs epoch (lastVersion (init ++ [a])) elapsed =
        (a.version, a.version + versionStep knobs elapsed) := by
      rw [lastVersion_concat, nextVersions, if_neg (by unfold invalidVersion; omega)]
    obtain ⟨hhead, hchain⟩ := h
    refine ⟨by simpa using hhead, hchain.append (List.isChain_singleton _) ?_⟩
    simp only [List.getLast?_concat, Option.mem_def, Option.some.injEq, List.head?_cons,
      forall_eq']
    have hs := versionStep_mem knobs elapsed
    simp only [Follows, hvs, true_and]
    omega

section Spec

variable {self : MasterData P} {req : GetCommitVersionRequest P} {elapsed : ℤ}
  {c : CommitProxyVersionReplies}

lemma getVersion_unknown (h : self.lastCommitProxyVersionReplies req.requestingProxy = none) :
    getVersion knobs epoch self req elapsed = (self, .never) := by
  simp [getVersion, h]

lemma getVersion_retained (h : self.lastCommitProxyVersionReplies req.requestingProxy = some c)
    {rep : GetCommitVersionReply} (hr : c.replies req.requestNum = some rep) :
    getVersion knobs epoch self req elapsed = (self, .resent rep) := by
  simp [getVersion, h, hr]

lemma getVersion_old (h : self.lastCommitProxyVersionReplies req.requestingProxy = some c)
    (hr : c.replies req.requestNum = none) (hn : req.requestNum ≤ c.latestRequestNum) :
    getVersion knobs epoch self req elapsed =
      (self, if req.requestNum < c.latestRequestNum then .never else .assertionFailed) := by
  simp only [getVersion, h, hr, if_pos hn]
  split <;> rfl

lemma getVersion_new (h : self.lastCommitProxyVersionReplies req.requestingProxy = some c)
    (hr : c.replies req.requestNum = none) (hn : c.latestRequestNum < req.requestNum) :
    getVersion knobs epoch self req elapsed =
      ((newReply knobs epoch self req c elapsed).1,
        .issued (newReply knobs epoch self req c elapsed).2) := by
  simp [getVersion, h, hr, Nat.not_le.mpr hn]

@[simp] lemma newReply_reply :
    (newReply knobs epoch self req c elapsed).2 =
      ⟨(nextVersions knobs epoch self.version elapsed).1,
        (nextVersions knobs epoch self.version elapsed).2, req.requestNum⟩ := rfl

@[simp] lemma newReply_version :
    (newReply knobs epoch self req c elapsed).1.version =
      (nextVersions knobs epoch self.version elapsed).2 := rfl

@[simp] lemma newReply_replies :
    (newReply knobs epoch self req c elapsed).1.lastCommitProxyVersionReplies =
      Function.update self.lastCommitProxyVersionReplies req.requestingProxy
        (some (c.record req (newReply knobs epoch self req c elapsed).2)) := rfl

end Spec

omit [DecidableEq P] in
lemma issued_concat (w : World P) (m : MasterData P) (req : GetCommitVersionRequest P)
    (o : VersionReply) :
    ({ w with master := m, sent := w.sent ++ [(req, o)] } : World P).issued =
      w.issued ++ (issuedEntry (req, o)).toList := by
  simp only [World.issued, List.filterMap_append, List.filterMap_cons, List.filterMap_nil]
  cases issuedEntry (req, o) <;> rfl

def issuedNumbers (iss : List (P × GetCommitVersionReply)) (p : P) : List ℕ :=
  (iss.filter (·.1 = p)).map (·.2.requestNum)

structure ProxyInv (iss : List (P × GetCommitVersionReply)) (p : P)
    (c : CommitProxyVersionReplies) : Prop where
  numbers : issuedNumbers iss p = List.range' 1 c.latestRequestNum
  retained : ∀ n rep, c.replies n = some rep → (p, rep) ∈ iss ∧ rep.requestNum = n
  latest : 0 < c.latestRequestNum → c.replies c.latestRequestNum ≠ none

def SentOk (iss : List (P × GetCommitVersionReply)) (req : GetCommitVersionRequest P)
    (o : VersionReply) : Prop :=
  o ≠ .assertionFailed ∧ ∀ rep, (o = .issued rep ∨ o = .resent rep) →
    (req.requestingProxy, rep) ∈ iss ∧ rep.requestNum = req.requestNum

variable (knobs epoch) in
structure Inv (w : World P) : Prop where
  chain : VersionChain knobs epoch (w.issued.map Prod.snd)
  version : w.master.version = lastVersion (w.issued.map Prod.snd)
  proxies : ∀ p c, w.master.lastCommitProxyVersionReplies p = some c → ProxyInv w.issued p c
  unknown : ∀ p, w.master.lastCommitProxyVersionReplies p = none → ∀ rep, (p, rep) ∉ w.issued
  numbered : ∀ req ∈ w.requests, 1 ≤ req.requestNum
  sent : ∀ req o, (req, o) ∈ w.sent → SentOk w.issued req o

section Preservation

variable {iss : List (P × GetCommitVersionReply)}

omit [DecidableEq P] in
lemma SentOk.mono {req : GetCommitVersionRequest P} {o : VersionReply} (h : SentOk iss req o)
    (l : List (P × GetCommitVersionReply)) : SentOk (iss ++ l) req o :=
  ⟨h.1, fun rep hrep => ⟨List.mem_append_left _ (h.2 rep hrep).1, (h.2 rep hrep).2⟩⟩

lemma ProxyInv.append_other {q p : P} {c : CommitProxyVersionReplies} (h : ProxyInv iss q c)
    (hpq : p ≠ q) (rep : GetCommitVersionReply) : ProxyInv (iss ++ [(p, rep)]) q c where
  numbers := by simpa [issuedNumbers, List.filter_append, hpq] using h.numbers
  retained n r hr := ⟨List.mem_append_left _ (h.retained n r hr).1, (h.retained n r hr).2⟩
  latest := h.latest

lemma ProxyInv.record {c : CommitProxyVersionReplies} {req : GetCommitVersionRequest P}
    {rep : GetCommitVersionReply} (h : ProxyInv iss req.requestingProxy c)
    (hn : req.requestNum = c.latestRequestNum + 1) (hrep : rep.requestNum = req.requestNum) :
    ProxyInv (iss ++ [(req.requestingProxy, rep)]) req.requestingProxy (c.record req rep) where
  numbers := by
    simp only [issuedNumbers, List.filter_append, List.map_append, CommitProxyVersionReplies.record,
      hn, List.range'_concat]
    rw [← issuedNumbers, h.numbers]
    simp [hrep, hn, Nat.add_comm]
  retained n r hr := by
    simp only [CommitProxyVersionReplies.record] at hr
    split_ifs at hr with h1 h2
    · cases hr
      exact ⟨by simp, by rw [hrep, h1]⟩
    · exact ⟨List.mem_append_left _ (h.retained n r hr).1, (h.retained n r hr).2⟩
  latest _ := by simp [CommitProxyVersionReplies.record]

lemma inv_initial {registered : P → Prop} [DecidablePred registered] {w : World P}
    (h : w.initial registered) : Inv knobs epoch w := by
  obtain ⟨hv, hmap, hreq, -, hsent⟩ := h
  have hiss : w.issued = [] := by simp [World.issued, hsent]
  refine ⟨?_, ?_, ?_, ?_, ?_, ?_⟩
  · rw [hiss]
    exact ⟨by simp, List.isChain_nil⟩
  · rw [hiss, hv]
    rfl
  · intro p c hc
    rw [hmap p] at hc
    split_ifs at hc
    cases hc
    exact ⟨by simp [hiss, issuedNumbers, CommitProxyVersionReplies.empty],
      by simp [CommitProxyVersionReplies.empty], by simp [CommitProxyVersionReplies.empty]⟩
  · intro p _ rep
    simp [hiss]
  · simp [hreq]
  · simp [hsent]

lemma Inv.handle_same {w : World P} (h : Inv knobs epoch w) {req : GetCommitVersionRequest P}
    {o : VersionReply} (hnone : issuedEntry (req, o) = none) (hok : SentOk w.issued req o) :
    Inv knobs epoch { w with sent := w.sent ++ [(req, o)] } := by
  have hiss : ({ w with sent := w.sent ++ [(req, o)] } : World P).issued = w.issued := by
    rw [issued_concat, hnone]
    simp
  refine ⟨?_, ?_, ?_, ?_, h.numbered, ?_⟩
  · rw [hiss]
    exact h.chain
  · rw [hiss]
    exact h.version
  · rw [hiss]
    exact h.proxies
  · rw [hiss]
    exact h.unknown
  · intro req' o' hmem
    rw [hiss]
    rcases List.mem_append.mp hmem with hm | hm
    · exact h.sent _ _ hm
    · obtain ⟨rfl, rfl⟩ := Prod.mk.inj (List.mem_singleton.mp hm)
      exact hok

lemma Inv.handle_new {w : World P} (h : Inv knobs epoch w) {req : GetCommitVersionRequest P}
    {elapsed : ℤ} {c : CommitProxyVersionReplies}
    (hc : w.master.lastCommitProxyVersionReplies req.requestingProxy = some c)
    (hr : c.replies req.requestNum = none) (hn : req.requestNum = c.latestRequestNum + 1) :
    Inv knobs epoch
      { w with
        master := (getVersion knobs epoch w.master req elapsed).1
        sent := w.sent ++ [(req, (getVersion knobs epoch w.master req elapsed).2)] } := by
  rw [getVersion_new hc hr (by omega)]
  set r := newReply knobs epoch w.master req c elapsed with hr'
  have hiss : ({ w with master := r.1, sent := w.sent ++ [(req, VersionReply.issued r.2)] } :
      World P).issued = w.issued ++ [(req.requestingProxy, r.2)] := by
    rw [show ({ w with master := r.1, sent := w.sent ++ [(req, VersionReply.issued r.2)] } :
      World P).issued = ({ w with sent := w.sent ++ [(req, VersionReply.issued r.2)] } :
      World P).issued from rfl, issued_concat]
    rfl
  refine ⟨?_, ?_, ?_, ?_, h.numbered, ?_⟩
  · rw [hiss, List.map_append, List.map_singleton, hr', newReply_reply, h.version]
    exact h.chain.concat elapsed req.requestNum
  · rw [hiss, List.map_append, List.map_singleton, lastVersion_concat, hr', newReply_version,
      newReply_reply]
  · intro q c' hc'
    simp only [hr', newReply_replies] at hc'
    rw [hiss]
    by_cases hq : q = req.requestingProxy
    · subst hq
      simp only [Function.update_self, Option.some.injEq] at hc'
      subst hc'
      exact (h.proxies _ c hc).record hn rfl
    · rw [Function.update_of_ne hq] at hc'
      exact (h.proxies q c' hc').append_other (Ne.symm hq) _
  · intro q hq rep
    simp only [hr', newReply_replies] at hq
    rw [hiss]
    have hne : q ≠ req.requestingProxy := by
      rintro rfl
      simp at hq
    rw [Function.update_of_ne hne] at hq
    simp only [List.mem_append, List.mem_singleton, Prod.mk.injEq, not_or]
    exact ⟨h.unknown q hq rep, fun h' => hne h'.1⟩
  · intro req' o' hmem
    rw [hiss]
    rcases List.mem_append.mp hmem with hm | hm
    · exact (h.sent _ _ hm).mono _
    · obtain ⟨rfl, rfl⟩ := Prod.mk.inj (List.mem_singleton.mp hm)
      refine ⟨by simp, fun rep hrep => ?_⟩
      simp only [VersionReply.issued.injEq, reduceCtorEq, or_false] at hrep
      subst hrep
      exact ⟨by simp, by simp [hr']⟩

lemma Inv.step {w w' : World P} (h : Inv knobs epoch w) (hs : Step knobs epoch w w') :
    Inv knobs epoch w' := by
  cases hs with
  | request p mostRecent =>
    refine ⟨h.chain, h.version, h.proxies, h.unknown, ?_, h.sent⟩
    intro req hreq
    rcases List.mem_append.mp hreq with hr | hr
    · exact h.numbered req hr
    · rw [List.mem_singleton.mp hr]
      exact Nat.le_add_left 1 _
  | handle req elapsed hmem hready =>
    rcases hc : w.master.lastCommitProxyVersionReplies req.requestingProxy with _ | c
    · rw [getVersion_unknown hc]
      exact h.handle_same rfl ⟨by simp, by simp⟩
    · rcases hr : c.replies req.requestNum with _ | rep
      · by_cases hn : req.requestNum ≤ c.latestRequestNum
        · -- the latest request's reply is always retained, so the assertion holds
          have hlt : req.requestNum < c.latestRequestNum := by
            by_contra hge
            have h1 := h.numbered req hmem
            have heq : c.latestRequestNum = req.requestNum := by omega
            exact (h.proxies _ c hc).latest (by omega) (heq ▸ hr)
          rw [getVersion_old hc hr hn, if_pos hlt]
          exact h.handle_same rfl ⟨by simp, by simp⟩
        · have hready' : req.requestNum - 1 ≤ c.latestRequestNum := by
            simpa [ready, hc] using hready
          exact h.handle_new hc hr (by omega)
      · rw [getVersion_retained hc hr]
        have hret := (h.proxies _ c hc).retained _ rep hr
        refine h.handle_same rfl ⟨by simp, fun r hr' => ?_⟩
        simp only [reduceCtorEq, VersionReply.resent.injEq, false_or] at hr'
        subst hr'
        exact hret

end Preservation

lemma inv_reachable {registered : P → Prop} [DecidablePred registered] {w : World P}
    (hw : Reachable (World.initial registered) (Step knobs epoch) w) : Inv knobs epoch w :=
  Reachable.induction (P := Inv knobs epoch) (fun _ h => inv_initial h)
    (fun _ _ _ h hs => h.step hs) hw

theorem getVersion_assertion_holds {registered : P → Prop} [DecidablePred registered]
    {w : World P} (hw : Reachable (World.initial registered) (Step knobs epoch) w)
    (req : GetCommitVersionRequest P) : (req, .assertionFailed) ∉ w.sent := fun hmem =>
  ((inv_reachable hw).sent req _ hmem).1 rfl

def sampleEpoch : EpochVersions := ⟨0, 1, Int.zero_lt_one⟩

def sampleStart : World Unit := ⟨⟨invalidVersion, fun _ => some .empty⟩, [], fun _ => 0, []⟩

end FoundationDB.Master
