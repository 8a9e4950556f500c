import FoundationDB.Library.Transition
import Mathlib.Data.List.Chain
import Mathlib.Data.Int.Order.Basic

/-! The master's commit version service (`getVersion`, `provideVersions` in
`masterserver.actor.cpp`). Every registered commit proxy numbers its requests
1, 2, ..., and the master answers a request only after it has answered the one
numbered before it; everything after that wait runs without yielding, so one
request is one step of the system. -/

namespace FoundationDB.Master

open TransitionSystem

def invalidVersion : ℤ := -1

/-- The knob `getVersion` reads. All its settings in `Knobs.cpp` are at least 1. -/
structure VersionKnobs where
  maxReadTransactionLifeVersions : ℤ
  one_le_maxReadTransactionLifeVersions : 1 ≤ maxReadTransactionLifeVersions

/-- The versions recovery fixes before the master hands out any:
`recoveryTransactionVersion` is 1 or `lastEpochEnd` plus a positive knob. -/
structure EpochVersions where
  lastEpochEnd : ℤ
  recoveryTransactionVersion : ℤ
  recoveryTransactionVersion_pos : 0 < recoveryTransactionVersion

structure GetCommitVersionRequest (P : Type) where
  requestingProxy : P
  requestNum : ℕ
  mostRecentProcessedRequestNum : ℕ
deriving DecidableEq

structure GetCommitVersionReply where
  prevVersion : ℤ
  version : ℤ
  requestNum : ℕ
deriving DecidableEq

structure CommitProxyVersionReplies where
  replies : ℕ → Option GetCommitVersionReply
  latestRequestNum : ℕ

def CommitProxyVersionReplies.empty : CommitProxyVersionReplies := ⟨fun _ => none, 0⟩

structure MasterData (P : Type) where
  version : ℤ
  lastCommitProxyVersionReplies : P → Option CommitProxyVersionReplies

/-- What one run of `getVersion` sends back. -/
inductive VersionReply
    | never
    | resent (rep : GetCommitVersionReply)
    | issued (rep : GetCommitVersionReply)
    | assertionFailed
deriving DecidableEq

variable {P : Type} [DecidableEq P]

def ready (self : MasterData P) (req : GetCommitVersionRequest P) : Prop :=
  match self.lastCommitProxyVersionReplies req.requestingProxy with
  | none => True
  | some c => req.requestNum - 1 ≤ c.latestRequestNum

def versionStep (knobs : VersionKnobs) (elapsed : ℤ) : ℤ :=
  max 1 (min knobs.maxReadTransactionLifeVersions elapsed)

def nextVersions (knobs : VersionKnobs) (epoch : EpochVersions) (version elapsed : ℤ) :
    ℤ × ℤ :=
  if version = invalidVersion then (epoch.lastEpochEnd, epoch.recoveryTransactionVersion)
  else (version, version + versionStep knobs elapsed)

def CommitProxyVersionReplies.record (c : CommitProxyVersionReplies)
    (req : GetCommitVersionRequest P) (rep : GetCommitVersionReply) : CommitProxyVersionReplies where
  replies n :=
    if n = req.requestNum then some rep
    else if n ≤ req.mostRecentProcessedRequestNum then none
    else c.replies n
  latestRequestNum := req.requestNum

def newReply (knobs : VersionKnobs) (epoch : EpochVersions) (self : MasterData P)
    (req : GetCommitVersionRequest P) (c : CommitProxyVersionReplies) (elapsed : ℤ) :
    MasterData P × GetCommitVersionReply :=
  let vs := nextVersions knobs epoch self.version elapsed
  let rep : GetCommitVersionReply := ⟨vs.1, vs.2, req.requestNum⟩
  ({ version := vs.2
     lastCommitProxyVersionReplies :=
       Function.update self.lastCommitProxyVersionReplies req.requestingProxy
         (some (c.record req rep)) }, rep)

/-- `getVersion` after its wait: the new master state and what is sent back. -/
def getVersion (knobs : VersionKnobs) (epoch : EpochVersions) (self : MasterData P)
    (req : GetCommitVersionRequest P) (elapsed : ℤ) : MasterData P × VersionReply :=
  match self.lastCommitProxyVersionReplies req.requestingProxy with
  | none => (self, .never)
  | some c =>
    match c.replies req.requestNum with
    | some rep => (self, .resent rep)
    | none =>
      if req.requestNum ≤ c.latestRequestNum then
        if req.requestNum < c.latestRequestNum then (self, .never) else (self, .assertionFailed)
      else
        let r := newReply knobs epoch self req c elapsed
        (r.1, .issued r.2)

/-- The master and its commit proxies: the requests on the wire (a request stays
there, so it may be delivered again), how many requests each proxy has numbered,
and every reply the master sent, in order. -/
structure World (P : Type) where
  master : MasterData P
  requests : List (GetCommitVersionRequest P)
  numbered : P → ℕ
  sent : List (GetCommitVersionRequest P × VersionReply)

def World.initial (registered : P → Prop) [DecidablePred registered] (w : World P) : Prop :=
  w.master.version = invalidVersion ∧
  (∀ p, w.master.lastCommitProxyVersionReplies p =
    if registered p then some CommitProxyVersionReplies.empty else none) ∧
  w.requests = [] ∧ (∀ p, w.numbered p = 0) ∧ w.sent = []

inductive Step (knobs : VersionKnobs) (epoch : EpochVersions) : World P → World P → Prop
  | request (w : World P) (p : P) (mostRecent : ℕ) :
      Step knobs epoch w
        { w with
          requests := w.requests ++ [⟨p, w.numbered p + 1, mostRecent⟩]
          numbered := Function.update w.numbered p (w.numbered p + 1) }
  | handle (w : World P) (req : GetCommitVersionRequest P) (elapsed : ℤ) :
      req ∈ w.requests → ready w.master req →
      Step knobs epoch w
        { w with
          master := (getVersion knobs epoch w.master req elapsed).1
          sent := w.sent ++ [(req, (getVersion knobs epoch w.master req elapsed).2)] }

def issuedEntry : GetCommitVersionRequest P × VersionReply → Option (P × GetCommitVersionReply)
  | (req, .issued rep) => some (req.requestingProxy, rep)
  | _ => none

def World.issued (w : World P) : List (P × GetCommitVersionReply) :=
  w.sent.filterMap issuedEntry

end FoundationDB.Master
