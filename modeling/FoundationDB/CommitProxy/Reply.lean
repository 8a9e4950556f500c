import FoundationDB.Master.GetVersion
import FoundationDB.Client.CommitTransaction

/-! How a commit becomes visible to reads (`reply` and `transactionLogging` in
`CommitProxyServer.actor.cpp`, `serveLiveCommittedVersion` in `masterserver.actor.cpp`,
`getLiveCommittedVersion` in `GrvProxyServer.actor.cpp`). A batch that has been logged
reports its version to the master unless its proxy has already committed a later one,
waits for the acknowledgement, raises the proxy's `committedVersion`, and answers its
clients. Read versions are the master's `liveCommittedVersion`. Batches of one proxy run
`reply` concurrently; messages take any time, and every step below may happen at any
moment it is enabled. -/

namespace FoundationDB.CommitProxy

open TransitionSystem Master

/-- The fields of `MasterData` that `serveLiveCommittedVersion` reads and writes. -/
structure LiveCommittedState where
  liveCommittedVersion : ℤ
  databaseLocked : Bool
  proxyMetadataVersion : Option Value

structure ReportRawCommittedVersionRequest where
  version : ℤ
  locked : Bool
  metadataVersion : Option Value

structure GetRawCommittedVersionReply where
  version : ℤ
  locked : Bool
  metadataVersion : Option Value

/-- The `getLiveCommittedVersion` branch of `serveLiveCommittedVersion`: the live version
is set to `recoveryTransactionVersion` when it is first asked for. -/
def serveGetLiveCommittedVersion (epoch : EpochVersions) (self : LiveCommittedState) :
    LiveCommittedState × GetRawCommittedVersionReply :=
  let self := if self.liveCommittedVersion = invalidVersion then
      { self with liveCommittedVersion := epoch.recoveryTransactionVersion }
    else self
  (self, ⟨self.liveCommittedVersion, self.databaseLocked, self.proxyMetadataVersion⟩)

/-- The `reportLiveCommittedVersion` branch. -/
def serveReportLiveCommittedVersion (self : LiveCommittedState)
    (req : ReportRawCommittedVersionRequest) : LiveCommittedState :=
  if req.version > self.liveCommittedVersion then ⟨req.version, req.locked, req.metadataVersion⟩
  else self

/-- The fields of `ProxyCommitData` that `reply` reads and writes. -/
structure ProxyCommitData where
  committedVersion : ℤ
  locked : Bool
  metadataVersion : Option Value

/-- `committedVersion.set(version)` with the lock state and metadata version that go with
it, when `version` is above the committed version: at the end of `reply`, and when the
master answers a proxy held back by the MVCC window. -/
def ProxyCommitData.raise (self : ProxyCommitData) (version : ℤ) (locked : Bool)
    (metadataVersion : Option Value) : ProxyCommitData :=
  if version > self.committedVersion then ⟨version, locked, metadataVersion⟩ else self

inductive BatchPhase
  | logging
  | reporting (req : ReportRawCommittedVersionRequest)
  | reported
  | replied

structure CommitBatch (P : Type) where
  proxy : P
  commitVersion : ℤ
  lockedAfter : Bool
  metadataVersionAfter : Option Value
  phase : BatchPhase

/-- The start of `reply`: the report to the master, unless the proxy has already
committed a later version. -/
def beginReply {P : Type} (proxy : ProxyCommitData) (batch : CommitBatch P) : BatchPhase :=
  if batch.commitVersion ≥ proxy.committedVersion then
    .reporting ⟨batch.commitVersion, batch.lockedAfter, batch.metadataVersionAfter⟩
  else .reported

/-- What clients are sent: a batch's `CommitID`s, or a read version. -/
inductive Event (P : Type)
  | commitId (proxy : P) (version : ℤ)
  | readVersion (version : ℤ)

structure World (P : Type) where
  master : LiveCommittedState
  proxies : P → ProxyCommitData
  batches : List (CommitBatch P)
  liveReplies : List (P × GetRawCommittedVersionReply)
  events : List (Event P)

variable {P : Type} [DecidableEq P]

/-- After recovery: the master's live version is unset and every commit proxy starts
from `recoveryTransactionVersion`. -/
def World.initial (epoch : EpochVersions) (w : World P) : Prop :=
  w.master.liveCommittedVersion = invalidVersion ∧
    (∀ p, (w.proxies p).committedVersion = epoch.recoveryTransactionVersion) ∧
    w.batches = [] ∧ w.liveReplies = [] ∧ w.events = []

/-- A batch starts logging; its log push may complete, or `committedVersion` pass it, at
any time, so it may begin `reply` at any time. The master handles a report or a request
for the live version whenever it arrives; a proxy held back by the MVCC window takes
in the master's answer whenever it arrives. -/
inductive Step (epoch : EpochVersions) : World P → World P → Prop
  | startBatch (w : World P) (b : CommitBatch P) : b.phase = .logging →
      Step epoch w { w with batches := w.batches ++ [b] }
  | beginReply (w : World P) (i : ℕ) (b : CommitBatch P) : w.batches[i]? = some b →
      b.phase = .logging →
      Step epoch w
        { w with batches := w.batches.set i { b with phase := beginReply (w.proxies b.proxy) b } }
  | masterReport (w : World P) (i : ℕ) (b : CommitBatch P) (req : ReportRawCommittedVersionRequest) :
      w.batches[i]? = some b → b.phase = .reporting req →
      Step epoch w
        { w with
          master := serveReportLiveCommittedVersion w.master req
          batches := w.batches.set i { b with phase := .reported } }
  | finishReply (w : World P) (i : ℕ) (b : CommitBatch P) : w.batches[i]? = some b →
      b.phase = .reported →
      Step epoch w
        { w with
          proxies := Function.update w.proxies b.proxy
            ((w.proxies b.proxy).raise b.commitVersion b.lockedAfter b.metadataVersionAfter)
          batches := w.batches.set i { b with phase := .replied }
          events := w.events ++ [.commitId b.proxy b.commitVersion] }
  | serveReadVersion (w : World P) :
      Step epoch w
        { w with
          master := (serveGetLiveCommittedVersion epoch w.master).1
          events := w.events ++ [.readVersion (serveGetLiveCommittedVersion epoch w.master).2.version] }
  | serveProxy (w : World P) (p : P) :
      Step epoch w
        { w with
          master := (serveGetLiveCommittedVersion epoch w.master).1
          liveReplies := w.liveReplies ++ [(p, (serveGetLiveCommittedVersion epoch w.master).2)] }
  | receiveLive (w : World P) (p : P) (rep : GetRawCommittedVersionReply) :
      (p, rep) ∈ w.liveReplies →
      Step epoch w
        { w with
          proxies := Function.update w.proxies p
            ((w.proxies p).raise rep.version rep.locked rep.metadataVersion) }

end FoundationDB.CommitProxy
