import FoundationDB.Client.CommitTransaction
import FoundationDB.Library.SortedMap
import FoundationDB.Library.Transition
import Mathlib.Data.Fintype.Option
import Mathlib.Data.Finset.Fold
import Mathlib.Data.Int.Order.Basic

/-! The resolver's batch handler (`resolveBatch` in `Resolver.actor.cpp`). Requests are
taken in version order: one whose `prevVersion` is the resolver's version is new, one
below it is a duplicate answered from `outstandingBatches`. A new batch records its
state transactions under its version and is answered with those recorded since the
proxy's last batch; old ones are trimmed once every proxy has moved past them. -/

namespace FoundationDB.Resolver

open TransitionSystem

inductive TransactionCommitResult
  | transactionConflict | transactionTooOld | transactionCommitted
deriving DecidableEq, Repr

structure StateTransactionRef where
  committed : Bool
  mutations : List MutationRef

structure ResolveTransactionBatchReply where
  committed : List TransactionCommitResult
  stateMutations : List (List StateTransactionRef)

structure ResolveTransactionBatchRequest (A : Type) where
  prevVersion : ℤ
  version : ℤ
  lastReceivedVersion : ℤ
  transactions : List CommitTransactionRef
  txnStateTransactions : List ℕ
  replyAddress : Option A

structure ProxyRequestsInfo where
  outstandingBatches : ℤ → Option ResolveTransactionBatchReply
  lastVersion : ℤ

def ProxyRequestsInfo.init : ProxyRequestsInfo := ⟨fun _ => none, -1⟩

/-- The conflict set's answer for a batch: the new conflict set, the indices of the
transactions that commit and of those that are too old (`ConflictBatch`). -/
abbrev ConflictDetector (C : Type) :=
  C → List CommitTransactionRef → ℤ → ℤ → C × List ℕ × List ℕ

end FoundationDB.Resolver

namespace FoundationDB

/-- The resolver's state; its operations live in the namespace of the same name. -/
structure Resolver (A C : Type) where
  commitProxyCount : ℕ
  version : ℤ
  proxyInfoMap : Option A → Option Resolver.ProxyRequestsInfo
  recentStateTransactions : List (ℤ × List Resolver.StateTransactionRef)
  conflictSet : C
  debugMinRecentStateVersion : ℤ

end FoundationDB

namespace FoundationDB.Resolver

open TransitionSystem

variable {A C : Type} [DecidableEq A] [Fintype A]

/-- The first request (`prevVersion < 0`) comes from the master and is filed under the
invalid address. -/
def proxyAddress (req : ResolveTransactionBatchRequest A) : Option A :=
  if 0 ≤ req.prevVersion then req.replyAddress else none

/-- `self->proxyInfoMap[x]`, default-constructed when absent. -/
def info (self : Resolver A C) (x : Option A) : ProxyRequestsInfo :=
  (self.proxyInfoMap x).getD ProxyRequestsInfo.init

/-- `self->proxyInfoMap[proxyAddress]` when the request arrives. -/
def touch (self : Resolver A C) (x : Option A) : Resolver A C :=
  { self with proxyInfoMap := Function.update self.proxyInfoMap x (some (self.info x)) }

def mapSize (m : Option A → Option ProxyRequestsInfo) : ℕ :=
  (Finset.univ.filter fun x => (m x).isSome).card

/-- The loop computing `oldestProxyVersion` over the valid addresses of the map. -/
def oldestProxyVersion (m : Option A → Option ProxyRequestsInfo) (version : ℤ) : ℤ :=
  Finset.univ.fold min version fun a : A =>
    match m (some a) with
    | some info => info.lastVersion
    | none => version

def commitResults (n : ℕ) (commitList tooOldList : List ℕ) : List TransactionCommitResult :=
  (List.range n).map fun t =>
    if t ∈ tooOldList then .transactionTooOld
    else if t ∈ commitList then .transactionCommitted
    else .transactionConflict

def stateTransactions (req : ResolveTransactionBatchRequest A)
    (committed : List TransactionCommitResult) : List StateTransactionRef :=
  req.txnStateTransactions.filterMap fun t =>
    req.transactions[t]?.map fun tr =>
      ⟨committed[t]? = some .transactionCommitted, tr.mutations⟩

/-- What one completed `resolveBatch` sends. -/
inductive BatchOutcome
  | fresh (rep : ResolveTransactionBatchReply) (recorded : List StateTransactionRef)
  | duplicate (rep : ResolveTransactionBatchReply)
  | never
  | assertionFailed

def answerDuplicate (self : Resolver A C) (req : ResolveTransactionBatchRequest A) : BatchOutcome :=
  match self.proxyInfoMap (proxyAddress req) with
  | some info =>
    match info.outstandingBatches req.version with
    | some rep => .duplicate rep
    | none => .never
  | none => .never

def firstUnseenVersion (self : Resolver A C) (req : ResolveTransactionBatchRequest A) : ℤ :=
  (self.info (proxyAddress req)).lastVersion + 1

/-- `outstandingBatches` after the proxy's acknowledgement `lastReceivedVersion`. -/
def prunedOutstanding (info : ProxyRequestsInfo) (lastReceivedVersion : ℤ) :
    ℤ → Option ResolveTransactionBatchReply :=
  if 0 < info.lastVersion then
    fun v => if v ≤ lastReceivedVersion then none else info.outstandingBatches v
  else info.outstandingBatches

/-- `recentStateTransactions[version]`, then `push_back` of each recorded transaction. -/
def recordRecent (recent : List (ℤ × List StateTransactionRef)) (version : ℤ)
    (recorded : List StateTransactionRef) : List (ℤ × List StateTransactionRef) :=
  SortedMap.upsert (fun old => old.getD [] ++ recorded) version recent

def trimCondition (self : Resolver A C) (req : ResolveTransactionBatchRequest A)
    (m : Option A → Option ProxyRequestsInfo) : Prop :=
  firstUnseenVersion self req ≤ oldestProxyVersion m req.version ∧
    mapSize m = self.commitProxyCount + 1

instance (self : Resolver A C) (req : ResolveTransactionBatchRequest A)
    (m : Option A → Option ProxyRequestsInfo) : Decidable (trimCondition self req m) :=
  inferInstanceAs (Decidable (_ ∧ _))

/-- A new batch: conflict detection, its state transactions recorded under its
version, the reply with those recorded since the proxy's last batch, and the trimming
of what every proxy has already been sent. -/
def newBatch (maxWriteTransactionLifeVersions : ℤ) (detect : ConflictDetector C)
    (self : Resolver A C) (req : ResolveTransactionBatchRequest A) :
    Resolver A C × ResolveTransactionBatchReply × List StateTransactionRef :=
  let addr := proxyAddress req
  let info := self.info addr
  let detected := detect self.conflictSet req.transactions req.version
    (req.version - maxWriteTransactionLifeVersions)
  let committed := commitResults req.transactions.length detected.2.1 detected.2.2
  let recorded := stateTransactions req committed
  let recent := recordRecent self.recentStateTransactions req.version recorded
  let rep : ResolveTransactionBatchReply :=
    ⟨committed, SortedMap.valuesFrom (firstUnseenVersion self req) req.version recent⟩
  let m := Function.update self.proxyInfoMap addr
    (some ⟨Function.update (prunedOutstanding info req.lastReceivedVersion) req.version (some rep),
      req.version⟩)
  let oldest := oldestProxyVersion m req.version
  ({ self with
      version := req.version
      proxyInfoMap := m
      recentStateTransactions :=
        if trimCondition self req m then SortedMap.eraseUpTo oldest recent else recent
      conflictSet := detected.1
      debugMinRecentStateVersion :=
        if trimCondition self req m then oldest + 1 else self.debugMinRecentStateVersion },
    rep, recorded)

/-- The part of `resolveBatch` after `version.whenAtLeast(req.prevVersion)`. A failed
`ASSERT` ends the resolver, so the state it leaves is that of the call. -/
def resolveBatch (maxWriteTransactionLifeVersions : ℤ) (detect : ConflictDetector C)
    (self : Resolver A C) (req : ResolveTransactionBatchRequest A) : Resolver A C × BatchOutcome :=
  if self.version = req.prevVersion then
    if req.version < firstUnseenVersion self req ∨
        firstUnseenVersion self req < self.debugMinRecentStateVersion then
      (self, .assertionFailed)
    else
      let r := newBatch maxWriteTransactionLifeVersions detect self req
      (r.1, .fresh r.2.1 r.2.2)
  else (self, answerDuplicate self req)

/-- The resolver, the requests whose actors have started (a request stays, so it may
be delivered again), and every completed `resolveBatch` with what it sent. -/
structure World (A C : Type) where
  resolver : Resolver A C
  arrived : List (ResolveTransactionBatchRequest A)
  sent : List (ResolveTransactionBatchRequest A × BatchOutcome)

/-- `resolverCore` starts from an empty resolver at version -1 serving one master and
its `commitProxyCount` proxies, the addresses `A`. -/
def World.initial (cs₀ : C) (w : World A C) : Prop :=
  w.resolver = ⟨Fintype.card A, -1, fun _ => none, [], cs₀, 0⟩ ∧ w.arrived = [] ∧ w.sent = []

/-- A request arrives: the master's has `prevVersion < 0`, and every request's
versions come from the master's chain, so `prevVersion < version`. Or a waiting
request resumes, once the resolver's version has reached its `prevVersion`. -/
inductive Step (maxWriteTransactionLifeVersions : ℤ) (detect : ConflictDetector C) :
    World A C → World A C → Prop
  | arrive (w : World A C) (req : ResolveTransactionBatchRequest A) :
      req.prevVersion < req.version → (req.replyAddress = none → req.prevVersion < 0) →
      Step maxWriteTransactionLifeVersions detect w
        { w with resolver := w.resolver.touch (proxyAddress req), arrived := w.arrived ++ [req] }
  | resume (w : World A C) (req : ResolveTransactionBatchRequest A) :
      req ∈ w.arrived → req.prevVersion ≤ w.resolver.version →
      Step maxWriteTransactionLifeVersions detect w
        { w with
          resolver := (resolveBatch maxWriteTransactionLifeVersions detect w.resolver req).1
          sent := w.sent ++
            [(req, (resolveBatch maxWriteTransactionLifeVersions detect w.resolver req).2)] }

/-- The batch a sent entry records, if it was new: its version, its address and its
state transactions. -/
def processedEntry :
    ResolveTransactionBatchRequest A × BatchOutcome → Option (ℤ × Option A × List StateTransactionRef)
  | (req, .fresh _ recorded) => some (req.version, proxyAddress req, recorded)
  | _ => none

/-- The batches processed so far, in order. -/
def World.processed (w : World A C) : List (ℤ × Option A × List StateTransactionRef) :=
  w.sent.filterMap processedEntry

def freshEntry (x : Option A) :
    ResolveTransactionBatchRequest A × BatchOutcome → Option (ℤ × ResolveTransactionBatchReply)
  | (req, .fresh rep _) => if proxyAddress req = x then some (req.version, rep) else none
  | _ => none

/-- The replies to the new requests filed under `x`, with their versions, in order. -/
def World.freshTo (w : World A C) (x : Option A) : List (ℤ × ResolveTransactionBatchReply) :=
  w.sent.filterMap (freshEntry x)

end FoundationDB.Resolver
