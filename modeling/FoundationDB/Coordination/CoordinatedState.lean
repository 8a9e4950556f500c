import FoundationDB.Coordination.GenerationReg
import FoundationDB.Library.Transition
import FoundationDB.Library.Quorum
import Mathlib.Data.List.MinMax
import Mathlib.Data.Fintype.Card
import Mathlib.Data.List.FinRange

/-! `CoordinatedStateImpl` (`CoordinatedState.actor.cpp`): a client that reads the
coordinators' registers in two `replicatedRead` rounds, the second at a generation above
every one it has seen, and then writes its value at that generation with
`replicatedWrite`. There are `N` coordinators and any number of clients; requests and
replies stay in the network, a coordinator serves any request it finds (again, when
`retryBrokenPromise` resends it), and a client takes in at most one reply per
coordinator for each request. -/

namespace FoundationDB.Coordination

open UniqueGeneration

variable {N : ℕ}

section ReplicatedRead

variable (received : Fin N → Option GenerationRegReadReply)

/-- The coordinators whose reply has come and is empty, so that the reply's future in
`rep_empty_reply` is ready. -/
def emptyReplies : Finset (Fin N) :=
  Finset.univ.filter fun i => (received i).any (·.gen.generation = 0)

/-- Those whose reply has come and is not empty (`rep_reply`). -/
def nonemptyReplies : Finset (Fin N) :=
  Finset.univ.filter fun i => (received i).any (·.gen.generation ≠ 0)

def majorityEmpty : Prop := (N + 1) / 2 ≤ (emptyReplies received).card

def majorityNonempty : Prop := N / 2 + 1 ≤ (nonemptyReplies received).card

instance : Decidable (majorityEmpty received) := inferInstanceAs (Decidable (_ ≤ _))

instance : Decidable (majorityNonempty received) := inferInstanceAs (Decidable (_ ≤ _))

/-- The replies that have come, in the order of the coordinators. -/
def readyReplies : List GenerationRegReadReply := (List.finRange N).filterMap received

/-- The reply `replicatedRead` returns once one of its two quorums is ready: the first
empty one with the greatest `rgen` if enough are empty, otherwise the first non-empty
one with the greatest `gen`, then `rgen`. It is `none` where `ASSERT(best >= 0)` fails. -/
def replicatedRead : Option GenerationRegReadReply :=
  if majorityEmpty received then
    ((readyReplies received).filter (·.gen.generation = 0)).argmax (·.rgen)
  else
    ((readyReplies received).filter (·.gen.generation ≠ 0)).argmax fun rep => toLex (rep.gen, rep.rgen)

variable {received}

lemma mem_readyReplies {rep : GenerationRegReadReply} :
    rep ∈ readyReplies received ↔ ∃ i, received i = some rep := by
  simp [readyReplies]

lemma mem_emptyReplies {i : Fin N} :
    i ∈ emptyReplies received ↔ ∃ rep, received i = some rep ∧ rep.gen.generation = 0 := by
  cases h : received i <;> simp [emptyReplies, h]

lemma mem_nonemptyReplies {i : Fin N} :
    i ∈ nonemptyReplies received ↔ ∃ rep, received i = some rep ∧ rep.gen.generation ≠ 0 := by
  cases h : received i <;> simp [nonemptyReplies, h]

lemma replicatedRead_mem {rep : GenerationRegReadReply} (h : replicatedRead received = some rep) :
    ∃ i, received i = some rep := by
  unfold replicatedRead at h
  split_ifs at h
  · exact mem_readyReplies.mp (List.mem_of_mem_filter (List.argmax_mem h))
  · exact mem_readyReplies.mp (List.mem_of_mem_filter (List.argmax_mem h))

lemma le_replicatedRead_gen {rep r : GenerationRegReadReply} {i : Fin N}
    (hE : ¬ majorityEmpty received) (h : replicatedRead received = some rep)
    (hi : received i = some r) (hr : r.gen.generation ≠ 0) : r.gen ≤ rep.gen := by
  rw [replicatedRead, if_neg hE] at h
  have hmem : r ∈ (readyReplies received).filter (·.gen.generation ≠ 0) :=
    List.mem_filter.mpr ⟨mem_readyReplies.mpr ⟨i, hi⟩, by simpa using hr⟩
  exact Prod.Lex.monotone_fst _ _ (List.le_of_mem_argmax hmem h)

end ReplicatedRead

section ReplicatedWrite

/-- The number of replies `replicatedWrite` waits for: all of them when the read found
the register empty. -/
def writeQuorum (N : ℕ) (initial : Bool) : ℕ := if initial then N else N / 2 + 1

variable (wrepReply : Fin N → Option UniqueGeneration)

def writeReady : Finset (Fin N) := Finset.univ.filter fun i => (wrepReply i).isSome

/-- `maxGen`, the greatest reply that has come. -/
def maxGen : UniqueGeneration := ((List.finRange N).filterMap wrepReply).foldl max .initial

variable {wrepReply}

lemma le_maxGen {i : Fin N} {g : UniqueGeneration} (h : wrepReply i = some g) : g ≤ maxGen wrepReply :=
  List.le_foldl_max_of_mem _ (List.mem_filterMap.mpr ⟨i, List.mem_finRange i, h⟩)

lemma maxGen_generation_le {k : ℕ} (h : ∀ i g, wrepReply i = some g → g.generation ≤ k) :
    (maxGen wrepReply).generation ≤ k := by
  -- the fold ends at its start, the initial generation, or at one of the replies
  rcases List.mem_cons.mp (List.foldl_max_mem UniqueGeneration.initial
      ((List.finRange N).filterMap wrepReply)) with hm | hm
  · rw [maxGen, hm]
    exact Nat.zero_le k
  · obtain ⟨i, -, hi⟩ := List.mem_filterMap.mp hm
    exact h i _ hi

lemma majority_le_writeQuorum (hN : 0 < N) (initial : Bool) : N / 2 + 1 ≤ writeQuorum N initial := by
  cases initial
  · exact le_rfl
  · simp only [writeQuorum, if_true]
    omega

end ReplicatedWrite

/-- The `stage` of `CoordinatedStateImpl`. Stage 3 lies inside one step here, and stage 6
is split by whether `setExclusive` returned or threw `coordinated_state_conflict`. -/
inductive Stage
  | initial
  | firstRead
  | secondRead
  | readDone
  | writing
  | written
  | conflicted
deriving DecidableEq

def Stage.number : Stage → ℕ
  | .initial => 0
  | .firstRead => 1
  | .secondRead => 2
  | .readDone => 4
  | .writing => 5
  | .written => 6
  | .conflicted => 6

/-- The client; `readReply` holds the replies of the round in progress, `wrepReply`
those of the write, and `value` is the value `setExclusive` was called with. -/
structure CoordinatedStateImpl (N : ℕ) where
  stage : Stage
  gen : UniqueGeneration
  conflictGen : ℕ
  doomed : Bool
  initial : Bool
  readReply : Fin N → Option GenerationRegReadReply
  wrepReply : Fin N → Option UniqueGeneration
  value : Value

namespace CoordinatedStateImpl

/-- The constructor. -/
def init : CoordinatedStateImpl N :=
  ⟨.initial, .initial, 0, false, false, fun _ => none, fun _ => none, []⟩

variable (self : CoordinatedStateImpl N)

def isDoomed (rep : GenerationRegReadReply) : Bool := decide (rep.gen > self.gen)

/-- `read` sends its first round. -/
def startRead : CoordinatedStateImpl N :=
  { self with stage := .firstRead, readReply := fun _ => none }

def receiveRead (i : Fin N) (rep : GenerationRegReadReply) : CoordinatedStateImpl N :=
  { self with readReply := Function.update self.readReply i (some rep) }

/-- The end of the first round: a generation above every one the reply shows, with the
uid `randomUniqueID` drew. -/
def finishFirstRead (rep : GenerationRegReadReply) (uid : UID) : CoordinatedStateImpl N :=
  let conflictGen := max self.conflictGen (max rep.gen.generation rep.rgen.generation) + 1
  { self with
    stage := .secondRead
    conflictGen := conflictGen
    gen := ⟨conflictGen, uid⟩
    readReply := fun _ => none }

/-- The end of the second round; `read` returns `rep.value`, or the empty value. -/
def finishSecondRead (rep : GenerationRegReadReply) : CoordinatedStateImpl N :=
  { self with
    stage := .readDone
    conflictGen := max self.conflictGen (max rep.gen.generation rep.rgen.generation)
    doomed := self.doomed || self.isDoomed rep
    initial := rep.gen.generation == 0 }

def setExclusive (v : Value) : CoordinatedStateImpl N :=
  { self with stage := .writing, value := v, wrepReply := fun _ => none }

def receiveWrite (i : Fin N) (g : UniqueGeneration) : CoordinatedStateImpl N :=
  { self with wrepReply := Function.update self.wrepReply i (some g) }

/-- The end of `setExclusive`, once `replicatedWrite` has its quorum. -/
def finishWrite : CoordinatedStateImpl N :=
  if maxGen self.wrepReply = self.gen then { self with stage := .written }
  else { self with stage := .conflicted, conflictGen := max self.conflictGen (maxGen self.wrepReply).generation }

/-- No generation the client holds, or has taken in from a reply, is above `k`. -/
def GenLe (k : ℕ) : Prop :=
  self.gen.generation ≤ k ∧ self.conflictGen ≤ k ∧
    (∀ i rep, self.readReply i = some rep → rep.GenLe k) ∧
    (∀ i g, self.wrepReply i = some g → g.generation ≤ k)

section Fields

variable (self : CoordinatedStateImpl N)

@[simp] lemma startRead_stage : self.startRead.stage = .firstRead := rfl
@[simp] lemma startRead_gen : self.startRead.gen = self.gen := rfl
@[simp] lemma startRead_value : self.startRead.value = self.value := rfl
@[simp] lemma startRead_wrepReply : self.startRead.wrepReply = self.wrepReply := rfl

@[simp] lemma receiveRead_stage (i rep) : (self.receiveRead i rep).stage = self.stage := rfl
@[simp] lemma receiveRead_gen (i rep) : (self.receiveRead i rep).gen = self.gen := rfl
@[simp] lemma receiveRead_value (i rep) : (self.receiveRead i rep).value = self.value := rfl
@[simp] lemma receiveRead_wrepReply (i rep) :
    (self.receiveRead i rep).wrepReply = self.wrepReply := rfl
@[simp] lemma receiveRead_readReply (i rep) :
    (self.receiveRead i rep).readReply = Function.update self.readReply i (some rep) := rfl

@[simp] lemma finishFirstRead_stage (rep uid) : (self.finishFirstRead rep uid).stage = .secondRead :=
  rfl
@[simp] lemma finishFirstRead_value (rep uid) : (self.finishFirstRead rep uid).value = self.value :=
  rfl
@[simp] lemma finishFirstRead_wrepReply (rep uid) :
    (self.finishFirstRead rep uid).wrepReply = self.wrepReply := rfl
@[simp] lemma finishFirstRead_readReply (rep uid) :
    (self.finishFirstRead rep uid).readReply = fun _ => none := rfl

lemma finishFirstRead_generation_pos (rep uid) : 0 < (self.finishFirstRead rep uid).gen.generation :=
  Nat.succ_pos _

@[simp] lemma finishSecondRead_stage (rep) : (self.finishSecondRead rep).stage = .readDone := rfl
@[simp] lemma finishSecondRead_gen (rep) : (self.finishSecondRead rep).gen = self.gen := rfl
@[simp] lemma finishSecondRead_value (rep) : (self.finishSecondRead rep).value = self.value := rfl
@[simp] lemma finishSecondRead_wrepReply (rep) :
    (self.finishSecondRead rep).wrepReply = self.wrepReply := rfl

@[simp] lemma setExclusive_stage (v) : (self.setExclusive v).stage = .writing := rfl
@[simp] lemma setExclusive_gen (v) : (self.setExclusive v).gen = self.gen := rfl
@[simp] lemma setExclusive_value (v) : (self.setExclusive v).value = v := rfl
@[simp] lemma setExclusive_wrepReply (v) : (self.setExclusive v).wrepReply = fun _ => none := rfl

@[simp] lemma receiveWrite_stage (i g) : (self.receiveWrite i g).stage = self.stage := rfl
@[simp] lemma receiveWrite_gen (i g) : (self.receiveWrite i g).gen = self.gen := rfl
@[simp] lemma receiveWrite_value (i g) : (self.receiveWrite i g).value = self.value := rfl
@[simp] lemma receiveWrite_wrepReply (i g) :
    (self.receiveWrite i g).wrepReply = Function.update self.wrepReply i (some g) := rfl

lemma finishWrite_stage :
    self.finishWrite.stage = if maxGen self.wrepReply = self.gen then .written else .conflicted := by
  unfold finishWrite; split_ifs <;> rfl
@[simp] lemma finishWrite_gen : self.finishWrite.gen = self.gen := by
  unfold finishWrite; split_ifs <;> rfl
@[simp] lemma finishWrite_value : self.finishWrite.value = self.value := by
  unfold finishWrite; split_ifs <;> rfl
@[simp] lemma finishWrite_wrepReply : self.finishWrite.wrepReply = self.wrepReply := by
  unfold finishWrite; split_ifs <;> rfl
@[simp] lemma finishWrite_initial : self.finishWrite.initial = self.initial := by
  unfold finishWrite; split_ifs <;> rfl

end Fields

section Generations

variable {self : CoordinatedStateImpl N} {k : ℕ}

lemma GenLe.mono (h : self.GenLe k) {k' : ℕ} (hk : k ≤ k') : self.GenLe k' :=
  ⟨h.1.trans hk, h.2.1.trans hk, fun i rep hr => (h.2.2.1 i rep hr).mono hk,
    fun i g hg => (h.2.2.2 i g hg).trans hk⟩

lemma GenLe.readReply_of_replicatedRead (h : self.GenLe k) {rep : GenerationRegReadReply}
    (hrep : replicatedRead self.readReply = some rep) : rep.GenLe k := by
  obtain ⟨i, hi⟩ := replicatedRead_mem hrep
  exact h.2.2.1 i rep hi

/-- A reply taken in at one coordinator keeps a bound that every held reply meets. -/
lemma forall_update_some {α : Type} {f : Fin N → Option α} {p : α → Prop}
    (hf : ∀ j x, f j = some x → p x) (i : Fin N) {x : α} (hx : p x) :
    ∀ j y, Function.update f i (some x) j = some y → p y :=
  (Function.forall_update_iff f fun _ o => ∀ y, o = some y → p y).mpr
    ⟨fun _ hy => Option.some.inj hy ▸ hx, fun j _ => hf j⟩

lemma genLe_startRead (h : self.GenLe k) : self.startRead.GenLe k :=
  ⟨h.1, h.2.1, by simp [startRead], h.2.2.2⟩

lemma genLe_receiveRead (h : self.GenLe k) (i : Fin N) {rep : GenerationRegReadReply}
    (hrep : rep.GenLe k) : (self.receiveRead i rep).GenLe k :=
  ⟨h.1, h.2.1, forall_update_some h.2.2.1 i hrep, h.2.2.2⟩

/-- The one place a generation rises: the new one is one above every generation the
client and the reply hold. -/
lemma genLe_finishFirstRead (h : self.GenLe k) {rep : GenerationRegReadReply}
    (hrep : rep.GenLe k) (uid : UID) : (self.finishFirstRead rep uid).GenLe (k + 1) := by
  have hgen : max self.conflictGen (max rep.gen.generation rep.rgen.generation) + 1 ≤ k + 1 :=
    Nat.succ_le_succ (max_le h.2.1 (max_le hrep.1 hrep.2))
  exact ⟨hgen, hgen, by simp, fun i g hg => (h.2.2.2 i g hg).trans k.le_succ⟩

lemma genLe_finishSecondRead (h : self.GenLe k) {rep : GenerationRegReadReply}
    (hrep : rep.GenLe k) : (self.finishSecondRead rep).GenLe k :=
  ⟨h.1, max_le h.2.1 (max_le hrep.1 hrep.2), h.2.2.1, h.2.2.2⟩

lemma genLe_setExclusive (h : self.GenLe k) (v : Value) : (self.setExclusive v).GenLe k :=
  ⟨h.1, h.2.1, h.2.2.1, by simp [setExclusive]⟩

lemma genLe_receiveWrite (h : self.GenLe k) (i : Fin N) {g : UniqueGeneration}
    (hg : g.generation ≤ k) : (self.receiveWrite i g).GenLe k :=
  ⟨h.1, h.2.1, h.2.2.1, forall_update_some h.2.2.2 i hg⟩

lemma genLe_finishWrite (h : self.GenLe k) : self.finishWrite.GenLe k := by
  unfold finishWrite
  split_ifs
  · exact h
  · exact ⟨h.1, max_le h.2.1 (maxGen_generation_le h.2.2.2), h.2.2.1, h.2.2.2⟩

end Generations

end CoordinatedStateImpl

inductive Round
  | first
  | second
deriving DecidableEq

/-- The stage a client waits in for the replies of a round. -/
def Round.stage : Round → Stage
  | .first => .firstRead
  | .second => .secondRead

structure ReadRequest (C : Type) where
  client : C
  round : Round
  gen : UniqueGeneration

/-- A reply, with the request whose promise it fulfils. -/
structure ReadReply (N : ℕ) (C : Type) where
  req : ReadRequest C
  replica : Fin N
  rep : GenerationRegReadReply

structure WriteRequest (C : Type) where
  client : C
  gen : UniqueGeneration
  value : Value

structure WriteReply (N : ℕ) (C : Type) where
  req : WriteRequest C
  replica : Fin N
  gen : UniqueGeneration

/-- What clients return: `read`'s value, and `setExclusive` returning normally. -/
inductive Event (C : Type)
  | read (client : C) (gen : UniqueGeneration) (value : Value)
  | setExclusive (client : C) (gen : UniqueGeneration) (value : Value)

/-- The coordinators' registers, the clients, the network, and the log of every write a
register took. -/
structure World (N : ℕ) (C : Type) where
  regs : Fin N → GenerationRegVal
  clients : C → CoordinatedStateImpl N
  readRequests : List (ReadRequest C)
  readReplies : List (ReadReply N C)
  writeRequests : List (WriteRequest C)
  writeReplies : List (WriteReply N C)
  stored : List (UniqueGeneration × Value)
  events : List (Event C)

variable {C : Type} [DecidableEq C]

/-- Coordinators that have stored nothing, and clients that have not started. -/
def World.initial (w : World N C) : Prop :=
  (∀ i, w.regs i = .initial) ∧ (∀ a, w.clients a = .init) ∧ w.readRequests = [] ∧
    w.readReplies = [] ∧ w.writeRequests = [] ∧ w.writeReplies = [] ∧ w.stored = [] ∧
    w.events = []

/-- The uid of a new generation is fresh: no client holds the generation it makes. -/
inductive Step : World N C → World N C → Prop
  | startRead (w : World N C) (a : C) : (w.clients a).stage = .initial →
      Step w
        { w with
          clients := Function.update w.clients a (w.clients a).startRead
          readRequests := w.readRequests ++ [⟨a, .first, .initial⟩] }
  | serveRead (w : World N C) (req : ReadRequest C) (i : Fin N) : req ∈ w.readRequests →
      Step w
        { w with
          regs := Function.update w.regs i ((w.regs i).read req.gen).1
          readReplies := w.readReplies ++ [⟨req, i, ((w.regs i).read req.gen).2⟩] }
  | receiveRead (w : World N C) (m : ReadReply N C) : m ∈ w.readReplies →
      (w.clients m.req.client).stage = m.req.round.stage →
      (w.clients m.req.client).readReply m.replica = none →
      Step w
        { w with
          clients := Function.update w.clients m.req.client
            ((w.clients m.req.client).receiveRead m.replica m.rep) }
  | finishFirstRead (w : World N C) (a : C) (rep : GenerationRegReadReply) (uid : UID) :
      (w.clients a).stage = .firstRead →
      majorityNonempty (w.clients a).readReply ∨ majorityEmpty (w.clients a).readReply →
      replicatedRead (w.clients a).readReply = some rep →
      (∀ b, (w.clients b).gen ≠ ((w.clients a).finishFirstRead rep uid).gen) →
      Step w
        { w with
          clients := Function.update w.clients a ((w.clients a).finishFirstRead rep uid)
          readRequests := w.readRequests ++ [⟨a, .second, ((w.clients a).finishFirstRead rep uid).gen⟩] }
  | finishSecondRead (w : World N C) (a : C) (rep : GenerationRegReadReply) :
      (w.clients a).stage = .secondRead →
      majorityNonempty (w.clients a).readReply ∨ majorityEmpty (w.clients a).readReply →
      replicatedRead (w.clients a).readReply = some rep →
      Step w
        { w with
          clients := Function.update w.clients a ((w.clients a).finishSecondRead rep)
          events := w.events ++ [.read a (w.clients a).gen (rep.value.getD [])] }
  | setExclusive (w : World N C) (a : C) (v : Value) : (w.clients a).stage = .readDone →
      Step w
        { w with
          clients := Function.update w.clients a ((w.clients a).setExclusive v)
          writeRequests := w.writeRequests ++ [⟨a, (w.clients a).gen, v⟩] }
  | serveWrite (w : World N C) (req : WriteRequest C) (i : Fin N) : req ∈ w.writeRequests →
      Step w
        { w with
          regs := Function.update w.regs i ((w.regs i).write req.gen req.value).1
          writeReplies := w.writeReplies ++ [⟨req, i, ((w.regs i).write req.gen req.value).2⟩]
          stored := w.stored ++
            if (w.regs i).writeSucceeds req.gen then [(req.gen, req.value)] else [] }
  | receiveWrite (w : World N C) (m : WriteReply N C) : m ∈ w.writeReplies →
      (w.clients m.req.client).stage = .writing →
      (w.clients m.req.client).wrepReply m.replica = none →
      Step w
        { w with
          clients := Function.update w.clients m.req.client
            ((w.clients m.req.client).receiveWrite m.replica m.gen) }
  | finishWrite (w : World N C) (a : C) : (w.clients a).stage = .writing →
      writeQuorum N (w.clients a).initial ≤ (writeReady (w.clients a).wrepReply).card →
      Step w
        { w with
          clients := Function.update w.clients a (w.clients a).finishWrite
          events := w.events ++
            if maxGen (w.clients a).wrepReply = (w.clients a).gen then
              [.setExclusive a (w.clients a).gen (w.clients a).value]
            else [] }

section Generations

/-! The source's generations are `uint64_t`. Only `finishFirstRead` makes a new one, one
above every generation its client holds; every other step copies generations or takes
the larger of two. So a run of `n` steps holds no generation above `n`, and the model's
unbounded generations are the source's on every run of fewer than `2^64 - 1` steps. -/

open TransitionSystem GenerationRegVal CoordinatedStateImpl

/-- No generation in the world is above `k`: in the registers, the clients, the requests
and replies in flight, and the log of the writes the registers took. -/
structure World.GenLe (k : ℕ) (w : World N C) : Prop where
  regs : ∀ i, (w.regs i).GenLe k
  clients : ∀ a, (w.clients a).GenLe k
  readRequests : ∀ q ∈ w.readRequests, q.gen.generation ≤ k
  readReplies : ∀ m ∈ w.readReplies, m.req.gen.generation ≤ k ∧ m.rep.GenLe k
  writeRequests : ∀ q ∈ w.writeRequests, q.gen.generation ≤ k
  writeReplies : ∀ m ∈ w.writeReplies, m.req.gen.generation ≤ k ∧ m.gen.generation ≤ k
  stored : ∀ p ∈ w.stored, p.1.generation ≤ k

namespace World.GenLe

variable {k : ℕ} {w w' : World N C}

omit [DecidableEq C] in
lemma mono (h : w.GenLe k) {k' : ℕ} (hk : k ≤ k') : w.GenLe k' where
  regs i := (h.regs i).mono hk
  clients a := (h.clients a).mono hk
  readRequests q hq := (h.readRequests q hq).trans hk
  readReplies m hm := ⟨(h.readReplies m hm).1.trans hk, (h.readReplies m hm).2.mono hk⟩
  writeRequests q hq := (h.writeRequests q hq).trans hk
  writeReplies m hm := ⟨(h.writeReplies m hm).1.trans hk, (h.writeReplies m hm).2.trans hk⟩
  stored p hp := (h.stored p hp).trans hk

omit [DecidableEq C] in
lemma of_initial (h : w.initial) : w.GenLe 0 := by
  obtain ⟨hregs, hclients, hrr, hrp, hwr, hwp, hst, -⟩ := h
  refine ⟨fun i => ?_, fun a => ?_, ?_, ?_, ?_, ?_, ?_⟩
  · rw [hregs i]
    exact ⟨le_rfl, le_rfl⟩
  · rw [hclients a]
    simp [CoordinatedStateImpl.GenLe, init, UniqueGeneration.initial]
  all_goals simp [hrr, hrp, hwr, hwp, hst]

omit [DecidableEq C] in
lemma update_regs (h : w.GenLe k) (i : Fin N) {v : GenerationRegVal} (hv : v.GenLe k) :
    ∀ j, (Function.update w.regs i v j).GenLe k :=
  (Function.forall_update_iff w.regs fun _ v => v.GenLe k).mpr ⟨hv, fun j _ => h.regs j⟩

lemma update_clients (h : w.GenLe k) (a : C) {c : CoordinatedStateImpl N} (hc : c.GenLe k) :
    ∀ b, (Function.update w.clients a c b).GenLe k :=
  (Function.forall_update_iff w.clients fun _ c => c.GenLe k).mpr ⟨hc, fun b _ => h.clients b⟩

/-- A step raises no generation by more than one. The bound at `k + 1` is carried over
first, so each case shows only that what the step adds stays within it. -/
lemma step (h : w.GenLe k) (hs : Step w w') : w'.GenLe (k + 1) := by
  have h1 := h.mono k.le_succ
  cases hs with
  | startRead a _ =>
    exact { h1 with
      clients := h1.update_clients a (genLe_startRead (h1.clients a))
      readRequests := List.forall_mem_append.mpr
        ⟨h1.readRequests, by simp [UniqueGeneration.initial]⟩ }
  | serveRead req i hreq =>
    have hv := genLe_read (h1.regs i) (h1.readRequests req hreq)
    exact { h1 with
      regs := h1.update_regs i hv.1
      readReplies := List.forall_mem_append.mpr
        ⟨h1.readReplies, List.forall_mem_singleton.mpr ⟨h1.readRequests req hreq, hv.2⟩⟩ }
  | receiveRead m hm _ _ =>
    exact { h1 with
      clients := h1.update_clients _
        (genLe_receiveRead (h1.clients _) m.replica (h1.readReplies m hm).2) }
  | finishFirstRead a rep uid _ _ hrep _ =>
    -- the one step that takes the bound from `k` to `k + 1`
    have hc := genLe_finishFirstRead (h.clients a)
      ((h.clients a).readReply_of_replicatedRead hrep) uid
    exact { h1 with
      clients := h1.update_clients a hc
      readRequests := List.forall_mem_append.mpr
        ⟨h1.readRequests, List.forall_mem_singleton.mpr hc.1⟩ }
  | finishSecondRead a rep _ _ hrep =>
    exact { h1 with
      clients := h1.update_clients a (genLe_finishSecondRead (h1.clients a)
        ((h1.clients a).readReply_of_replicatedRead hrep)) }
  | setExclusive a v _ =>
    exact { h1 with
      clients := h1.update_clients a (genLe_setExclusive (h1.clients a) v)
      writeRequests := List.forall_mem_append.mpr
        ⟨h1.writeRequests, List.forall_mem_singleton.mpr (h1.clients a).1⟩ }
  | serveWrite req i hreq =>
    have hg := h1.writeRequests req hreq
    have hv := genLe_write req.value (h1.regs i) hg
    refine { h1 with
      regs := h1.update_regs i hv.1
      writeReplies := List.forall_mem_append.mpr
        ⟨h1.writeReplies, List.forall_mem_singleton.mpr ⟨hg, hv.2⟩⟩
      stored := List.forall_mem_append.mpr ⟨h1.stored, ?_⟩ }
    split_ifs <;> simp [hg]
  | receiveWrite m hm _ _ =>
    exact { h1 with
      clients := h1.update_clients _
        (genLe_receiveWrite (h1.clients _) m.replica (h1.writeReplies m hm).2) }
  | finishWrite a _ _ =>
    exact { h1 with clients := h1.update_clients a (genLe_finishWrite (h1.clients a)) }

end World.GenLe

/-- A run of `n` steps holds no generation above `n`. -/
theorem generations_le_steps {n : ℕ} {w : World N C} (hw : ReachableIn World.initial Step n w) :
    w.GenLe n := by
  induction hw with
  | init h₀ => exact World.GenLe.of_initial h₀
  | tail _ hs ih => exact ih.step hs

/-- A client's first round against an empty coordinator: its first request and the reply. -/
theorem generations_le_steps_sample :
    ∃ w : World 1 Bool, ReachableIn World.initial Step 2 w ∧ w.readReplies.length = 1 ∧
      w.GenLe 2 := by
  let start : World 1 Bool := ⟨fun _ => .initial, fun _ => .init, [], [], [], [], [], []⟩
  have h0 : ReachableIn World.initial Step 0 start :=
    .init ⟨fun _ => rfl, fun _ => rfl, rfl, rfl, rfl, rfl, rfl, rfl⟩
  have h1 := h0.tail (Step.startRead _ true rfl)
  have h2 := h1.tail (Step.serveRead _ _ 0 (List.mem_singleton_self _))
  exact ⟨_, h2, rfl, generations_le_steps h2⟩

end Generations

end FoundationDB.Coordination
