import FoundationDB.Coordination.CoordinatedState
import FoundationDB.Library.Quorum

/-! Reads after an exclusive write. Once `setExclusive(v)` has returned at generation
`gA`, a read whose second round is at a higher generation and ends later returns `v`,
or a value some register took at a generation above `gA`. Its quorum meets the write's
at a coordinator that took the write before the read's generation reached it: a
coordinator that has been read at a higher generation acknowledges no write at a lower
one. An empty majority cannot form, since such a coordinator's reply is not empty. -/

namespace FoundationDB.Coordination

open TransitionSystem UniqueGeneration GenerationRegVal CoordinatedStateImpl

section Update

variable {α β γ : Type} [DecidableEq α] {f : α → β} {a : α} {b : β}

lemma apply_update_of_eq (p : β → γ) (h : p b = p (f a)) (x : α) :
    p (Function.update f a b x) = p (f x) := by
  rcases eq_or_ne x a with rfl | hx
  · simpa using h
  · rw [Function.update_of_ne hx]

lemma apply_update_le [Preorder γ] (p : β → γ) (h : p (f a) ≤ p b) (x : α) :
    p (f x) ≤ p (Function.update f a b x) := by
  rcases eq_or_ne x a with rfl | hx
  · simpa using h
  · rw [Function.update_of_ne hx]

end Update

variable {N : ℕ} {C : Type}

/-- A write generation and the value beside it, in a register or a reply: nothing at the
initial generation, or a value some register took at that generation. -/
def Recorded (stored : List (UniqueGeneration × Value)) (gen : UniqueGeneration)
    (val : Option Value) : Prop :=
  gen = .initial ∧ val = none ∨ ∃ x, val = some x ∧ (gen, x) ∈ stored

lemma Recorded.mono {s s' : List (UniqueGeneration × Value)} {g : UniqueGeneration}
    {v : Option Value} (h : Recorded s g v) (hs : ∀ p ∈ s, p ∈ s') : Recorded s' g v := by
  rcases h with h | ⟨x, hx, hmem⟩
  · exact .inl h
  · exact .inr ⟨x, hx, hs _ hmem⟩

/-- What the registers hold and the replies they have sent. -/
structure RegInv (w : World N C) : Prop where
  regs : ∀ i, Recorded w.stored (w.regs i).writeGen (w.regs i).val
  replies : ∀ m ∈ w.readReplies, Recorded w.stored m.rep.gen m.rep.value
  readGen : ∀ m ∈ w.readReplies, m.req.gen ≤ (w.regs m.replica).readGen
  writeGen : ∀ m ∈ w.writeReplies, m.gen ≤ m.req.gen → m.req.gen ≤ (w.regs m.replica).writeGen
  /-- A write acknowledged at its own generation shows in every reply the same register
  gives to a read at a higher generation. -/
  seen : ∀ m ∈ w.writeReplies, ∀ r ∈ w.readReplies, m.replica = r.replica →
    m.gen ≤ m.req.gen → m.req.gen < r.req.gen → m.req.gen ≤ r.rep.gen

namespace RegInv

variable {w : World N C}

lemma serveRead (h : RegInv w) (req : ReadRequest C) (i : Fin N) :
    RegInv { w with
      regs := Function.update w.regs i ((w.regs i).read req.gen).1
      readReplies := w.readReplies ++ [⟨req, i, ((w.regs i).read req.gen).2⟩] } := by
  -- the register keeps its value and write generation; its read generation only grows
  have hwrite : ∀ j, (Function.update w.regs i ((w.regs i).read req.gen).1 j).writeGen =
      (w.regs j).writeGen := apply_update_of_eq GenerationRegVal.writeGen (read_writeGen _ _)
  have hval : ∀ j, (Function.update w.regs i ((w.regs i).read req.gen).1 j).val = (w.regs j).val :=
    apply_update_of_eq GenerationRegVal.val (read_val _ _)
  have hread : ∀ j, (w.regs j).readGen ≤
      (Function.update w.regs i ((w.regs i).read req.gen).1 j).readGen :=
    apply_update_le GenerationRegVal.readGen (readGen_le_read _ _)
  constructor
  · intro j
    dsimp only
    rw [hwrite, hval]
    exact h.regs j
  · intro m hm
    rcases List.mem_append.mp hm with hm | hm
    · exact h.replies m hm
    · rw [List.mem_singleton] at hm
      subst hm
      simpa using h.regs i
  · intro m hm
    rcases List.mem_append.mp hm with hm | hm
    · exact (h.readGen m hm).trans (hread _)
    · rw [List.mem_singleton] at hm
      subst hm
      simpa using le_read_readGen (w.regs i) req.gen
  · intro m hm hle
    dsimp only
    rw [hwrite]
    exact h.writeGen m hm hle
  · intro m hm r hr hrep hle hlt
    rcases List.mem_append.mp hr with hr | hr
    · exact h.seen m hm r hr hrep hle hlt
    · rw [List.mem_singleton] at hr
      subst hr
      -- the new reply shows the register's write generation
      dsimp only at hrep hlt ⊢
      rw [read_reply]
      simpa [hrep] using h.writeGen m hm hle

lemma serveWrite (h : RegInv w) (req : WriteRequest C) (i : Fin N) :
    RegInv { w with
      regs := Function.update w.regs i ((w.regs i).write req.gen req.value).1
      writeReplies := w.writeReplies ++ [⟨req, i, ((w.regs i).write req.gen req.value).2⟩]
      stored := w.stored ++
        if (w.regs i).writeSucceeds req.gen then [(req.gen, req.value)] else [] } := by
  have hmono : ∀ p ∈ w.stored, p ∈ w.stored ++
      if (w.regs i).writeSucceeds req.gen then [(req.gen, req.value)] else [] :=
    fun p hp => List.mem_append_left _ hp
  have hread : ∀ j, (Function.update w.regs i ((w.regs i).write req.gen req.value).1 j).readGen =
      (w.regs j).readGen := apply_update_of_eq GenerationRegVal.readGen (write_readGen _ _ _)
  have hwrite : ∀ j, (w.regs j).writeGen ≤
      (Function.update w.regs i ((w.regs i).write req.gen req.value).1 j).writeGen :=
    apply_update_le GenerationRegVal.writeGen (writeGen_le_write _ _ _)
  constructor
  · intro j
    rcases eq_or_ne j i with rfl | hj
    · -- the register written to, which holds the new value if the write took
      by_cases hs : (w.regs j).writeSucceeds req.gen
      · simp [write_of_succeeds _ _ _ hs, hs, Recorded]
      · simp only [Function.update_self, write_of_fails _ _ _ hs]
        exact (h.regs j).mono hmono
    · simp only [Function.update_of_ne hj]
      exact (h.regs j).mono hmono
  · intro m hm
    exact (h.replies m hm).mono hmono
  · intro m hm
    dsimp only
    rw [hread]
    exact h.readGen m hm
  · intro m hm hle
    rcases List.mem_append.mp hm with hm | hm
    · exact (h.writeGen m hm hle).trans (hwrite _)
    · rw [List.mem_singleton] at hm
      subst hm
      simpa using (write_reply_le hle).2
  · intro m hm r hr hrep hle hlt
    rcases List.mem_append.mp hm with hm | hm
    · exact h.seen m hm r hr hrep hle hlt
    · rw [List.mem_singleton] at hm
      subst hm
      -- the read had already raised the register's read generation above the write's
      dsimp only at hrep hle hlt
      have hreached : r.req.gen ≤ (w.regs i).readGen := hrep ▸ h.readGen r hr
      exact absurd (hreached.trans (write_reply_le hle).1) (not_le.mpr hlt)

end RegInv

/-- For `e` before `e'` in the log: when `e` is `setExclusive` returning at `ga` and `e'`
a read at a higher generation, the read returned the value written, or one a register
took at a generation above `ga`. -/
def ReadSeesWrite (stored : List (UniqueGeneration × Value)) : Event C → Event C → Prop
  | .setExclusive _ ga v, .read _ g x => ga < g → x = v ∨ ∃ g', ga < g' ∧ (g', x) ∈ stored
  | _, _ => True

lemma ReadSeesWrite.mono {s s' : List (UniqueGeneration × Value)} (hs : ∀ p ∈ s, p ∈ s')
    {e e' : Event C} (h : ReadSeesWrite s e e') : ReadSeesWrite s' e e' := by
  cases e with
  | read => trivial
  | setExclusive a ga v =>
    cases e' with
    | setExclusive => trivial
    | read b g x =>
      intro hlt
      rcases h hlt with hx | ⟨g', hg', hmem⟩
      · exact .inl hx
      · exact .inr ⟨g', hg', hs _ hmem⟩

lemma readSeesWrite_setExclusive (s : List (UniqueGeneration × Value)) (e : Event C) (a : C)
    (g : UniqueGeneration) (v : Value) : ReadSeesWrite s e (.setExclusive a g v) := by
  cases e <;> trivial

/-- Every read after a `setExclusive` returned sees it, in the order clients returned. -/
def ExclusiveReads (w : World N C) : Prop := w.events.Pairwise (ReadSeesWrite w.stored)

/-- The whole invariant: the registers', where what the network and the log hold came
from, and the clients'. -/
structure Inv (w : World N C) : Prop extends RegInv w where
  stored : ∀ p ∈ w.stored, ∃ r ∈ w.writeRequests, r.gen = p.1 ∧ r.value = p.2
  readReplyReq : ∀ m ∈ w.readReplies, m.req ∈ w.readRequests
  writeReplyReq : ∀ m ∈ w.writeReplies, m.req ∈ w.writeRequests
  writeRequests : ∀ r ∈ w.writeRequests, (w.clients r.client).gen = r.gen ∧
    (w.clients r.client).value = r.value ∧ 5 ≤ (w.clients r.client).stage.number
  readRequests : ∀ q ∈ w.readRequests, q.round = .second →
    (w.clients q.client).gen = q.gen ∧ 2 ≤ (w.clients q.client).stage.number
  genPos : ∀ a, 2 ≤ (w.clients a).stage.number → 0 < (w.clients a).gen.generation
  genUnique : ∀ a b, (w.clients a).gen = (w.clients b).gen → 0 < (w.clients a).gen.generation →
    a = b
  readReply : ∀ a i rep, (w.clients a).stage = .secondRead → (w.clients a).readReply i = some rep →
    ⟨⟨a, .second, (w.clients a).gen⟩, i, rep⟩ ∈ w.readReplies
  wrepReply : ∀ a i g, (w.clients a).wrepReply i = some g → 5 ≤ (w.clients a).stage.number ∧
    ⟨⟨a, (w.clients a).gen, (w.clients a).value⟩, i, g⟩ ∈ w.writeReplies
  written : ∀ a g v, Event.setExclusive a g v ∈ w.events → (w.clients a).stage = .written ∧
    (w.clients a).gen = g ∧ (w.clients a).value = v ∧
    writeQuorum N (w.clients a).initial ≤ (writeReady (w.clients a).wrepReply).card ∧
    maxGen (w.clients a).wrepReply = g
  safe : ExclusiveReads w

section Core

variable {w : World N C}

lemma Inv.written_le_reply (h : Inv w) {a b : C} {ga : UniqueGeneration} {v : Value} {c : Fin N}
    {rep : GenerationRegReadReply} (hev : Event.setExclusive a ga v ∈ w.events)
    (hb : (w.clients b).stage = .secondRead) (hlt : ga < (w.clients b).gen)
    (hc : c ∈ writeReady (w.clients a).wrepReply) (hrep : (w.clients b).readReply c = some rep) :
    ga ≤ rep.gen := by
  obtain ⟨-, hgen, -, -, hmax⟩ := h.written a ga v hev
  obtain ⟨g, hg⟩ := Option.isSome_iff_exists.mp (Finset.mem_filter.mp hc).2
  obtain ⟨-, hmem⟩ := h.wrepReply a c g hg
  have hle : g ≤ ga := hmax ▸ le_maxGen hg
  rw [hgen] at hmem
  exact h.seen _ hmem _ (h.readReply b c rep hb hrep) rfl hle hlt

lemma Inv.value_of_stored (h : Inv w) {a : C} {ga : UniqueGeneration} {v x : Value}
    (hev : Event.setExclusive a ga v ∈ w.events) (hpos : 0 < ga.generation)
    (hstored : (ga, x) ∈ w.stored) : x = v := by
  obtain ⟨-, hgen, hval, -⟩ := h.written a ga v hev
  obtain ⟨r, hr, hrgen, hrval⟩ := h.stored _ hstored
  obtain ⟨hcgen, hcval, -⟩ := h.writeRequests r hr
  have hsame : r.client = a :=
    h.genUnique _ _ (hcgen.trans (hrgen.trans hgen.symm)) (by rw [hcgen, hrgen]; exact hpos)
  calc x = r.value := hrval.symm
    _ = (w.clients r.client).value := hcval.symm
    _ = (w.clients a).value := by rw [hsame]
    _ = v := hval

lemma Inv.read_sees_write (h : Inv w) {a b : C} {ga : UniqueGeneration} {v : Value}
    {rep : GenerationRegReadReply} (hev : Event.setExclusive a ga v ∈ w.events)
    (hb : (w.clients b).stage = .secondRead)
    (hq : majorityNonempty (w.clients b).readReply ∨ majorityEmpty (w.clients b).readReply)
    (hrep : replicatedRead (w.clients b).readReply = some rep) (hlt : ga < (w.clients b).gen) :
    rep.value.getD [] = v ∨ ∃ g', ga < g' ∧ (g', rep.value.getD []) ∈ w.stored := by
  obtain ⟨hwritten, hgen, -, hquorum, -⟩ := h.written a ga v hev
  have hpos : 0 < ga.generation := hgen ▸ h.genPos a (by rw [hwritten]; decide)
  obtain ⟨i, hi⟩ := replicatedRead_mem hrep
  have hwq : N / 2 + 1 ≤ (writeReady (w.clients a).wrepReply).card :=
    (majority_le_writeQuorum i.pos _).trans hquorum
  by_cases hE : majorityEmpty (w.clients b).readReply
  · -- an empty majority meets the write's quorum at a coordinator whose reply shows the write
    exfalso
    have hcard : Fintype.card (Fin N) < (writeReady (w.clients a).wrepReply).card +
        (emptyReplies (w.clients b).readReply).card := by
      have := Quorum.majority_add_half N
      rw [Fintype.card_fin]
      unfold majorityEmpty at hE
      omega
    obtain ⟨c, hc⟩ := Quorum.inter_nonempty_of_lt_card_add hcard
    obtain ⟨hcw, hce⟩ := Finset.mem_inter.mp hc
    obtain ⟨r, hr, hr0⟩ := mem_emptyReplies.mp hce
    have := generation_le_of_le (h.written_le_reply hev hb hlt hcw hr)
    omega
  · have hne : majorityNonempty (w.clients b).readReply := hq.resolve_right hE
    have hcard : Fintype.card (Fin N) < (writeReady (w.clients a).wrepReply).card +
        (nonemptyReplies (w.clients b).readReply).card := by
      have := Quorum.majority_add_majority N
      rw [Fintype.card_fin]
      unfold majorityNonempty at hne
      omega
    obtain ⟨c, hc⟩ := Quorum.inter_nonempty_of_lt_card_add hcard
    obtain ⟨hcw, hcn⟩ := Finset.mem_inter.mp hc
    obtain ⟨r, hr, hr0⟩ := mem_nonemptyReplies.mp hcn
    have hge : ga ≤ rep.gen :=
      (h.written_le_reply hev hb hlt hcw hr).trans (le_replicatedRead_gen hE hrep hr hr0)
    -- the reply returned carries a value some register took at its generation
    rcases h.replies _ (h.readReply b i rep hb hi) with ⟨hinit, -⟩ | ⟨x, hx, hstored⟩
    · exact absurd hinit (ne_initial_of_le hpos hge)
    · rw [hx, Option.getD_some]
      rcases hge.lt_or_eq with hgt | heq
      · exact .inr ⟨rep.gen, hgt, hstored⟩
      · rw [← heq] at hstored
        exact .inl (h.value_of_stored hev hpos hstored)

end Core

namespace Inv

variable {w : World N C}

/-! The client facts of the invariant after one client `a` moves to `c'`: each lemma asks
only what `c'` must satisfy. -/

lemma ne_of_written (h : Inv w) {a b : C} {g : UniqueGeneration} {v : Value}
    (hev : Event.setExclusive b g v ∈ w.events) (ha : (w.clients a).stage ≠ .written) : b ≠ a := by
  rintro rfl
  exact ha (h.written b g v hev).1

lemma wrepReply_eq_none (h : Inv w) {a : C} (ha : (w.clients a).stage.number < 5) (i : Fin N) :
    (w.clients a).wrepReply i = none := by
  by_contra hne
  obtain ⟨g, hg⟩ := Option.ne_none_iff_exists'.mp hne
  exact absurd (h.wrepReply a i g hg).1 (not_le.mpr ha)

section Update

variable [DecidableEq C] {a : C} {c' : CoordinatedStateImpl N}

lemma writeRequests_update (h : Inv w)
    (ha : 5 ≤ (w.clients a).stage.number →
      c'.gen = (w.clients a).gen ∧ c'.value = (w.clients a).value ∧ 5 ≤ c'.stage.number) :
    ∀ r ∈ w.writeRequests, (Function.update w.clients a c' r.client).gen = r.gen ∧
      (Function.update w.clients a c' r.client).value = r.value ∧
      5 ≤ (Function.update w.clients a c' r.client).stage.number := by
  intro r hr
  obtain ⟨hgen, hval, hnum⟩ := h.writeRequests r hr
  rcases eq_or_ne r.client a with hra | hne
  · rw [hra, Function.update_self]
    rw [hra] at hgen hval hnum
    obtain ⟨hgen', hval', hnum'⟩ := ha hnum
    exact ⟨hgen'.trans hgen, hval'.trans hval, hnum'⟩
  · rw [Function.update_of_ne hne]
    exact ⟨hgen, hval, hnum⟩

lemma readRequests_update (h : Inv w)
    (ha : 2 ≤ (w.clients a).stage.number → c'.gen = (w.clients a).gen ∧ 2 ≤ c'.stage.number) :
    ∀ q ∈ w.readRequests, q.round = .second →
      (Function.update w.clients a c' q.client).gen = q.gen ∧
      2 ≤ (Function.update w.clients a c' q.client).stage.number := by
  intro q hq hround
  obtain ⟨hgen, hnum⟩ := h.readRequests q hq hround
  rcases eq_or_ne q.client a with hqa | hne
  · rw [hqa, Function.update_self]
    rw [hqa] at hgen hnum
    obtain ⟨hgen', hnum'⟩ := ha hnum
    exact ⟨hgen'.trans hgen, hnum'⟩
  · rw [Function.update_of_ne hne]
    exact ⟨hgen, hnum⟩

lemma genPos_update (h : Inv w) (ha : 2 ≤ c'.stage.number → 0 < c'.gen.generation) :
    ∀ b, 2 ≤ (Function.update w.clients a c' b).stage.number →
      0 < (Function.update w.clients a c' b).gen.generation := by
  intro b hb
  rcases eq_or_ne b a with rfl | hne
  · rw [Function.update_self] at hb ⊢
    exact ha hb
  · rw [Function.update_of_ne hne] at hb ⊢
    exact h.genPos b hb

lemma genUnique_update (h : Inv w) (hgen : c'.gen = (w.clients a).gen) :
    ∀ b b', (Function.update w.clients a c' b).gen = (Function.update w.clients a c' b').gen →
      0 < (Function.update w.clients a c' b).gen.generation → b = b' := by
  have hupd : ∀ b, (Function.update w.clients a c' b).gen = (w.clients b).gen :=
    apply_update_of_eq CoordinatedStateImpl.gen hgen
  intro b b' hg hpos
  rw [hupd, hupd] at hg
  rw [hupd] at hpos
  exact h.genUnique b b' hg hpos

lemma readReply_update (h : Inv w)
    (ha : ∀ i rep, c'.stage = .secondRead → c'.readReply i = some rep →
      ⟨⟨a, .second, c'.gen⟩, i, rep⟩ ∈ w.readReplies) :
    ∀ b i rep, (Function.update w.clients a c' b).stage = .secondRead →
      (Function.update w.clients a c' b).readReply i = some rep →
      ⟨⟨b, .second, (Function.update w.clients a c' b).gen⟩, i, rep⟩ ∈ w.readReplies := by
  intro b i rep hb hrep
  rcases eq_or_ne b a with rfl | hne
  · rw [Function.update_self] at hb hrep ⊢
    exact ha i rep hb hrep
  · rw [Function.update_of_ne hne] at hb hrep ⊢
    exact h.readReply b i rep hb hrep

lemma wrepReply_update (h : Inv w)
    (ha : ∀ i g, c'.wrepReply i = some g →
      5 ≤ c'.stage.number ∧ ⟨⟨a, c'.gen, c'.value⟩, i, g⟩ ∈ w.writeReplies) :
    ∀ b i g, (Function.update w.clients a c' b).wrepReply i = some g →
      5 ≤ (Function.update w.clients a c' b).stage.number ∧
      ⟨⟨b, (Function.update w.clients a c' b).gen, (Function.update w.clients a c' b).value⟩, i, g⟩ ∈
        w.writeReplies := by
  intro b i g hg
  rcases eq_or_ne b a with rfl | hne
  · rw [Function.update_self] at hg ⊢
    exact ha i g hg
  · rw [Function.update_of_ne hne] at hg ⊢
    exact h.wrepReply b i g hg

lemma written_update (h : Inv w) (ha : (w.clients a).stage ≠ .written) :
    ∀ b g v, Event.setExclusive b g v ∈ w.events →
      (Function.update w.clients a c' b).stage = .written ∧
      (Function.update w.clients a c' b).gen = g ∧ (Function.update w.clients a c' b).value = v ∧
      writeQuorum N (Function.update w.clients a c' b).initial ≤
        (writeReady (Function.update w.clients a c' b).wrepReply).card ∧
      maxGen (Function.update w.clients a c' b).wrepReply = g := by
  intro b g v hev
  rw [Function.update_of_ne (h.ne_of_written hev ha)]
  exact h.written b g v hev

end Update

lemma serveRead (h : Inv w) {req : ReadRequest C} (hreq : req ∈ w.readRequests) (i : Fin N) :
    Inv { w with
      regs := Function.update w.regs i ((w.regs i).read req.gen).1
      readReplies := w.readReplies ++ [⟨req, i, ((w.regs i).read req.gen).2⟩] } where
  toRegInv := h.toRegInv.serveRead req i
  stored := h.stored
  readReplyReq m hm := by
    rcases List.mem_append.mp hm with hm | hm
    · exact h.readReplyReq m hm
    · rw [List.mem_singleton] at hm
      subst hm
      exact hreq
  writeReplyReq := h.writeReplyReq
  writeRequests := h.writeRequests
  readRequests := h.readRequests
  genPos := h.genPos
  genUnique := h.genUnique
  readReply a i rep hs hrep := List.mem_append_left _ (h.readReply a i rep hs hrep)
  wrepReply := h.wrepReply
  written := h.written
  safe := h.safe

lemma serveWrite (h : Inv w) {req : WriteRequest C} (hreq : req ∈ w.writeRequests) (i : Fin N) :
    Inv { w with
      regs := Function.update w.regs i ((w.regs i).write req.gen req.value).1
      writeReplies := w.writeReplies ++ [⟨req, i, ((w.regs i).write req.gen req.value).2⟩]
      stored := w.stored ++
        if (w.regs i).writeSucceeds req.gen then [(req.gen, req.value)] else [] } where
  toRegInv := h.toRegInv.serveWrite req i
  stored p hp := by
    rcases List.mem_append.mp hp with hp | hp
    · exact h.stored p hp
    · -- the write the register just took
      split_ifs at hp
      · rw [List.mem_singleton] at hp
        exact ⟨req, hreq, by rw [hp], by rw [hp]⟩
      · cases hp
  readReplyReq := h.readReplyReq
  writeReplyReq m hm := by
    rcases List.mem_append.mp hm with hm | hm
    · exact h.writeReplyReq m hm
    · rw [List.mem_singleton] at hm
      subst hm
      exact hreq
  writeRequests := h.writeRequests
  readRequests := h.readRequests
  genPos := h.genPos
  genUnique := h.genUnique
  readReply := h.readReply
  wrepReply a i g hg := by
    obtain ⟨hnum, hmem⟩ := h.wrepReply a i g hg
    exact ⟨hnum, List.mem_append_left _ hmem⟩
  written := h.written
  safe := h.safe.imp (ReadSeesWrite.mono fun _ hp => List.mem_append_left _ hp)

lemma receiveRead_second (h : Inv w) {m : ReadReply N C} (hm : m ∈ w.readReplies)
    (hs : (w.clients m.req.client).stage = m.req.round.stage)
    (hb : (w.clients m.req.client).stage = .secondRead) :
    ⟨⟨m.req.client, .second, (w.clients m.req.client).gen⟩, m.replica, m.rep⟩ ∈ w.readReplies := by
  have hround : m.req.round = .second := by
    rw [hs] at hb
    cases hr : m.req.round <;> simp_all [Round.stage]
  obtain ⟨hgen, -⟩ := h.readRequests m.req (h.readReplyReq m hm) hround
  rw [hgen, ← hround]
  exact hm

lemma receiveWrite_mem (h : Inv w) {m : WriteReply N C} (hm : m ∈ w.writeReplies) :
    ⟨⟨m.req.client, (w.clients m.req.client).gen, (w.clients m.req.client).value⟩, m.replica, m.gen⟩ ∈
      w.writeReplies := by
  obtain ⟨hgen, hval, -⟩ := h.writeRequests m.req (h.writeReplyReq m hm)
  rw [hgen, hval]
  exact hm

variable [DecidableEq C]

lemma startRead (h : Inv w) {a : C} (hs : (w.clients a).stage = .initial) :
    Inv { w with
      clients := Function.update w.clients a (w.clients a).startRead
      readRequests := w.readRequests ++ [⟨a, .first, .initial⟩] } where
  toRegInv := ⟨h.regs, h.replies, h.readGen, h.writeGen, h.seen⟩
  stored := h.stored
  readReplyReq m hm := List.mem_append_left _ (h.readReplyReq m hm)
  writeReplyReq := h.writeReplyReq
  writeRequests := h.writeRequests_update (by simp [hs, Stage.number])
  readRequests q hq hround := by
    rcases List.mem_append.mp hq with hq | hq
    · exact h.readRequests_update (by simp [hs, Stage.number]) q hq hround
    · rw [List.mem_singleton] at hq
      subst hq
      cases hround
  genPos := h.genPos_update (by simp [Stage.number])
  genUnique := h.genUnique_update rfl
  readReply := h.readReply_update (by simp)
  wrepReply := h.wrepReply_update (by simp [h.wrepReply_eq_none (a := a) (by simp [hs, Stage.number])])
  written := h.written_update (by simp [hs])
  safe := h.safe

lemma receiveRead (h : Inv w) {m : ReadReply N C} (hm : m ∈ w.readReplies)
    (hs : (w.clients m.req.client).stage = m.req.round.stage) :
    Inv { w with
      clients := Function.update w.clients m.req.client
        ((w.clients m.req.client).receiveRead m.replica m.rep) } where
  toRegInv := ⟨h.regs, h.replies, h.readGen, h.writeGen, h.seen⟩
  stored := h.stored
  readReplyReq := h.readReplyReq
  writeReplyReq := h.writeReplyReq
  writeRequests := h.writeRequests_update (fun h5 => ⟨rfl, rfl, h5⟩)
  readRequests := h.readRequests_update (fun h2 => ⟨rfl, h2⟩)
  genPos := h.genPos_update (h.genPos _)
  genUnique := h.genUnique_update rfl
  readReply := h.readReply_update (by
    intro i rep hb hrep
    simp only [receiveRead_stage, receiveRead_readReply, receiveRead_gen] at hb hrep ⊢
    rcases eq_or_ne i m.replica with rfl | hi
    · rw [Function.update_self, Option.some.injEq] at hrep
      subst hrep
      exact h.receiveRead_second hm hs hb
    · rw [Function.update_of_ne hi] at hrep
      exact h.readReply _ i rep hb hrep)
  wrepReply := h.wrepReply_update (h.wrepReply _)
  written := h.written_update (by rw [hs]; cases m.req.round <;> simp [Round.stage])
  safe := h.safe

lemma finishFirstRead (h : Inv w) {a : C} {rep : GenerationRegReadReply} {uid : UID}
    (hs : (w.clients a).stage = .firstRead)
    (hfresh : ∀ b, (w.clients b).gen ≠ ((w.clients a).finishFirstRead rep uid).gen) :
    Inv { w with
      clients := Function.update w.clients a ((w.clients a).finishFirstRead rep uid)
      readRequests := w.readRequests ++
        [⟨a, .second, ((w.clients a).finishFirstRead rep uid).gen⟩] } where
  toRegInv := ⟨h.regs, h.replies, h.readGen, h.writeGen, h.seen⟩
  stored := h.stored
  readReplyReq m hm := List.mem_append_left _ (h.readReplyReq m hm)
  writeReplyReq := h.writeReplyReq
  -- nothing of `a` is in the network yet
  writeRequests := h.writeRequests_update (by simp [hs, Stage.number])
  readRequests q hq hround := by
    rcases List.mem_append.mp hq with hq | hq
    · exact h.readRequests_update (by simp [hs, Stage.number]) q hq hround
    · rw [List.mem_singleton] at hq
      subst hq
      simp [Stage.number]
  genPos := h.genPos_update fun _ => finishFirstRead_generation_pos _ rep uid
  genUnique b b' hgen hpos := by
    -- the new generation is fresh
    dsimp only at hgen hpos
    rcases eq_or_ne b a with rfl | hb <;> rcases eq_or_ne b' b with rfl | hb'
    · rfl
    · rw [Function.update_self, Function.update_of_ne hb'] at hgen
      exact absurd hgen.symm (hfresh b')
    · rfl
    · rw [Function.update_of_ne hb] at hgen hpos
      rcases eq_or_ne b' a with rfl | hb'a
      · rw [Function.update_self] at hgen
        exact absurd hgen (hfresh b)
      · rw [Function.update_of_ne hb'a] at hgen
        exact h.genUnique b b' hgen hpos
  -- the round-two replies start afresh
  readReply := h.readReply_update (by simp)
  wrepReply := h.wrepReply_update (by simp [h.wrepReply_eq_none (a := a) (by simp [hs, Stage.number])])
  written := h.written_update (by simp [hs])
  safe := h.safe

lemma finishSecondRead (h : Inv w) {a : C} {rep : GenerationRegReadReply}
    (hs : (w.clients a).stage = .secondRead)
    (hq : majorityNonempty (w.clients a).readReply ∨ majorityEmpty (w.clients a).readReply)
    (hrep : replicatedRead (w.clients a).readReply = some rep) :
    Inv { w with
      clients := Function.update w.clients a ((w.clients a).finishSecondRead rep)
      events := w.events ++ [.read a (w.clients a).gen (rep.value.getD [])] } where
  toRegInv := ⟨h.regs, h.replies, h.readGen, h.writeGen, h.seen⟩
  stored := h.stored
  readReplyReq := h.readReplyReq
  writeReplyReq := h.writeReplyReq
  writeRequests := h.writeRequests_update (by simp [hs, Stage.number])
  readRequests := h.readRequests_update (by simp [hs, Stage.number])
  genPos := h.genPos_update fun _ => h.genPos a (by simp [hs, Stage.number])
  genUnique := h.genUnique_update rfl
  readReply := h.readReply_update (by simp)
  wrepReply := h.wrepReply_update (by simp [h.wrepReply_eq_none (a := a) (by simp [hs, Stage.number])])
  written b g v hev := by
    -- a read is not a write's return
    have hev' : Event.setExclusive b g v ∈ w.events := by simpa using hev
    exact h.written_update (by simp [hs]) b g v hev'
  safe := by
    -- the new read sees every write that returned before it
    refine List.pairwise_append.mpr ⟨h.safe, List.pairwise_singleton _ _, ?_⟩
    intro e he e' he'
    rw [List.mem_singleton] at he'
    subst he'
    cases e with
    | read => trivial
    | setExclusive b ga v => exact fun hlt => h.read_sees_write he hs hq hrep hlt

lemma setExclusive (h : Inv w) {a : C} (hs : (w.clients a).stage = .readDone) (v : Value) :
    Inv { w with
      clients := Function.update w.clients a ((w.clients a).setExclusive v)
      writeRequests := w.writeRequests ++ [⟨a, (w.clients a).gen, v⟩] } where
  toRegInv := ⟨h.regs, h.replies, h.readGen, h.writeGen, h.seen⟩
  stored p hp := by
    obtain ⟨r, hr, hgen, hval⟩ := h.stored p hp
    exact ⟨r, List.mem_append_left _ hr, hgen, hval⟩
  readReplyReq := h.readReplyReq
  writeReplyReq m hm := List.mem_append_left _ (h.writeReplyReq m hm)
  writeRequests r hr := by
    rcases List.mem_append.mp hr with hr | hr
    · exact h.writeRequests_update (by simp [hs, Stage.number]) r hr
    · rw [List.mem_singleton] at hr
      subst hr
      simp [Stage.number]
  readRequests := h.readRequests_update (by simp [Stage.number])
  genPos := h.genPos_update fun _ => h.genPos a (by simp [hs, Stage.number])
  genUnique := h.genUnique_update rfl
  readReply := h.readReply_update (by simp)
  wrepReply := h.wrepReply_update (by simp)
  written := h.written_update (by simp [hs])
  safe := h.safe

lemma receiveWrite (h : Inv w) {m : WriteReply N C} (hm : m ∈ w.writeReplies)
    (hs : (w.clients m.req.client).stage = .writing) :
    Inv { w with
      clients := Function.update w.clients m.req.client
        ((w.clients m.req.client).receiveWrite m.replica m.gen) } where
  toRegInv := ⟨h.regs, h.replies, h.readGen, h.writeGen, h.seen⟩
  stored := h.stored
  readReplyReq := h.readReplyReq
  writeReplyReq := h.writeReplyReq
  writeRequests := h.writeRequests_update (fun h5 => ⟨rfl, rfl, h5⟩)
  readRequests := h.readRequests_update (fun h2 => ⟨rfl, h2⟩)
  genPos := h.genPos_update (h.genPos _)
  genUnique := h.genUnique_update rfl
  readReply := h.readReply_update (by simp [hs])
  wrepReply := h.wrepReply_update (by
    intro i g hg
    simp only [receiveWrite_wrepReply, receiveWrite_stage, receiveWrite_gen,
      receiveWrite_value] at hg ⊢
    refine ⟨by simp [hs, Stage.number], ?_⟩
    rcases eq_or_ne i m.replica with rfl | hi
    · rw [Function.update_self, Option.some.injEq] at hg
      subst hg
      exact h.receiveWrite_mem hm
    · rw [Function.update_of_ne hi] at hg
      exact (h.wrepReply _ i g hg).2)
  written := h.written_update (by simp [hs])
  safe := h.safe

lemma finishWrite (h : Inv w) {a : C} (hs : (w.clients a).stage = .writing)
    (hq : writeQuorum N (w.clients a).initial ≤ (writeReady (w.clients a).wrepReply).card) :
    Inv { w with
      clients := Function.update w.clients a (w.clients a).finishWrite
      events := w.events ++
        if maxGen (w.clients a).wrepReply = (w.clients a).gen then
          [.setExclusive a (w.clients a).gen (w.clients a).value]
        else [] } where
  toRegInv := ⟨h.regs, h.replies, h.readGen, h.writeGen, h.seen⟩
  stored := h.stored
  readReplyReq := h.readReplyReq
  writeReplyReq := h.writeReplyReq
  writeRequests := h.writeRequests_update fun h5 => ⟨by simp, by simp, by
    rw [finishWrite_stage]; split_ifs <;> simp [Stage.number]⟩
  readRequests := h.readRequests_update fun h2 => ⟨by simp, by
    rw [finishWrite_stage]; split_ifs <;> simp [Stage.number]⟩
  genPos := h.genPos_update fun _ => by simpa using h.genPos a (by simp [hs, Stage.number])
  genUnique := h.genUnique_update (by simp)
  readReply := h.readReply_update (by rw [finishWrite_stage]; split_ifs <;> simp)
  wrepReply := h.wrepReply_update (by
    intro i g hg
    rw [finishWrite_wrepReply] at hg
    obtain ⟨-, hmem⟩ := h.wrepReply a i g hg
    refine ⟨?_, by simpa using hmem⟩
    rw [finishWrite_stage]; split_ifs <;> simp [Stage.number])
  written b g v hev := by
    rcases List.mem_append.mp hev with hev | hev
    · exact h.written_update (by simp [hs]) b g v hev
    · -- the write that returned just now
      split_ifs at hev with hmax
      · simp only [List.mem_singleton, Event.setExclusive.injEq] at hev
        obtain ⟨rfl, rfl, rfl⟩ := hev
        simp [finishWrite_stage, hmax, hq]
      · cases hev
  safe := by
    refine List.pairwise_append.mpr ⟨h.safe, ?_, ?_⟩
    · split_ifs
      · exact List.pairwise_singleton _ _
      · exact List.Pairwise.nil
    · intro e _ e' he'
      split_ifs at he'
      · rw [List.mem_singleton] at he'
        subst he'
        exact readSeesWrite_setExclusive _ _ _ _ _
      · cases he'

lemma step {w' : World N C} (h : Inv w) (hs : Step w w') : Inv w' := by
  cases hs with
  | startRead a ha => exact h.startRead ha
  | serveRead req i hreq => exact h.serveRead hreq i
  | receiveRead m hm hst _ => exact h.receiveRead hm hst
  | finishFirstRead a rep uid ha _ _ hfresh => exact h.finishFirstRead ha hfresh
  | finishSecondRead a rep ha hq hrep => exact h.finishSecondRead ha hq hrep
  | setExclusive a v ha => exact h.setExclusive ha v
  | serveWrite req i hreq => exact h.serveWrite hreq i
  | receiveWrite m hm hst _ => exact h.receiveWrite hm hst
  | finishWrite a ha hq => exact h.finishWrite ha hq

end Inv

lemma inv_initial {w : World N C} (h : World.initial w) : Inv w := by
  obtain ⟨hregs, hclients, hrq, hrr, hwq, hwr, hst, hev⟩ := h
  refine
    { regs := fun i => .inl ?_
      replies := by simp [hrr]
      readGen := by simp [hrr]
      writeGen := by simp [hwr]
      seen := by simp [hwr]
      stored := by simp [hst]
      readReplyReq := by simp [hrr]
      writeReplyReq := by simp [hwr]
      writeRequests := by simp [hwq]
      readRequests := by simp [hrq]
      genPos := ?_
      genUnique := ?_
      readReply := ?_
      wrepReply := ?_
      written := by simp [hev]
      safe := by simp [ExclusiveReads, hev] }
  · rw [hregs]
    exact ⟨rfl, rfl⟩
  · intro a ha
    simp [hclients, CoordinatedStateImpl.init, Stage.number] at ha
  · intro a b _ hpos
    simp [hclients, CoordinatedStateImpl.init, UniqueGeneration.initial] at hpos
  · intro a i rep ha
    simp [hclients, CoordinatedStateImpl.init] at ha
  · intro a i g hg
    simp [hclients, CoordinatedStateImpl.init] at hg

variable [DecidableEq C]

lemma inv_reachable {w : World N C} (hw : Reachable World.initial Step w) : Inv w :=
  Reachable.induction (P := Inv) (fun _ h => inv_initial h) (fun _ _ _ h hs => h.step hs) hw

theorem exclusiveReads_reachable {w : World N C} (hw : Reachable World.initial Step w) :
    ExclusiveReads w :=
  (inv_reachable hw).safe

namespace Sample

def start : World 1 Bool := ⟨fun _ => .initial, fun _ => .init, [], [], [], [], [], []⟩

def genA : UniqueGeneration := ⟨1, ⟨1, 0⟩⟩

def genB : UniqueGeneration := ⟨2, ⟨2, 0⟩⟩

end Sample

open Sample in
theorem exclusiveReads_sample :
    ∃ w : World 1 Bool, Reachable World.initial Step w ∧
      w.events = [.read true genA [], .setExclusive true genA [7], .read false genB [7]] ∧
      ExclusiveReads w := by
  have h0 : Reachable World.initial Step start :=
    Reachable.of_init ⟨fun _ => rfl, fun _ => rfl, rfl, rfl, rfl, rfl, rfl, rfl⟩
  -- the writer's two rounds find the register empty
  have h1 := h0.tail (Step.startRead _ true rfl)
  have h2 := h1.tail (Step.serveRead _ _ 0 (List.mem_singleton_self _))
  have h3 := h2.tail (Step.receiveRead _ _ (List.mem_singleton_self _) rfl rfl)
  have h4 := h3.tail (Step.finishFirstRead _ true _ ⟨1, 0⟩ rfl (by decide) rfl (by decide))
  have h5 := h4.tail (Step.serveRead _ _ 0 (List.mem_append_right _ (List.mem_singleton_self _)))
  have h6 := h5.tail (Step.receiveRead _ _ (List.mem_append_right _ (List.mem_singleton_self _)) rfl rfl)
  have h7 := h6.tail (Step.finishSecondRead _ true _ rfl (by decide) rfl)
  -- it writes at its generation and every coordinator acknowledges
  have h8 := h7.tail (Step.setExclusive _ true [7] rfl)
  have h9 := h8.tail (Step.serveWrite _ _ 0 (List.mem_singleton_self _))
  have h10 := h9.tail (Step.receiveWrite _ _ (List.mem_singleton_self _) rfl rfl)
  have h11 := h10.tail (Step.finishWrite _ true rfl (by decide))
  -- the reader's rounds see the write
  have h12 := h11.tail (Step.startRead _ false rfl)
  have h13 := h12.tail (Step.serveRead _ _ 0 (List.mem_append_right _ (List.mem_singleton_self _)))
  have h14 := h13.tail (Step.receiveRead _ _ (List.mem_append_right _ (List.mem_singleton_self _)) rfl rfl)
  have h15 := h14.tail (Step.finishFirstRead _ false _ ⟨2, 0⟩ rfl (by decide) rfl (by decide))
  have h16 := h15.tail (Step.serveRead _ _ 0 (List.mem_append_right _ (List.mem_singleton_self _)))
  have h17 := h16.tail (Step.receiveRead _ _ (List.mem_append_right _ (List.mem_singleton_self _)) rfl rfl)
  have h18 := h17.tail (Step.finishSecondRead _ false _ rfl (by decide) rfl)
  exact ⟨_, h18, rfl, exclusiveReads_reachable h18⟩

end FoundationDB.Coordination
