import FoundationDB.Client.CommitTransaction
import Mathlib.Order.Lex
import Mathlib.Data.Prod.Lex

/-! The coordinators' generation register (`localGenerationReg` in
`Coordination.actor.cpp`): a value with the generation that wrote it and the highest
generation that has read it. Generations are `UniqueGeneration`s
(`CoordinationInterface.h`), ordered by generation, then by uid. -/

namespace FoundationDB.Coordination

structure UID where
  first : ℕ
  second : ℕ
deriving DecidableEq

structure UniqueGeneration where
  generation : ℕ
  uid : UID
deriving DecidableEq

namespace UniqueGeneration

/-- `UniqueGeneration()`. -/
def initial : UniqueGeneration := ⟨0, ⟨0, 0⟩⟩

/-- What `operator<` compares, in order. -/
def key (g : UniqueGeneration) : Lex (ℕ × Lex (ℕ × ℕ)) :=
  toLex (g.generation, toLex (g.uid.first, g.uid.second))

lemma key_injective : Function.Injective key := by
  rintro ⟨g, a, b⟩ ⟨g', a', b'⟩ h
  simp only [key, toLex_inj, Prod.mk.injEq] at h
  obtain ⟨rfl, rfl, rfl⟩ := h
  rfl

instance : LinearOrder UniqueGeneration := LinearOrder.lift' key key_injective

lemma lt_iff {g h : UniqueGeneration} :
    g < h ↔ g.generation < h.generation ∨ g.generation = h.generation ∧
      (g.uid.first < h.uid.first ∨ g.uid.first = h.uid.first ∧ g.uid.second < h.uid.second) := by
  change key g < key h ↔ _
  simp only [key, Prod.Lex.toLex_lt_toLex]

lemma generation_le_of_le {g h : UniqueGeneration} (hle : g ≤ h) : g.generation ≤ h.generation := by
  rcases hle.lt_or_eq with hlt | rfl
  · rcases lt_iff.mp hlt with hgen | ⟨hgen, -⟩ <;> omega
  · exact le_rfl

lemma ne_initial_of_le {g h : UniqueGeneration} (hg : 0 < g.generation) (hle : g ≤ h) :
    h ≠ initial := by
  rintro rfl
  have := generation_le_of_le hle
  simp only [initial] at this
  omega

lemma max_generation_le {g h : UniqueGeneration} {k : ℕ} (hg : g.generation ≤ k)
    (hh : h.generation ≤ k) : (max g h).generation ≤ k := by
  rcases max_choice g h with hm | hm <;> rw [hm] <;> assumption

end UniqueGeneration

open UniqueGeneration

structure GenerationRegVal where
  readGen : UniqueGeneration
  writeGen : UniqueGeneration
  val : Option Value

/-- `GenerationRegVal()`, what a coordinator reads when it has stored nothing. -/
def GenerationRegVal.initial : GenerationRegVal := ⟨.initial, .initial, none⟩

structure GenerationRegReadReply where
  value : Option Value
  gen : UniqueGeneration
  rgen : UniqueGeneration

/-- No generation in the reply is above `k`. -/
def GenerationRegReadReply.GenLe (k : ℕ) (rep : GenerationRegReadReply) : Prop :=
  rep.gen.generation ≤ k ∧ rep.rgen.generation ≤ k

lemma GenerationRegReadReply.GenLe.mono {k k' : ℕ} {rep : GenerationRegReadReply}
    (h : rep.GenLe k) (hk : k ≤ k') : rep.GenLe k' :=
  ⟨h.1.trans hk, h.2.trans hk⟩

namespace GenerationRegVal

/-- The `GenerationRegReadRequest` branch of `localGenerationReg`. -/
def read (v : GenerationRegVal) (gen : UniqueGeneration) : GenerationRegVal × GenerationRegReadReply :=
  let v := if v.readGen < gen then { v with readGen := gen } else v
  (v, ⟨v.val, v.writeGen, v.readGen⟩)

/-- The `GenerationRegWriteRequest` branch of `localGenerationReg`. -/
def write (v : GenerationRegVal) (gen : UniqueGeneration) (value : Value) :
    GenerationRegVal × UniqueGeneration :=
  if v.readGen ≤ gen ∧ v.writeGen < gen then ({ v with writeGen := gen, val := some value }, gen)
  else (v, max v.readGen v.writeGen)

/-- The write changes the register exactly when it succeeds. -/
def writeSucceeds (v : GenerationRegVal) (gen : UniqueGeneration) : Prop :=
  v.readGen ≤ gen ∧ v.writeGen < gen

instance (v : GenerationRegVal) (gen : UniqueGeneration) : Decidable (v.writeSucceeds gen) :=
  inferInstanceAs (Decidable (_ ∧ _))

/-- No generation the register holds is above `k`. -/
def GenLe (k : ℕ) (v : GenerationRegVal) : Prop :=
  v.readGen.generation ≤ k ∧ v.writeGen.generation ≤ k

variable (v : GenerationRegVal) (gen : UniqueGeneration)

@[simp] lemma read_writeGen : (v.read gen).1.writeGen = v.writeGen := by
  unfold read; split_ifs <;> rfl

@[simp] lemma read_val : (v.read gen).1.val = v.val := by
  unfold read; split_ifs <;> rfl

@[simp] lemma read_reply : (v.read gen).2 = ⟨v.val, v.writeGen, (v.read gen).1.readGen⟩ := by
  unfold read; split_ifs <;> rfl

lemma read_readGen : (v.read gen).1.readGen = max v.readGen gen := by
  unfold read
  split_ifs with h
  · exact (max_eq_right h.le).symm
  · exact (max_eq_left (not_lt.mp h)).symm

lemma le_read_readGen : gen ≤ (v.read gen).1.readGen := by
  rw [read_readGen]; exact le_max_right _ _

lemma readGen_le_read : v.readGen ≤ (v.read gen).1.readGen := by
  rw [read_readGen]; exact le_max_left _ _

variable (value : Value)

lemma write_of_succeeds (h : v.writeSucceeds gen) :
    v.write gen value = ({ v with writeGen := gen, val := some value }, gen) :=
  if_pos h

lemma write_of_fails (h : ¬ v.writeSucceeds gen) :
    v.write gen value = (v, max v.readGen v.writeGen) :=
  if_neg h

@[simp] lemma write_readGen : (v.write gen value).1.readGen = v.readGen := by
  unfold write; split_ifs <;> rfl

lemma writeGen_le_write : v.writeGen ≤ (v.write gen value).1.writeGen := by
  by_cases h : v.writeSucceeds gen
  · rw [write_of_succeeds v gen value h]; exact h.2.le
  · rw [write_of_fails v gen value h]

lemma write_reply_le {v : GenerationRegVal} {gen : UniqueGeneration} {value : Value}
    (h : (v.write gen value).2 ≤ gen) : v.readGen ≤ gen ∧ gen ≤ (v.write gen value).1.writeGen := by
  by_cases hs : v.writeSucceeds gen
  · rw [write_of_succeeds v gen value hs]
    exact ⟨hs.1, le_rfl⟩
  · rw [write_of_fails v gen value hs] at h ⊢
    have hread : v.readGen ≤ gen := (le_max_left _ _).trans h
    refine ⟨hread, ?_⟩
    -- the write failed with the read generation allowed, so an equal or later one wrote
    simp only [writeSucceeds, hread, true_and, not_lt] at hs
    exact hs

section Generations

variable {k : ℕ} {v : GenerationRegVal} {gen : UniqueGeneration}

lemma GenLe.mono (hv : v.GenLe k) {k' : ℕ} (hk : k ≤ k') : v.GenLe k' :=
  ⟨hv.1.trans hk, hv.2.trans hk⟩

/-- A read at a generation no higher than `k` leaves the register, and sends a reply,
with no generation above `k`. -/
lemma genLe_read (hv : v.GenLe k) (hg : gen.generation ≤ k) :
    (v.read gen).1.GenLe k ∧ (v.read gen).2.GenLe k := by
  have hr : (v.read gen).1.readGen.generation ≤ k := by
    rw [read_readGen]
    exact max_generation_le hv.1 hg
  refine ⟨⟨hr, ?_⟩, ?_⟩
  · simpa using hv.2
  · simpa [GenerationRegReadReply.GenLe] using ⟨hv.2, hr⟩

lemma genLe_write (value : Value) (hv : v.GenLe k) (hg : gen.generation ≤ k) :
    (v.write gen value).1.GenLe k ∧ (v.write gen value).2.generation ≤ k := by
  by_cases hs : v.writeSucceeds gen
  · rw [write_of_succeeds v gen value hs]
    exact ⟨⟨hv.1, hg⟩, hg⟩
  · rw [write_of_fails v gen value hs]
    exact ⟨hv, max_generation_le hv.1 hv.2⟩

end Generations

end GenerationRegVal

end FoundationDB.Coordination
