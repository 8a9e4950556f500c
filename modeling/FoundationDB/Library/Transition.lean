import Mathlib.Logic.Relation
import Mathlib.Order.Basic

/-! Transition systems given by an initial predicate and a step relation: the states
a run reaches, the rule that carries an invariant along every run, and the rule that
carries a quantity no step lowers. -/

namespace TransitionSystem

open Relation

variable {σ : Type*} (init : σ → Prop) (step : σ → σ → Prop)

/-- The states that some run from an initial state reaches. -/
def Reachable (s : σ) : Prop := ∃ s₀, init s₀ ∧ ReflTransGen step s₀ s

/-- The states that a run of `n` steps from an initial state reaches. -/
inductive ReachableIn : ℕ → σ → Prop
  | init {s : σ} : init s → ReachableIn 0 s
  | tail {n : ℕ} {s t : σ} : ReachableIn n s → step s t → ReachableIn (n + 1) t

/-- A predicate that holds initially and that every step from a reachable state
keeps. -/
structure Invariant (I : σ → Prop) : Prop where
  initial : ∀ s, init s → I s
  preserved : ∀ s t, Reachable init step s → I s → step s t → I t

variable {init step}

lemma Reachable.of_init {s : σ} (h : init s) : Reachable init step s := ⟨s, h, .refl⟩

lemma Reachable.tail {s t : σ} (hs : Reachable init step s) (h : step s t) :
    Reachable init step t := by
  obtain ⟨s₀, h₀, hr⟩ := hs
  exact ⟨s₀, h₀, hr.tail h⟩

lemma Reachable.trans {s t : σ} (hs : Reachable init step s) (h : ReflTransGen step s t) :
    Reachable init step t := by
  obtain ⟨s₀, h₀, hr⟩ := hs
  exact ⟨s₀, h₀, hr.trans h⟩

lemma Reachable.induction {P : σ → Prop} (hinit : ∀ s, init s → P s)
    (hstep : ∀ s t, Reachable init step s → P s → step s t → P t) {s : σ}
    (hs : Reachable init step s) : P s := by
  obtain ⟨s₀, h₀, hr⟩ := hs
  induction hr with
  | refl => exact hinit s₀ h₀
  | tail hr' ht ih => exact hstep _ _ ⟨s₀, h₀, hr'⟩ ih ht

lemma Invariant.holds {I : σ → Prop} (hI : Invariant init step I) {s : σ}
    (hs : Reachable init step s) : I s :=
  Reachable.induction hI.initial hI.preserved hs

lemma Invariant.and {I J : σ → Prop} (hI : Invariant init step I)
    (hJ : Invariant init step J) : Invariant init step (fun s => I s ∧ J s) where
  initial s h := ⟨hI.initial s h, hJ.initial s h⟩
  preserved s t hs h ht := ⟨hI.preserved s t hs h.1 ht, hJ.preserved s t hs h.2 ht⟩

lemma ReflTransGen.monotone {α : Type*} [Preorder α] {f : σ → α}
    (hf : ∀ s t, step s t → f s ≤ f t) {s t : σ} (h : ReflTransGen step s t) :
    f s ≤ f t := by
  induction h with
  | refl => exact le_rfl
  | tail _ ht ih => exact ih.trans (hf _ _ ht)

lemma Reachable.monotone {α : Type*} [Preorder α] {f : σ → α}
    (hf : ∀ s t, Reachable init step s → step s t → f s ≤ f t) {s t : σ}
    (hs : Reachable init step s) (h : ReflTransGen step s t) : f s ≤ f t := by
  induction h with
  | refl => exact le_rfl
  | tail hr ht ih => exact ih.trans (hf _ _ (hs.trans hr) ht)

end TransitionSystem
