import Mathlib.Logic.Basic

/-! Simulation of one state machine by another when both apply the same requests and a
request may fail: related states give results that fail with the same error or succeed
in related states, and so a run in which a failed request leaves the state as it was keeps
the states related. -/

namespace Except

variable {ε α β γ δ : Type}

/-- Two results that fail alike, or succeed with related values. -/
def Rel (R : α → β → Prop) : Except ε α → Except ε β → Prop
  | .ok a, .ok b => R a b
  | .error e, .error e' => e = e'
  | _, _ => False

lemma Rel.map_map {R : α → β → Prop} {x : Except ε γ} {f : γ → α} {g : γ → β}
    (h : ∀ c, x = .ok c → R (f c) (g c)) : Rel R (x.map f) (x.map g) := by
  cases x with
  | error e => rfl
  | ok c => exact h c rfl

@[simp] lemma pure_eq_ok (a : α) : (pure a : Except ε α) = .ok a := rfl

@[simp] lemma map_of_ok (f : α → β) (a : α) : (Except.ok a : Except ε α).map f = .ok (f a) := rfl

lemma map_map_eq (x : Except ε α) (f : α → β) (g : β → γ) : (x.map f).map g = x.map (g ∘ f) := by
  cases x <;> rfl

lemma bind_pure_eq_map (x : Except ε α) (f : α → β) : (x >>= fun a => pure (f a)) = x.map f := by
  cases x <;> rfl

/-- The state a request leaves: the new one, or the old one when the request failed. -/
def orKeep (s : α) : Except ε α → α
  | .ok s' => s'
  | .error _ => s

end Except

namespace Simulation

variable {ε σ τ ρ : Type}

/-- Requests applied one after another; one that fails leaves the state as it was. -/
def run (step : σ → ρ → Except ε σ) (s : σ) (rs : List ρ) : σ :=
  rs.foldl (fun s r => Except.orKeep s (step s r)) s

lemma run_rel {R : σ → τ → Prop} {P : ρ → Prop} {f : σ → ρ → Except ε σ}
    {g : τ → ρ → Except ε τ} (hstep : ∀ s t r, R s t → P r → Except.Rel R (f s r) (g t r))
    {s : σ} {t : τ} (h : R s t) {rs : List ρ} (hrs : ∀ r ∈ rs, P r) :
    R (run f s rs) (run g t rs) := by
  induction rs generalizing s t with
  | nil => exact h
  | cons r rs ih =>
    have hr := hstep s t r h (hrs r List.mem_cons_self)
    apply ih _ fun r' hr' => hrs r' (List.mem_cons_of_mem r hr')
    -- one step: both succeed in related states, or both fail and keep their states
    show R (Except.orKeep s (f s r)) (Except.orKeep t (g t r))
    cases hf : f s r with
    | ok s' =>
      cases hg : g t r with
      | ok t' => rw [hf, hg] at hr; exact hr
      | error e' => rw [hf, hg] at hr; cases hr
    | error e =>
      cases hg : g t r with
      | ok t' => rw [hf, hg] at hr; cases hr
      | error e' => exact h

section Refinement

variable {σ τ ρ : Type}

/-- The requests an abstract machine allows, each in the state the ones before it left. -/
def Allowed (allowed : τ → ρ → Prop) (apply : τ → ρ → τ) : τ → List ρ → Prop
  | _, [] => True
  | t, r :: rs => allowed t r ∧ Allowed allowed apply (apply t r) rs

instance decidableAllowed {allowed : τ → ρ → Prop} [h : ∀ t r, Decidable (allowed t r)]
    {apply : τ → ρ → τ} : ∀ t rs, Decidable (Allowed allowed apply t rs)
  | _, [] => isTrue trivial
  | t, r :: rs => @instDecidableAnd _ _ (h t r) (decidableAllowed (apply t r) rs)

lemma foldlM_refines {R : σ → τ → Prop} {allowed : τ → ρ → Prop} {step : σ → ρ → Option σ}
    {apply : τ → ρ → τ}
    (hstep : ∀ s t r, R s t → allowed t r → ∃ s', step s r = some s' ∧ R s' (apply t r)) :
    ∀ (rs : List ρ) {s : σ} {t : τ}, R s t → Allowed allowed apply t rs →
      ∃ s', rs.foldlM step s = some s' ∧ R s' (rs.foldl apply t)
  | [], s, _, h, _ => ⟨s, rfl, h⟩
  | r :: rs, s, t, h, ⟨hr, hrs⟩ => by
    obtain ⟨s', hs', h'⟩ := hstep s t r h hr
    obtain ⟨s'', hs'', h''⟩ := foldlM_refines hstep rs h' hrs
    refine ⟨s'', ?_, h''⟩
    rw [List.foldlM_cons, hs']
    exact hs''

end Refinement

end Simulation
