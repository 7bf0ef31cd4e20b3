import TcpServers.Lib.Observe

/-!
# One machine follows another

The steps of a machine may show labels of a second one. The second follows the first
along a relation between their states if from related states it can take what a step
shows, and the states are related again. Then it can take what a whole run shows.
-/

namespace Lib.Machine

universe u v w x y z

variable {σ : Type u} {α : Type v} {τ : Type w} {β : Type x} {υ : Type y} {γ : Type z}

/-- `A` can take what the steps of `M` show, as far as they meet `C`. -/
structure Follows (A : Machine τ β) (M : Machine σ α) (C : σ → α → Prop) (obs : σ → α → List β)
    (R : σ → τ → Prop) : Prop where
  init : ∀ s, M.init s → ∃ t, A.init t ∧ R s t
  step : ∀ s t a s', M.ReachableVia C s → R s t → C s a → M.next s a = some s' →
    ∃ t', A.run t (obs s a) = some t' ∧ R s' t'

variable {M : Machine σ α} {A : Machine τ β} {B : Machine υ γ} {C : σ → α → Prop}
  {D : τ → β → Prop} {obs : σ → α → List β} {obs' : τ → β → List γ} {R : σ → τ → Prop}
  {S : τ → υ → Prop}

/-- **The rule for runs**, from states that are related. -/
theorem Follows.along (h : Follows A M C obs R) {s s' : σ} {t : τ} {as : List α}
    (hr : M.ReachableVia C s) (hR : R s t) (hrun : M.run s as = some s')
    (hC : M.Along C s as) : ∃ t', A.run t (M.observed obs s as) = some t' ∧ R s' t' := by
  induction as generalizing s t with
  | nil =>
      cases hrun
      exact ⟨t, rfl, hR⟩
  | cons a as ih =>
      rw [run_cons] at hrun
      obtain ⟨m, hn, hrun⟩ := Option.bind_eq_some_iff.mp hrun
      rw [along_cons hn] at hC
      obtain ⟨u, hu, hRm⟩ := h.step s t a m hr hR hC.1 hn
      obtain ⟨t', ht', hR'⟩ := ih (.tail hr hC.1 hn) hRm hrun hC.2
      refine ⟨t', ?_, hR'⟩
      rw [observed_cons hn, run_append, hu, Option.bind_some, ht']

/-- What a run shows is a run of what follows it. -/
theorem Follows.run (h : Follows A M C obs R) {s s' : σ} {as : List α} (hs : M.init s)
    (hrun : M.run s as = some s') (hC : M.Along C s as) :
    ∃ t t', A.init t ∧ A.run t (M.observed obs s as) = some t' ∧ R s' t' := by
  obtain ⟨t, ht, hR⟩ := h.init s hs
  obtain ⟨t', hrun', hR'⟩ := h.along (.init hs) hR hrun hC
  exact ⟨t, t', ht, hrun', hR'⟩

/--
**Following is transitive**, where what a step of `M` shows, taken by `A`, shows in its
turn what `B` takes.
-/
theorem Follows.trans {obs₂ : σ → α → List γ} (h₁ : Follows A M C obs R)
    (h₂ : Follows B A D obs' S)
    (hD : ∀ s t a s', M.ReachableVia C s → R s t → C s a → M.next s a = some s' →
      A.Along D t (obs s a))
    (hobs : ∀ s t a s', M.ReachableVia C s → R s t → C s a → M.next s a = some s' →
      A.observed obs' t (obs s a) = obs₂ s a) :
    Follows B M C obs₂ (fun s u => ∃ t, A.ReachableVia D t ∧ R s t ∧ S t u) where
  init := by
    intro s hs
    obtain ⟨t, ht, hR⟩ := h₁.init s hs
    obtain ⟨u, hu, hS⟩ := h₂.init t ht
    exact ⟨u, hu, t, .init ht, hR, hS⟩
  step := by
    rintro s u a s' hr ⟨t, htr, hR, hS⟩ hc hn
    obtain ⟨t', ht', hR'⟩ := h₁.step s t a s' hr hR hc hn
    have halong := hD s t a s' hr hR hc hn
    obtain ⟨u', hu', hS'⟩ := h₂.along htr hS ht' halong
    rw [hobs s t a s' hr hR hc hn] at hu'
    exact ⟨u', hu', t', .of_run htr halong ht', hR', hS'⟩

end Lib.Machine
