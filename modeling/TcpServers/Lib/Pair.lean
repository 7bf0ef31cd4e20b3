import TcpServers.Lib.Machine

/-!
# Two runs side by side

A statement about two runs of a machine that take corresponding steps is one about
the runs of two copies of it. What the steps do to a view of the state, as far as they
look at nothing but the view and a blanked label, stays equal in both.
-/

namespace Lib.Machine

universe u v w x

variable {σ : Type u} {α : Type v}

/-- Two copies of a machine, started in one state. -/
def pair (M : Machine σ α) : Machine (σ × σ) (α × α) where
  init p := M.init p.1 ∧ p.2 = p.1
  next p l := (M.next p.1 l.1).bind (fun s => (M.next p.2 l.2).map (fun t => (s, t)))

variable {M : Machine σ α}

theorem pair_next {p p' : σ × σ} {l : α × α} :
    M.pair.next p l = some p' ↔ M.next p.1 l.1 = some p'.1 ∧ M.next p.2 l.2 = some p'.2 := by
  obtain ⟨s', t'⟩ := p'
  simp only [pair, Option.bind_eq_some_iff, Option.map_eq_some_iff, Prod.mk.injEq]
  constructor
  · rintro ⟨s, hs, t, ht, rfl, rfl⟩
    exact ⟨hs, ht⟩
  · rintro ⟨hs, ht⟩
    exact ⟨s', hs, t', ht, rfl, rfl⟩

/-- **A run of the pair is a run of each copy.** -/
theorem pair_run {p p' : σ × σ} {ls : List (α × α)} :
    M.pair.run p ls = some p' ↔
      M.run p.1 (ls.map Prod.fst) = some p'.1 ∧ M.run p.2 (ls.map Prod.snd) = some p'.2 := by
  induction ls generalizing p with
  | nil =>
      simp only [run, List.map_nil, Option.some.injEq]
      exact Prod.ext_iff
  | cons l ls ih =>
      simp only [run_cons, List.map_cons, Option.bind_eq_some_iff]
      constructor
      · rintro ⟨m, hm, hrest⟩
        obtain ⟨h1, h2⟩ := pair_next.mp hm
        obtain ⟨hr1, hr2⟩ := ih.mp hrest
        exact ⟨⟨m.1, h1, hr1⟩, ⟨m.2, h2, hr2⟩⟩
      · rintro ⟨⟨m1, h1, hr1⟩, ⟨m2, h2, hr2⟩⟩
        exact ⟨(m1, m2), pair_next.mpr ⟨h1, h2⟩, ih.mpr ⟨hr1, hr2⟩⟩

/--
**The rule for what both runs have in common.** The steps act on a view of the state,
by the label with something blanked out: where the views and the blanked labels agree,
the views agree after the step.
-/
theorem pair_agree {υ : Type w} {γ : Type x} {view : σ → υ} {blank : α → γ}
    {step : υ → γ → Option υ} (hview : ∀ s a, (M.next s a).map view = step (view s) (blank a))
    {p p' : σ × σ} {l : α × α} (hp : view p.1 = view p.2) (hl : blank l.1 = blank l.2)
    (hn : M.pair.next p l = some p') : view p'.1 = view p'.2 := by
  obtain ⟨h1, h2⟩ := pair_next.mp hn
  have hv1 := hview p.1 l.1
  have hv2 := hview p.2 l.2
  rw [h1, hp, hl] at hv1
  rw [h2] at hv2
  exact Option.some.inj (hv1.trans hv2.symm)

end Lib.Machine
