import TcpServers.Lib.Machine

/-!
# What the steps of a run show

A step is observed in the state it is taken in; a run is what its steps show, one
after the other. An invariant may speak of the state and of what was shown so far.
-/

namespace Lib.Machine

universe u v w

variable {σ : Type u} {α : Type v} {β : Type w} {M : Machine σ α}

/-- What the steps of a list of labels show, as far as they are possible. -/
def observed (M : Machine σ α) (obs : σ → α → List β) : σ → List α → List β
  | _, [] => []
  | s, a :: as =>
      obs s a ++ match M.next s a with
        | some s' => observed M obs s' as
        | none => []

variable {obs : σ → α → List β}

theorem observed_cons {s s' : σ} {a : α} {as : List α} (hs : M.next s a = some s') :
    M.observed obs s (a :: as) = obs s a ++ M.observed obs s' as := by
  rw [observed, hs]

/-- One more step shows what it shows. -/
theorem observed_snoc {s t : σ} {a : α} {as : List α} (hrun : M.run s as = some t) :
    M.observed obs s (as ++ [a]) = M.observed obs s as ++ obs t a := by
  induction as generalizing s with
  | nil =>
      cases hrun
      cases ht : M.next t a <;> simp [observed, ht]
  | cons b as ih =>
      rw [run_cons] at hrun
      obtain ⟨s', hs, hrun⟩ := Option.bind_eq_some_iff.mp hrun
      rw [List.cons_append, observed_cons hs, observed_cons hs, ih hrun, List.append_assoc]

theorem observed_singleton (s : σ) (a : α) : M.observed obs s [a] = obs s a := by
  cases hs : M.next s a <;> simp [observed, hs]

/-- Labels that show nothing wherever they are taken. -/
theorem observed_eq_nil {s : σ} {as : List α} (h : ∀ s, ∀ a ∈ as, obs s a = []) :
    M.observed obs s as = [] := by
  induction as generalizing s with
  | nil => rfl
  | cons a as ih =>
      rw [observed, h s a List.mem_cons_self, List.nil_append]
      cases M.next s a with
      | none => rfl
      | some s' => exact ih (fun t b hb => h t b (List.mem_cons_of_mem _ hb))

/-- Everything shown has a property where everything each step shows has it. -/
theorem observed_forall {Q : β → Prop} {s t : σ} {as : List α} (hrun : M.run s as = some t) :
    (∀ b ∈ M.observed obs s as, Q b) ↔ M.Along (fun s a => ∀ b ∈ obs s a, Q b) s as := by
  refine run_induction (fun as _ => (∀ b ∈ M.observed obs s as, Q b) ↔
    M.Along (fun s a => ∀ b ∈ obs s a, Q b) s as) ?_ ?_ hrun
  · exact ⟨fun _ => trivial, fun _ b hb => absurd hb List.not_mem_nil⟩
  · intro as t a t' hm ih _
    rw [observed_snoc hm, along_snoc hm, ← ih]
    exact List.forall_mem_append

/--
**The invariant rule for what is shown.** `I` relates a state to what has been shown
on the way to it, and survives every step that meets `C`.
-/
theorem observed_invariant {I : List β → σ → Prop} {C : σ → α → Prop} {s t : σ} {as : List α}
    (h0 : I [] s)
    (hstep : ∀ shown t a t', I shown t → C t a → M.next t a = some t' → I (shown ++ obs t a) t')
    (hrun : M.run s as = some t) (hC : M.Along C s as) : I (M.observed obs s as) t := by
  refine run_induction (fun as t => M.Along C s as → I (M.observed obs s as) t)
    (fun _ => h0) ?_ hrun hC
  intro as t a t' hm ih hn hall
  rw [along_snoc hm] at hall
  rw [observed_snoc hm]
  exact hstep _ t a t' (ih hall.1) hall.2 hn

end Lib.Machine
