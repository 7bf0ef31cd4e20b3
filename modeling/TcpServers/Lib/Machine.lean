import Mathlib.Data.List.Induction

/-!
# Machines: transition systems whose nondeterminism sits in the labels

Everything a machine does not decide by itself (which thread moves, what the
kernel answers, which bytes arrive) is part of the label of a step. Given the
label the step is a function, so a run can be evaluated; quantifying over labels
gives every run.

A claim about "every run in which ..." is a claim about the states reached by
runs whose steps all meet a condition: `ReachableVia`. The same restriction on a
concrete list of labels is `Along`.
-/

namespace Lib

universe u v

/-- A transition system that is deterministic once the label of a step is given. -/
structure Machine (σ : Type u) (α : Type v) where
  /-- The states a run may start in. -/
  init : σ → Prop
  /-- The successor under a label, `none` where the label is not possible. -/
  next : σ → α → Option σ

namespace Machine

variable {σ : Type u} {α : Type v} (M : Machine σ α)

/-- States reached by a run whose every step meets `C`. -/
inductive ReachableVia (C : σ → α → Prop) : σ → Prop where
  | init {s : σ} : M.init s → ReachableVia C s
  | tail {s s' : σ} {a : α} :
      ReachableVia C s → C s a → M.next s a = some s' → ReachableVia C s'

/-- States reached by any run. -/
def Reachable : σ → Prop := M.ReachableVia (fun _ _ => True)

/-- Run a list of labels. -/
def run : σ → List α → Option σ
  | s, [] => some s
  | s, a :: as => (M.next s a).bind (fun s' => run s' as)

/-- Every step the list of labels takes from `s` meets `C`. -/
def Along (C : σ → α → Prop) : σ → List α → Prop
  | _, [] => True
  | s, a :: as =>
      C s a ∧ match M.next s a with
        | some s' => Along C s' as
        | none => True

instance decidableAlong (C : σ → α → Prop) [∀ s a, Decidable (C s a)] :
    ∀ (s : σ) (as : List α), Decidable (M.Along C s as)
  | _, [] => inferInstanceAs (Decidable True)
  | s, a :: as =>
      have : Decidable (match M.next s a with
          | some s' => M.Along C s' as
          | none => True) :=
        match M.next s a with
        | some s' => decidableAlong C s' as
        | none => inferInstanceAs (Decidable True)
      inferInstanceAs (Decidable (C s a ∧ _))

variable {M}

/--
**The invariant rule.** What holds initially, and is preserved by each step that
meets `C` from a reached state, holds in every state reached.
-/
theorem ReachableVia.invariant {C : σ → α → Prop} {I : σ → Prop}
    (h0 : ∀ s, M.init s → I s)
    (hstep : ∀ s a s', M.ReachableVia C s → I s → C s a → M.next s a = some s' → I s')
    {s : σ} (h : M.ReachableVia C s) : I s := by
  induction h with
  | init hi => exact h0 _ hi
  | tail hr hc hs ih => exact hstep _ _ _ hr ih hc hs

/-- A weaker condition lets no fewer states be reached. -/
theorem ReachableVia.imp {C D : σ → α → Prop} (hCD : ∀ s a, C s a → D s a) {s : σ}
    (h : M.ReachableVia C s) : M.ReachableVia D s := by
  induction h with
  | init hi => exact .init hi
  | tail _ hc hs ih => exact .tail ih (hCD _ _ hc) hs

/-! ## Lists of labels -/

theorem run_cons (s : σ) (a : α) (as : List α) :
    M.run s (a :: as) = (M.next s a).bind (fun s' => M.run s' as) := rfl

theorem run_append (s : σ) (as bs : List α) :
    M.run s (as ++ bs) = (M.run s as).bind (fun s' => M.run s' bs) := by
  induction as generalizing s with
  | nil => rfl
  | cons a as ih =>
      rw [List.cons_append, run_cons, run_cons]
      cases M.next s a with
      | none => rfl
      | some s' => exact ih s'

theorem along_cons {C : σ → α → Prop} {s s' : σ} {a : α} {as : List α}
    (hs : M.next s a = some s') : M.Along C s (a :: as) ↔ C s a ∧ M.Along C s' as := by
  rw [Along, hs]

theorem along_snoc {C : σ → α → Prop} {s t : σ} {a : α} {as : List α}
    (hrun : M.run s as = some t) : M.Along C s (as ++ [a]) ↔ M.Along C s as ∧ C t a := by
  induction as generalizing s with
  | nil =>
      cases hrun
      cases ht : M.next t a <;> simp [Along, ht]
  | cons b as ih =>
      rw [run_cons] at hrun
      cases hs : M.next s b with
      | none => rw [hs] at hrun; exact absurd hrun (by simp)
      | some s' =>
          rw [hs] at hrun
          rw [List.cons_append, along_cons hs, along_cons hs, ih hrun, and_assoc]

/-- Two conditions on the steps of a run are one. -/
theorem along_and {C D : σ → α → Prop} {s : σ} {as : List α} :
    M.Along (fun s a => C s a ∧ D s a) s as ↔ M.Along C s as ∧ M.Along D s as := by
  induction as generalizing s with
  | nil => exact ⟨fun _ => ⟨trivial, trivial⟩, fun _ => trivial⟩
  | cons a as ih =>
      simp only [Along]
      cases M.next s a with
      | none => simp only [and_true]
      | some s' =>
          simp only [ih]
          exact and_and_and_comm

/-- A weaker condition is met where a stronger one is. -/
theorem along_imp {C D : σ → α → Prop} (hCD : ∀ s a, C s a → D s a) {s : σ} {as : List α}
    (h : M.Along C s as) : M.Along D s as := by
  induction as generalizing s with
  | nil => trivial
  | cons a as ih =>
      rw [Along] at h ⊢
      refine ⟨hCD s a h.1, ?_⟩
      cases hs : M.next s a with
      | none => trivial
      | some s' =>
          rw [hs] at h
          exact ih h.2

/-- What is asked of no step is met. -/
theorem along_true {s : σ} {as : List α} : M.Along (fun _ _ => True) s as := by
  induction as generalizing s with
  | nil => trivial
  | cons a as ih =>
      rw [Along]
      cases M.next s a with
      | none => exact ⟨trivial, trivial⟩
      | some s' => exact ⟨trivial, ih⟩

/-- What every possible step of a reachable state has, all steps of a run from it have. -/
theorem ReachableVia.along {C D : σ → α → Prop} (h : ∀ s a, M.ReachableVia D s → D s a → C s a)
    {s : σ} {as : List α} (hr : M.ReachableVia D s) (hD : M.Along D s as) : M.Along C s as := by
  induction as generalizing s with
  | nil => trivial
  | cons a as ih =>
      rw [Along] at hD ⊢
      refine ⟨h s a hr hD.1, ?_⟩
      cases hs : M.next s a with
      | none => trivial
      | some s' =>
          rw [hs] at hD
          exact ih (hr.tail hD.1 hs) hD.2

/-- Labels that meet a condition wherever they are taken. -/
theorem along_of_forall {C : σ → α → Prop} {s : σ} {as : List α} (h : ∀ s, ∀ a ∈ as, C s a) :
    M.Along C s as := by
  induction as generalizing s with
  | nil => trivial
  | cons a as ih =>
      rw [Along]
      refine ⟨h s a List.mem_cons_self, ?_⟩
      cases M.next s a with
      | none => trivial
      | some s' => exact ih (fun t b hb => h t b (List.mem_cons_of_mem _ hb))

theorem ReachableVia.of_run {C : σ → α → Prop} {s t : σ} {as : List α}
    (h : M.ReachableVia C s) (hC : M.Along C s as) (hrun : M.run s as = some t) :
    M.ReachableVia C t := by
  induction as generalizing s with
  | nil => cases hrun; exact h
  | cons a as ih =>
      rw [run_cons] at hrun
      cases hs : M.next s a with
      | none => rw [hs] at hrun; exact absurd hrun (by simp)
      | some s' =>
          rw [hs] at hrun
          rw [along_cons hs] at hC
          exact ih (.tail h hC.1 hs) hC.2 hrun

/-- A reachable state is at the end of a run. -/
theorem ReachableVia.exists_run {C : σ → α → Prop} {s : σ} (h : M.ReachableVia C s) :
    ∃ s₀ as, M.init s₀ ∧ M.run s₀ as = some s ∧ M.Along C s₀ as := by
  induction h with
  | init hi => exact ⟨_, [], hi, rfl, trivial⟩
  | @tail s s' a _ hc hs ih =>
      obtain ⟨s₀, as, hi, hrun, hC⟩ := ih
      refine ⟨s₀, as ++ [a], hi, ?_, (along_snoc hrun).mpr ⟨hC, hc⟩⟩
      rw [run_append, hrun, Option.bind_some, run_cons, hs]
      rfl

/--
**The run rule.** A property of a run that holds of the empty run and survives
one more step holds of every run: induction on the run from its end.
-/
theorem run_induction {s : σ} (P : List α → σ → Prop) (h0 : P [] s)
    (hstep : ∀ as t a t', M.run s as = some t → P as t → M.next t a = some t' →
      P (as ++ [a]) t') {as : List α} {t : σ} (h : M.run s as = some t) : P as t := by
  induction as using List.reverseRecOn generalizing t with
  | nil => cases h; exact h0
  | append_singleton as a ih =>
      rw [run_append] at h
      cases hm : M.run s as with
      | none => rw [hm] at h; exact absurd h (by simp)
      | some m =>
          rw [hm, Option.bind_some, run_cons] at h
          cases hn : M.next m a with
          | none => rw [hn] at h; exact absurd h (by simp)
          | some t' =>
              rw [hn] at h
              cases h
              exact hstep as m a _ hm (ih hm) hn

/-! ## What holds throughout a run, and which step spoils it -/

/-- Every state the list of labels passes through from `s` has the property. -/
def Throughout (M : Machine σ α) (P : σ → Prop) (s : σ) (as : List α) : Prop :=
  ∀ bs m, bs <+: as → M.run s bs = some m → P m

theorem throughout_nil {P : σ → Prop} {s : σ} : M.Throughout P s [] ↔ P s := by
  constructor
  · intro h
    exact h [] s (List.prefix_refl _) rfl
  · intro h bs m hbs hm
    rw [List.prefix_nil] at hbs
    subst hbs
    cases hm
    exact h

theorem throughout_snoc {P : σ → Prop} {s t : σ} {a : α} {as : List α}
    (h : M.run s (as ++ [a]) = some t) :
    M.Throughout P s (as ++ [a]) ↔ M.Throughout P s as ∧ P t := by
  constructor
  · intro hall
    refine ⟨fun bs m hbs hm => ?_, hall _ t (List.prefix_refl _) h⟩
    exact hall bs m (hbs.trans (List.prefix_append _ _)) hm
  · intro hall bs m hbs hm
    rcases List.prefix_concat_iff.mp hbs with rfl | hbs
    · rw [h] at hm
      cases hm
      exact hall.2
    · exact hall.1 bs m hbs hm

/-- The last state of a run is one of those it passes through. -/
theorem Throughout.last {P : σ → Prop} {s t : σ} {as : List α} (h : M.Throughout P s as)
    (hrun : M.run s as = some t) : P t :=
  h as t (List.prefix_refl _) hrun

/--
**The kept rule.** What a state with `I` has, and `I` survives every step that
meets `C`, holds throughout a run whose steps all do.
-/
theorem throughout_of_along {P I : σ → Prop} {C : σ → α → Prop} {s t : σ} {as : List α}
    (h0 : I s) (hP : ∀ s, I s → P s)
    (good : ∀ s a s', I s → C s a → M.next s a = some s' → I s')
    (hrun : M.run s as = some t) (hC : M.Along C s as) : M.Throughout P s as ∧ I t := by
  refine run_induction (fun as t => M.Along C s as → M.Throughout P s as ∧ I t)
    (fun _ => ⟨throughout_nil.mpr (hP s h0), h0⟩) ?_ hrun hC
  intro as t a t' hm ih hn hall
  rw [along_snoc hm] at hall
  obtain ⟨hbefore, hi⟩ := ih hall.1
  have hi' : I t' := good t a t' hi hall.2 hn
  have hrun' : M.run s (as ++ [a]) = some t' := by
    rw [run_append, hm, Option.bind_some, run_cons, hn]
    rfl
  exact ⟨(throughout_snoc hrun').mpr ⟨hbefore, hP t' hi'⟩, hi'⟩

/--
**The spoiling rule.** The first step of a run that does not meet `C` leads to `J`,
and from there every step does, as long as `P` holds. So a run throughout which
`P` holds has met `C` at every step, or it ends in `J`. `D` is what is known of
every step.
-/
theorem along_of_throughout {P I J : σ → Prop} {C D : σ → α → Prop} {s t : σ} {as : List α}
    (h0 : I s) (good : ∀ s a s', I s → D s a → C s a → M.next s a = some s' → I s')
    (bad : ∀ s a s', I s → D s a → ¬ C s a → M.next s a = some s' → J s')
    (keep : ∀ s a s', J s → P s → D s a → M.next s a = some s' → J s')
    (hrun : M.run s as = some t) (hD : M.Along D s as) (hP : M.Throughout P s as) :
    (M.Along C s as ∧ I t) ∨ J t := by
  refine run_induction (fun as t => M.Along D s as → M.Throughout P s as →
    (M.Along C s as ∧ I t) ∨ J t) (fun _ _ => Or.inl ⟨trivial, h0⟩) ?_ hrun hD hP
  intro as t a t' hm ih hn hamb hall
  have hrun' : M.run s (as ++ [a]) = some t' := by
    rw [run_append, hm, Option.bind_some, run_cons, hn]
    rfl
  rw [along_snoc hm] at hamb
  have hbefore := ((throughout_snoc hrun').mp hall).1
  rcases ih hamb.1 hbefore with ⟨hC, hi⟩ | hj
  · by_cases hc : C t a
    · exact Or.inl ⟨(along_snoc hm).mpr ⟨hC, hc⟩, good t a t' hi hamb.2 hc hn⟩
    · exact Or.inr (bad t a t' hi hamb.2 hc hn)
  · exact Or.inr (keep t a t' hj (hbefore.last hm) hamb.2 hn)

/--
**The exact condition.** Where the two rules meet: `C` at every step is enough for `P` to
hold throughout, and in a run that ends in a state with `Q`, where `J` and `P` exclude
each other, it is also necessary.
-/
theorem throughout_iff_along {P Q I J : σ → Prop} {C D : σ → α → Prop} {s t : σ} {as : List α}
    (h0 : I s) (hP : ∀ s, I s → P s)
    (good : ∀ s a s', I s → D s a → C s a → M.next s a = some s' → I s')
    (bad : ∀ s a s', I s → D s a → ¬ C s a → M.next s a = some s' → J s')
    (keep : ∀ s a s', J s → P s → D s a → M.next s a = some s' → J s')
    (spoilt : ∀ s, J s → Q s → ¬ P s)
    (hrun : M.run s as = some t) (hD : M.Along D s as) :
    (M.Along C s as → M.Throughout P s as) ∧ (Q t → M.Throughout P s as → M.Along C s as) := by
  constructor
  · intro hC
    exact (throughout_of_along h0 hP (fun s a s' hi hl hn => good s a s' hi hl.1 hl.2 hn) hrun
      (along_and.mpr ⟨hD, hC⟩)).1
  · intro hQ hall
    rcases along_of_throughout h0 good bad keep hrun hD hall with hgood | hbad
    · exact hgood.1
    · exact absurd (hall.last hrun) (spoilt t hbad hQ)

/--
**The rule for one step.** Where `C` of a step says whether `P` holds after it, `P` holds
throughout a run exactly where every step meets `C`. `I` and `D` are what is known of
every state and of every step.
-/
theorem throughout_iff_of_step {P I : σ → Prop} {C D : σ → α → Prop} {s t : σ} {as : List α}
    (h0 : I s) (hP : P s) (hI : ∀ s a s', I s → D s a → M.next s a = some s' → I s')
    (hiff : ∀ s a s', I s → D s a → M.next s a = some s' → (P s' ↔ C s a))
    (hrun : M.run s as = some t) (hD : M.Along D s as) :
    M.Throughout P s as ↔ M.Along C s as := by
  refine (run_induction (fun as t => M.Along D s as →
    I t ∧ (M.Throughout P s as ↔ M.Along C s as)) ?_ ?_ hrun hD).2
  · exact fun _ => ⟨h0, fun _ => trivial, fun _ => throughout_nil.mpr hP⟩
  · intro as t a t' hm ih hn hall
    rw [along_snoc hm] at hall
    obtain ⟨hi, hbefore⟩ := ih hall.1
    have hrun' : M.run s (as ++ [a]) = some t' := by
      rw [run_append, hm, Option.bind_some, run_cons, hn]
      rfl
    refine ⟨hI t a t' hi hall.2 hn, ?_⟩
    rw [throughout_snoc hrun', along_snoc hm, hbefore, hiff t a t' hi hall.2 hn]

end Machine

end Lib
