import Mathlib.Logic.Function.Basic
import TcpServers.Lib.Simulation
import TcpServers.Lib.Table

/-!
# Families of machines

Copies of one machine, started one after the other under keys that are not in use yet,
and stepped independently of each other in any order. A member never notices the others:
what the family did to it is a run of its own. And to follow the family it is enough to
follow each member.
-/

namespace Lib

universe u v w x y z

/-- A step of a family: a member starts, or one takes a step. -/
inductive FamilyAct (κ : Type u) (ρ : Type v) (α : Type w) where
  | spawn (k : κ) (r : ρ)
  | step (k : κ) (a : α)
  deriving DecidableEq, Repr

namespace FamilyAct

variable {κ : Type u} {ρ : Type v} {α : Type w}

/-- The member a step is about. -/
def key : FamilyAct κ ρ α → κ
  | .spawn k _ => k
  | .step k _ => k

variable [DecidableEq κ]

/-- The steps of one member. -/
def of (k : κ) (ls : List (FamilyAct κ ρ α)) : List α :=
  ls.filterMap fun
    | .spawn _ _ => none
    | .step k' a => if k' = k then some a else none

@[simp] theorem of_nil (k : κ) : of k ([] : List (FamilyAct κ ρ α)) = [] := rfl

@[simp] theorem of_append (k : κ) (ls ms : List (FamilyAct κ ρ α)) :
    of k (ls ++ ms) = of k ls ++ of k ms := List.filterMap_append

@[simp] theorem of_spawn (k k' : κ) (r : ρ) :
    of k ([.spawn k' r] : List (FamilyAct κ ρ α)) = [] := rfl

@[simp] theorem of_step_self (k : κ) (a : α) :
    of k ([.step k a] : List (FamilyAct κ ρ α)) = [a] := by
  simp [of]

theorem of_step_ne {k k' : κ} (hk : k' ≠ k) (a : α) :
    of k ([.step k' a] : List (FamilyAct κ ρ α)) = [] := by
  simp [of, hk]

/-- Steps of one member are steps of no other. -/
theorem of_map_step (k k' : κ) (as : List α) :
    of k (as.map (.step k') : List (FamilyAct κ ρ α)) = if k' = k then as else [] := by
  induction as with
  | nil => simp
  | cons a as ih =>
      by_cases hk : k' = k
      · rw [if_pos hk] at ih ⊢
        simp only [of, List.map_cons, List.filterMap_cons, if_pos hk] at ih ⊢
        rw [ih]
      · rw [if_neg hk] at ih ⊢
        simp only [of, List.map_cons, List.filterMap_cons, if_neg hk] at ih ⊢
        exact ih

theorem mem_of {k : κ} {a : α} {ls : List (FamilyAct κ ρ α)} :
    a ∈ of k ls ↔ .step k a ∈ ls := by
  simp only [of, List.mem_filterMap]
  constructor
  · rintro ⟨l, hmem, hl⟩
    cases l with
    | spawn k' r => cases hl
    | step k' b =>
        dsimp only at hl
        split at hl
        · rename_i hk
          cases hl
          exact hk ▸ hmem
        · cases hl
  · intro hmem
    exact ⟨_, hmem, if_pos rfl⟩

end FamilyAct

namespace Machine

variable {σ : Type u} {α : Type v} {κ : Type w} {ρ : Type x} {τ : Type y} {β : Type z}
  [DecidableEq κ]

/-- The family of the members started as `start` says. -/
def family (M : Machine σ α) (start : ρ → σ) : Machine (κ → Option σ) (FamilyAct κ ρ α) where
  init f := ∀ k, f k = none
  next f
    | .spawn k r => if (f k).isNone then some (Function.update f k (some (start r))) else none
    | .step k a =>
        (f k).bind (fun s => (M.next s a).map (fun s' => Function.update f k (some s')))

/-- `C`, of the steps of every member. -/
def Members (C : σ → α → Prop) (f : κ → Option σ) : FamilyAct κ ρ α → Prop
  | .spawn _ _ => True
  | .step k a => ∀ s, f k = some s → C s a

variable {M : Machine σ α} {start : ρ → σ} {C : σ → α → Prop} {f f' : κ → Option σ}

theorem family_spawn {k : κ} (hk : f k = none) (r : ρ) :
    (family M start).next f (.spawn k r) = some (Function.update f k (some (start r))) := by
  simp only [family, hk, Option.isNone_none, if_true]

theorem family_step {k : κ} {s s' : σ} {a : α} (hk : f k = some s) (hn : M.next s a = some s') :
    (family M start).next f (.step k a) = some (Function.update f k (some s')) := by
  simp only [family, hk, Option.bind_some, hn, Option.map_some]

/-- Everything a step can do to a family. -/
theorem family_cases {l : FamilyAct κ ρ α} (h : (family M start).next f l = some f') :
    (∃ k r, l = .spawn k r ∧ f k = none ∧ f' = Function.update f k (some (start r)))
      ∨ ∃ k a s s', l = .step k a ∧ f k = some s ∧ M.next s a = some s'
          ∧ f' = Function.update f k (some s') := by
  cases l with
  | spawn k r =>
      simp only [family] at h
      split at h
      · rename_i hk
        cases h
        exact Or.inl ⟨k, r, rfl, Option.isNone_iff_eq_none.mp hk, rfl⟩
      · exact absurd h (by simp)
  | step k a =>
      obtain ⟨s, hk, h⟩ := Option.bind_eq_some_iff.mp h
      obtain ⟨s', hn, rfl⟩ := Option.map_eq_some_iff.mp h
      exact Or.inr ⟨k, a, s, s', rfl, hk, hn, rfl⟩

/-- A run of a member is one of the family. -/
theorem family_run {k : κ} {s s' : σ} {as : List α} (hk : f k = some s)
    (hrun : M.run s as = some s') :
    (family M start).run f (as.map (.step k)) = some (Function.update f k (some s')) := by
  induction as generalizing f s with
  | nil =>
      cases hrun
      rw [← hk, Function.update_eq_self]
      rfl
  | cons a as ih =>
      rw [run_cons] at hrun
      obtain ⟨m, hn, hrun⟩ := Option.bind_eq_some_iff.mp hrun
      rw [List.map_cons, run_cons, family_step hk hn, Option.bind_some,
        ih (Function.update_self _ _ _) hrun, Function.update_idem]

/-- **Every member is reached by steps of its own.** -/
theorem family_reachable (hstart : ∀ r, M.init (start r))
    (h : (family M start).ReachableVia (Members C) f) :
    ∀ k s, f k = some s → M.ReachableVia C s := by
  refine h.invariant (I := fun f => ∀ k s, f k = some s → M.ReachableVia C s) ?_ ?_
  · intro f h0 k s hk
    rw [h0 k] at hk
    cases hk
  · intro f l f' _ ih hc hn k s hk
    rcases family_cases hn with ⟨k', r, rfl, _, rfl⟩ | ⟨k', a, t, t', rfl, ht, ht', rfl⟩
    · rcases Table.of_insert hk with ⟨_, rfl⟩ | ⟨_, hold⟩
      · exact .init (hstart r)
      · exact ih k s hold
    · rcases Table.of_insert hk with ⟨_, rfl⟩ | ⟨_, hold⟩
      · exact .tail (ih k' t ht) (hc t ht) ht'
      · exact ih k s hold

/--
**The other members do not matter**: a member is where its own steps take it from its
start, and one that was not started has taken none.
-/
theorem family_member (h0 : ∀ k, f k = none) {ls : List (FamilyAct κ ρ α)}
    (hrun : (family M start).run f ls = some f') (k : κ) :
    (f' k = none ∧ FamilyAct.of k ls = [])
      ∨ ∃ r s, f' k = some s ∧ M.run (start r) (FamilyAct.of k ls) = some s := by
  refine run_induction (fun ls f' => (f' k = none ∧ FamilyAct.of k ls = [])
    ∨ ∃ r s, f' k = some s ∧ M.run (start r) (FamilyAct.of k ls) = some s)
    (Or.inl ⟨h0 k, rfl⟩) ?_ hrun
  intro ls g l g' _ ih hn
  rw [FamilyAct.of_append]
  rcases family_cases hn with ⟨k', r, rfl, hk', rfl⟩ | ⟨k', a, t, t', rfl, ht, ht', rfl⟩
  · rw [FamilyAct.of_spawn, List.append_nil]
    by_cases hk : k = k'
    · subst hk
      rcases ih with ⟨_, hnil⟩ | ⟨_, s, hs, _⟩
      · exact Or.inr ⟨r, start r, Function.update_self _ _ _, by rw [hnil]; rfl⟩
      · rw [hk'] at hs
        cases hs
    · rw [Function.update_of_ne hk]
      exact ih
  · by_cases hk : k = k'
    · subst hk
      rcases ih with ⟨hnone, _⟩ | ⟨r, s, hs, hrun⟩
      · rw [hnone] at ht
        cases ht
      · rw [ht] at hs
        cases hs
        refine Or.inr ⟨r, t', Function.update_self _ _ _, ?_⟩
        rw [FamilyAct.of_step_self, run_append, hrun, Option.bind_some, run_cons, ht']
        rfl
    · rw [FamilyAct.of_step_ne (Ne.symm hk), List.append_nil, Function.update_of_ne hk]
      exact ih

/-! ## Following a family member by member -/

variable {A : Machine τ β} {startA : ρ → τ} {obs : σ → α → List β} {R : σ → τ → Prop}

/-- What a step of a family shows: what it shows of the member that takes it. -/
def memberObs (obs : σ → α → List β) (f : κ → Option σ) :
    FamilyAct κ ρ α → List (FamilyAct κ ρ β)
  | .spawn k r => [.spawn k r]
  | .step k a => ((f k).map (fun s => obs s a)).getD [] |>.map (.step k)

/-- The members correspond, one to one. -/
structure Memberwise (R : σ → τ → Prop) (f : κ → Option σ) (g : κ → Option τ) : Prop where
  absent : ∀ k, f k = none → g k = none
  present : ∀ k s, f k = some s → ∃ t, g k = some t ∧ R s t

omit [DecidableEq κ] in
theorem Memberwise.empty {f : κ → Option σ} (h : ∀ k, f k = none) :
    Memberwise R f (fun _ => none) where
  absent := fun _ _ => rfl
  present := by
    intro k s hk
    rw [h k] at hk
    cases hk

theorem Memberwise.update {g : κ → Option τ} (h : Memberwise R f g) (k : κ) {s : σ} {t : τ}
    (hst : R s t) :
    Memberwise R (Function.update f k (some s)) (Function.update g k (some t)) where
  absent := by
    intro j hj
    by_cases hjk : j = k
    · subst hjk
      rw [Function.update_self] at hj
      cases hj
    · rw [Function.update_of_ne hjk] at hj ⊢
      exact h.absent j hj
  present := by
    intro j u hj
    by_cases hjk : j = k
    · subst hjk
      rw [Function.update_self] at hj ⊢
      cases hj
      exact ⟨t, rfl, hst⟩
    · rw [Function.update_of_ne hjk] at hj ⊢
      exact h.present j u hj

/-- **A family is followed by the family of what follows its members.** -/
theorem Follows.family (h : Follows A M C obs R) (hstart : ∀ r, M.init (start r))
    (hR : ∀ r, R (start r) (startA r)) :
    Follows (family A startA : Machine (κ → Option τ) _) (family M start) (Members C)
      (memberObs obs) (Memberwise R) := by
  refine ⟨fun f h0 => ⟨fun _ => none, fun _ => rfl, .empty h0⟩, fun f g l f' hr hfg hc hn => ?_⟩
  rcases family_cases hn with ⟨k, r, rfl, hk, rfl⟩ | ⟨k, a, s, s', rfl, hs, hs', rfl⟩
  · refine ⟨Function.update g k (some (startA r)), ?_, hfg.update k (hR r)⟩
    simp only [memberObs, run_cons, family_spawn (hfg.absent k hk), Option.bind_some]
    rfl
  · obtain ⟨t, hgk, hst⟩ := hfg.present k s hs
    obtain ⟨t', ht', hst'⟩ :=
      h.step s t a s' (family_reachable hstart hr k s hs) hst (hc s hs) hs'
    refine ⟨Function.update g k (some t'), ?_, hfg.update k hst'⟩
    simp only [memberObs, hs, Option.map_some, Option.getD_some]
    exact family_run hgk ht'

end Machine

end Lib
