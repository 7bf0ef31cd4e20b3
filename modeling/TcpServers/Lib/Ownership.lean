import Mathlib.Data.List.Nodup

/-!
# One token, one holder

Tokens pass between a pool and the parties that take them from it. Each party has
a list of the tokens it holds; the pool says which ones are up for taking.
`Exclusive` is the discipline that makes a taken token safe to work on: no two
parties hold it, no party holds it twice, and nobody else can take it.

A party either takes a token that nobody holds, or lets go of some of its own,
and may return those to the pool. The two rules `take` and `release` are all an
interleaving proof needs.
-/

namespace Lib

universe u v

variable {ι : Type u} {τ : Type v}

/-- What the parties hold, against what is in the pool. -/
structure Exclusive (holds : ι → List τ) (free : τ → Prop) : Prop where
  nodup : ∀ i, (holds i).Nodup
  /-- A token has at most one holder. -/
  unique : ∀ i j t, t ∈ holds i → t ∈ holds j → i = j
  /-- What is held is not up for taking. -/
  taken : ∀ i t, t ∈ holds i → ¬ free t

namespace Exclusive

variable {holds holds' : ι → List τ} {free free' : τ → Prop} {i : ι} {t : τ}

/-- With nothing held the discipline is met, whatever the pool. -/
theorem of_empty (h : ∀ i, holds i = []) : Exclusive holds free where
  nodup := fun i => by rw [h i]; exact List.nodup_nil
  unique := fun i j t ht => by rw [h i] at ht; exact absurd ht List.not_mem_nil
  taken := fun i t ht => by rw [h i] at ht; exact absurd ht List.not_mem_nil

/-- A token in the pool is held by nobody. -/
theorem not_held (h : Exclusive holds free) (hfree : free t) (j : ι) : t ∉ holds j :=
  fun hj => h.taken j t hj hfree

/-- **A party lets go** of some of what it holds; only that can reach the pool. -/
theorem release (h : Exclusive holds free) (hother : ∀ j, j ≠ i → holds' j = holds j)
    (hsub : (holds' i).Sublist (holds i))
    (hfree : ∀ t, free' t → free t ∨ (t ∈ holds i ∧ t ∉ holds' i)) :
    Exclusive holds' free' := by
  have hmem : ∀ j t, t ∈ holds' j → t ∈ holds j := by
    intro j t ht
    by_cases hj : j = i
    · subst hj
      exact hsub.subset ht
    · rw [hother j hj] at ht
      exact ht
  refine ⟨fun j => ?_, fun j k t hj hk => ?_, fun j t hj hf => ?_⟩
  · by_cases hj : j = i
    · subst hj
      exact (h.nodup j).sublist hsub
    · rw [hother j hj]
      exact h.nodup j
  · exact h.unique j k t (hmem j t hj) (hmem k t hk)
  · rcases hfree t hf with hold | ⟨hi, hnot⟩
    · exact h.taken j t (hmem j t hj) hold
    · have hji : j = i := h.unique j i t (hmem j t hj) hi
      subst hji
      exact hnot hj

/-- **A party takes** a token nobody holds, which leaves the pool with that. -/
theorem take (h : Exclusive holds free) (hother : ∀ j, j ≠ i → holds' j = holds j)
    (hi : List.Perm (holds' i) (t :: holds i)) (hnew : ∀ j, t ∉ holds j) (ht : ¬ free' t)
    (hfree : ∀ t, free' t → free t) : Exclusive holds' free' := by
  have hmem : ∀ j u, u ∈ holds' j → u ∈ holds j ∨ (j = i ∧ u = t) := by
    intro j u hu
    by_cases hj : j = i
    · subst hj
      rcases List.mem_cons.mp (hi.mem_iff.mp hu) with rfl | hu
      · exact Or.inr ⟨rfl, rfl⟩
      · exact Or.inl hu
    · rw [hother j hj] at hu
      exact Or.inl hu
  refine ⟨fun j => ?_, fun j k u hj hk => ?_, fun j u hj hf => ?_⟩
  · by_cases hj : j = i
    · subst hj
      exact hi.nodup_iff.mpr (List.nodup_cons.mpr ⟨hnew j, h.nodup j⟩)
    · rw [hother j hj]
      exact h.nodup j
  · rcases hmem j u hj with hj | ⟨rfl, rfl⟩
    · rcases hmem k u hk with hk | ⟨rfl, rfl⟩
      · exact h.unique j k u hj hk
      · exact absurd hj (hnew j)
    · rcases hmem k u hk with hk | ⟨rfl, -⟩
      · exact absurd hk (hnew k)
      · rfl
  · rcases hmem j u hj with hj | ⟨-, rfl⟩
    · exact h.taken j u hj (hfree u hf)
    · exact ht hf

end Exclusive

end Lib
