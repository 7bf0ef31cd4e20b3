import Mathlib.Logic.Function.Basic

/-!
# Tables changed one entry at a time

A table is a partial function, and what happens to it is `Function.update`. What an
invariant has to be told about a change is where an entry of the new table comes from.
-/

namespace Lib.Table

universe u v

variable {κ : Type u} {α : Type v} [DecidableEq κ] {table : κ → Option α} {k k' : κ} {x : α}

/-- An entry of a changed table: the one that was put there, or one that was there before. -/
theorem of_update {o : Option α} (h : Function.update table k o k' = some x) :
    k' = k ∧ o = some x ∨ k' ≠ k ∧ table k' = some x := by
  by_cases hk : k' = k
  · rw [hk, Function.update_self] at h
    exact Or.inl ⟨hk, h⟩
  · rw [Function.update_of_ne hk] at h
    exact Or.inr ⟨hk, h⟩

/-- After a removal: one of the others. -/
theorem of_remove (h : Function.update table k none k' = some x) :
    k' ≠ k ∧ table k' = some x := by
  rcases of_update h with ⟨_, hno⟩ | hother
  · cases hno
  · exact hother

/-- After an insertion: the new one, or one of the others. -/
theorem of_insert {y : α} (h : Function.update table k (some y) k' = some x) :
    k' = k ∧ x = y ∨ k' ≠ k ∧ table k' = some x := by
  rcases of_update h with ⟨hk, hnew⟩ | hother
  · exact Or.inl ⟨hk, (Option.some.inj hnew).symm⟩
  · exact Or.inr hother

/-- An entry that was not at the place of the change is still there. -/
theorem kept {o : Option α} (h : table k' = some x) (hne : table k ≠ some x) :
    Function.update table k o k' = some x := by
  have hk : k' ≠ k := by
    intro heq
    rw [heq] at h
    exact hne h
  rw [Function.update_of_ne hk]
  exact h

/-- What is still missing after an insertion was missing before. -/
theorem none_of_insert {y : α} (h : Function.update table k (some y) k' = none) :
    k' ≠ k ∧ table k' = none := by
  by_cases hk : k' = k
  · rw [hk, Function.update_self] at h
    cases h
  · rw [Function.update_of_ne hk] at h
    exact ⟨hk, h⟩

/-- What is there after a change is at its place, or was there before. -/
theorem of_update_ne_none {o : Option α} (h : Function.update table k o k' ≠ none) :
    k' = k ∧ o ≠ none ∨ k' ≠ k ∧ table k' ≠ none := by
  obtain ⟨x, hx⟩ := Option.ne_none_iff_exists'.mp h
  rcases of_update hx with ⟨hk, ho⟩ | ⟨hk, hold⟩
  · exact Or.inl ⟨hk, by rw [ho]; exact Option.some_ne_none x⟩
  · exact Or.inr ⟨hk, by rw [hold]; exact Option.some_ne_none x⟩

end Lib.Table
