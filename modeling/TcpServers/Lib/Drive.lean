import TcpServers.Lib.Machine

/-!
# Driven machines

A machine together with what chooses the label of every step: the environment,
which may look at the number of the step and at the state. Two rules say whether
a kind of state is left. It is left after finitely many steps if every step in it
lowers a measure, and never if every step leads to the same kind of state.
-/

namespace Lib.Machine

universe u v

variable {σ : Type u} {α : Type v} (M : Machine σ α) (choose : Nat → σ → α)

/-- The state after `n` steps, `none` where a label was not possible. -/
def drive (s : σ) : Nat → Option σ
  | 0 => some s
  | n + 1 => (drive s n).bind (fun t => M.next t (choose n t))

variable {M choose}

theorem drive_succ {s t : σ} {n : Nat} (h : M.drive choose s n = some t) :
    M.drive choose s (n + 1) = M.next t (choose n t) := by
  rw [drive, h, Option.bind_some]

/--
**The rule for leaving.** Where every step from a busy state is possible, keeps `I`
and lowers `μ`, a state that is not busy is reached, in at most `μ 0 s` steps. Both
may depend on how many steps were taken.
-/
theorem drive_ends {I : Nat → σ → Prop} {Busy : σ → Prop} {μ : Nat → σ → Nat} {s : σ}
    (h0 : I 0 s)
    (hstep : ∀ n t, I n t → Busy t →
      ∃ t', M.next t (choose n t) = some t' ∧ I (n + 1) t' ∧ μ (n + 1) t' < μ n t) :
    ∃ n t, n ≤ μ 0 s ∧ M.drive choose s n = some t ∧ I n t ∧ ¬ Busy t := by
  -- as long as no such state is reached, what is left of the measure and the steps taken add up
  have hall : ∀ n, (∃ m t, m ≤ μ 0 s ∧ M.drive choose s m = some t ∧ I m t ∧ ¬ Busy t)
      ∨ ∃ t, M.drive choose s n = some t ∧ I n t ∧ μ n t + n ≤ μ 0 s := by
    intro n
    induction n with
    | zero => exact Or.inr ⟨s, rfl, h0, Nat.le_refl _⟩
    | succ n ih =>
        rcases ih with hleft | ⟨t, ht, hi, hμ⟩
        · exact Or.inl hleft
        · by_cases hb : Busy t
          · obtain ⟨t', hn, hi', hlt⟩ := hstep n t hi hb
            exact Or.inr ⟨t', (drive_succ ht).trans hn, hi', by omega⟩
          · exact Or.inl ⟨n, t, by omega, ht, hi, hb⟩
  rcases hall (μ 0 s + 1) with hleft | ⟨t, _, _, hμ⟩
  · exact hleft
  · omega

/-- **The rule for staying.** What every step is possible from, and keeps, is never left. -/
theorem drive_stays {J : σ → Prop} {s : σ} (h0 : J s)
    (hstep : ∀ n t, J t → ∃ t', M.next t (choose n t) = some t' ∧ J t') (n : Nat) :
    ∃ t, M.drive choose s n = some t ∧ J t := by
  induction n with
  | zero => exact ⟨s, rfl, h0⟩
  | succ n ih =>
      obtain ⟨t, ht, hj⟩ := ih
      obtain ⟨t', hn, hj'⟩ := hstep n t hj
      exact ⟨t', (drive_succ ht).trans hn, hj'⟩

end Lib.Machine
