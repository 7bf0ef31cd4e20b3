import TcpServers.Lib.Machine

/-!
# Amortized counting of steps

How many steps of some kind a run can take: every step is paid from a potential of the
state or from what another step brings in. Steps of other parties cost nothing, as long
as they leave the potential alone.
-/

namespace Lib.Machine

universe u v

variable {σ : Type u} {α : Type v} {M : Machine σ α}

/-- What the labels weigh together. -/
def weight (w : α → Nat) : List α → Nat
  | [] => 0
  | a :: as => w a + weight w as

@[simp] theorem weight_nil (w : α → Nat) : weight w [] = 0 := rfl

@[simp] theorem weight_cons (w : α → Nat) (a : α) (as : List α) :
    weight w (a :: as) = w a + weight w as := rfl

@[simp] theorem weight_snoc (w : α → Nat) (as : List α) (a : α) :
    weight w (as ++ [a]) = weight w as + w a := by
  induction as with
  | nil => simp
  | cons b as ih => rw [List.cons_append, weight_cons, weight_cons, ih, Nat.add_assoc]

theorem weight_mul (k : Nat) (w : α → Nat) (as : List α) :
    weight (fun a => k * w a) as = k * weight w as := by
  induction as with
  | nil => rfl
  | cons a as ih => rw [weight_cons, weight_cons, ih, Nat.mul_add]

theorem weight_add (w v : α → Nat) (as : List α) :
    weight (fun a => w a + v a) as = weight w as + weight v as := by
  induction as with
  | nil => rfl
  | cons a as ih => rw [weight_cons, weight_cons, weight_cons, ih, Nat.add_add_add_comm]

theorem weight_one (as : List α) : weight (fun _ => 1) as = as.length := by
  induction as with
  | nil => rfl
  | cons a as ih => rw [weight_cons, ih, List.length_cons, Nat.add_comm]

/--
**The accounting rule.** A step may cost no more than it takes from the potential, brings in
itself and leaves behind. Then the costs of a run are covered by the potential it starts
with, by what its steps bring in, and by what is left behind at its end.
-/
theorem accounting_leaving {I : σ → Prop} {C : σ → α → Prop} {s t : σ} {as : List α}
    (potential left : σ → Nat) (cost credit : α → Nat) (h0 : I s)
    (hI : ∀ s a s', I s → C s a → M.next s a = some s' → I s')
    (hpay : ∀ s a s', I s → C s a → M.next s a = some s' →
      potential s' + cost a + left s ≤ potential s + credit a + left s')
    (hrun : M.run s as = some t) (hC : M.Along C s as) :
    potential t + weight cost as + left s ≤ potential s + weight credit as + left t := by
  refine (run_induction (fun as t => M.Along C s as →
    I t ∧ potential t + weight cost as + left s ≤ potential s + weight credit as + left t)
    (fun _ => ⟨h0, Nat.le_refl _⟩) ?_ hrun hC).2
  intro as t a t' hm ih hn hall
  rw [along_snoc hm] at hall
  obtain ⟨hi, hle⟩ := ih hall.1
  have hstep := hpay t a t' hi hall.2 hn
  refine ⟨hI t a t' hi hall.2 hn, ?_⟩
  rw [weight_snoc, weight_snoc]
  omega

/-- Where nothing is left behind. -/
theorem accounting {I : σ → Prop} {C : σ → α → Prop} {s t : σ} {as : List α}
    (potential : σ → Nat) (cost credit : α → Nat) (h0 : I s)
    (hI : ∀ s a s', I s → C s a → M.next s a = some s' → I s')
    (hpay : ∀ s a s', I s → C s a → M.next s a = some s' →
      potential s' + cost a ≤ potential s + credit a)
    (hrun : M.run s as = some t) (hC : M.Along C s as) :
    potential t + weight cost as ≤ potential s + weight credit as :=
  accounting_leaving potential (fun _ => 0) cost credit h0 hI hpay hrun hC

end Lib.Machine
