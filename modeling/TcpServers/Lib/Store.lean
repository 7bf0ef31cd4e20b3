import Mathlib.Data.List.Basic

/-!
# Stores of cells addressed by integers

The memory around a base address, without its bounds: cell `i` is the one at
offset `i`, negative or beyond the end of any array included. Whether an offset
may be used is a separate question; here only what `save` leaves where, and what
`load` gets back.
-/

namespace Lib

universe u

/-- Cells of type `β`, one at every integer offset. -/
abbrev Store (β : Type u) : Type u := Int → β

namespace Store

variable {β : Type u}

/-- The `n` cells from offset `pos` on. -/
def load (m : Store β) (pos : Int) : Nat → List β
  | 0 => []
  | n + 1 => m pos :: load m (pos + 1) n

/-- Write the list from offset `pos` on. -/
def save (m : Store β) (pos : Int) : List β → Store β
  | [] => m
  | b :: bs => fun i => if i = pos then b else save m (pos + 1) bs i

@[simp] theorem load_zero (m : Store β) (pos : Int) : load m pos 0 = [] := rfl

@[simp] theorem save_nil (m : Store β) (pos : Int) : save m pos [] = m := rfl

@[simp] theorem length_load (m : Store β) (pos : Int) (n : Nat) :
    (load m pos n).length = n := by
  induction n generalizing pos with
  | zero => rfl
  | succ n ih => rw [load, List.length_cons, ih]

/-- Cells below the written range keep their contents. -/
theorem save_below {m : Store β} {pos i : Int} {bs : List β} (h : i < pos) :
    save m pos bs i = m i := by
  induction bs generalizing pos with
  | nil => rfl
  | cons b bs ih =>
      rw [save]
      dsimp only
      rw [if_neg (by omega)]
      exact ih (by omega)

/-- Cells inside the written range do not remember what was there. -/
theorem save_inside {m₁ m₂ : Store β} {pos i : Int} {bs : List β} (hl : pos ≤ i)
    (hr : i < pos + bs.length) : save m₁ pos bs i = save m₂ pos bs i := by
  induction bs generalizing pos with
  | nil =>
      rw [List.length_nil] at hr
      omega
  | cons b bs ih =>
      rw [List.length_cons] at hr
      rw [save, save]
      dsimp only
      split
      · rfl
      · exact ih (by omega) (by omega)

/-- A cell from the start of the written range on: what was written there, or what was before. -/
theorem save_cell (m : Store β) (pos : Int) (bs : List β) (k : Nat) :
    save m pos bs (pos + k) = bs[k]?.getD (m (pos + k)) := by
  induction bs generalizing pos k with
  | nil => rfl
  | cons b bs ih =>
      rw [save]
      dsimp only
      cases k with
      | zero => simp
      | succ k =>
          rw [if_neg (by omega), List.getElem?_cons_succ,
            show pos + ((k + 1 : Nat) : Int) = (pos + 1) + k by omega]
          exact ih (pos + 1) k

/-- Stores that agree below the written range agree up to its end afterwards. -/
theorem save_congr {m₁ m₂ : Store β} {lo pos : Int} {bs : List β}
    (h : ∀ i, lo ≤ i → i < pos → m₁ i = m₂ i) {i : Int} (hl : lo ≤ i)
    (hr : i < pos + bs.length) : save m₁ pos bs i = save m₂ pos bs i := by
  by_cases hlt : i < pos
  · rw [save_below hlt, save_below hlt]
    exact h i hl hlt
  · exact save_inside (by omega) hr

/-- Loading reads nothing but the cells of its range. -/
theorem load_congr {m₁ m₂ : Store β} {pos : Int} {n : Nat}
    (h : ∀ i, pos ≤ i → i < pos + n → m₁ i = m₂ i) : load m₁ pos n = load m₂ pos n := by
  induction n generalizing pos with
  | zero => rfl
  | succ n ih =>
      rw [load, load, h pos (by omega) (by omega)]
      rw [ih (fun i hl hr => h i (by omega) (by omega))]

theorem load_add (m : Store β) (pos : Int) (a b : Nat) :
    load m pos (a + b) = load m pos a ++ load m (pos + a) b := by
  induction a generalizing pos with
  | zero => simp
  | succ a ih =>
      rw [Nat.succ_add, load, load, ih, List.cons_append]
      congr 3
      omega

theorem load_save (m : Store β) (pos : Int) (bs : List β) :
    load (save m pos bs) pos bs.length = bs := by
  induction bs generalizing pos with
  | nil => rfl
  | cons b bs ih =>
      rw [List.length_cons, load, save]
      dsimp only
      rw [if_pos rfl]
      congr 1
      refine (load_congr ?_).trans (ih (pos + 1))
      intro i hl _
      rw [if_neg (by omega)]

/-- A range that ends where the written one begins is not disturbed. -/
theorem load_save_below {m : Store β} {pos q : Int} {n : Nat} {bs : List β}
    (h : pos + n ≤ q) : load (save m q bs) pos n = load m pos n :=
  load_congr (fun _ _ hr => save_below (by omega))

/-- Writing right behind a range appends to what it reads as. -/
theorem load_save_append (m : Store β) (pos : Int) (n : Nat) (bs : List β) :
    load (save m (pos + n) bs) pos (n + bs.length) = load m pos n ++ bs := by
  rw [load_add, load_save_below (by omega), load_save]

/-- A shorter range from the same offset reads as a prefix. -/
theorem load_isPrefix_load (m : Store β) (pos : Int) {a b : Nat} (h : a ≤ b) :
    load m pos a <+: load m pos b := by
  obtain ⟨c, rfl⟩ := Nat.exists_eq_add_of_le h
  rw [load_add]
  exact List.prefix_append _ _

end Store

end Lib
