import TcpServers.Lib.Store

/-!
# Texts up to a terminator

What is read from the start of a store up to the first terminator, as its characters
by position. When a list is written over the start of a store, the text is within the
list if the terminator is in it or stands right behind it, and otherwise goes on in
what was there before.
-/

namespace Lib.Store

universe u

variable {β : Type u}

/-- The `k`-th character of the text, `none` from the terminator on. -/
def text [DecidableEq β] (m : Store β) (stop : β) (k : Nat) : Option β :=
  if ∃ j : Nat, j ≤ k ∧ m j = stop then none else some (m k)

/-- A cell of a store whose start was written over. -/
theorem save_start (m : Store β) (bs : List β) (k : Nat) :
    m.save 0 bs k = bs[k]?.getD (m k) := by
  have hcell := save_cell m 0 bs k
  rwa [Int.zero_add] at hcell

variable [DecidableEq β]

/-- **A text that ends within the list or right behind it** is a matter of the list alone. -/
theorem text_save {m : Store β} {stop : β} {bs : List β}
    (h : stop ∈ bs ∨ m bs.length = stop) (k : Nat) :
    (m.save 0 bs).text stop k =
      if ∃ j : Nat, j ≤ k ∧ bs[j]? = some stop then none else bs[k]? := by
  have hcell : ∀ j : Nat, j < bs.length → (m.save 0 bs j = stop ↔ bs[j]? = some stop) := by
    intro j hj
    rw [save_start, List.getElem?_eq_getElem hj]
    simp
  unfold text
  by_cases hk : k < bs.length
  · have hiff : (∃ j : Nat, j ≤ k ∧ m.save 0 bs j = stop) ↔
        ∃ j : Nat, j ≤ k ∧ bs[j]? = some stop :=
      exists_congr (fun j => and_congr_right (fun hj => hcell j (by omega)))
    rw [if_congr hiff rfl rfl, save_start, List.getElem?_eq_getElem hk, Option.getD_some]
  · -- behind the list the text has ended
    have hstop : ∃ j : Nat, j ≤ k ∧ m.save 0 bs j = stop := by
      rcases h with hmem | hbehind
      · obtain ⟨j, hj, hval⟩ := List.getElem_of_mem hmem
        refine ⟨j, by omega, (hcell j hj).mpr ?_⟩
        rw [List.getElem?_eq_getElem hj, hval]
      · refine ⟨bs.length, by omega, ?_⟩
        rw [save_start, List.getElem?_eq_none (Nat.le_refl _)]
        exact hbehind
    rw [if_pos hstop, List.getElem?_eq_none (Nat.not_lt.mp hk)]
    split <;> rfl

/-- The characters of such a text are those of the list. -/
theorem getElem?_of_text {m : Store β} {stop : β} {bs : List β}
    (h : stop ∈ bs ∨ m bs.length = stop) {k : Nat} {b : β}
    (hk : (m.save 0 bs).text stop k = some b) : bs[k]? = some b := by
  rw [text_save h] at hk
  split at hk
  · cases hk
  · exact hk

/-- **Any other text goes on behind the list**, with what was there before. -/
theorem text_save_behind {m : Store β} {stop : β} {bs : List β} (hnot : stop ∉ bs)
    (hbehind : m bs.length ≠ stop) :
    (m.save 0 bs).text stop bs.length = some (m bs.length) := by
  have hlast : m.save 0 bs bs.length = m bs.length := by
    rw [save_start, List.getElem?_eq_none (Nat.le_refl _)]
    rfl
  have hnone : ¬ ∃ j : Nat, j ≤ bs.length ∧ m.save 0 bs j = stop := by
    rintro ⟨j, hj, hstop⟩
    rcases Nat.lt_or_eq_of_le hj with hlt | rfl
    · rw [save_start, List.getElem?_eq_getElem hlt, Option.getD_some] at hstop
      exact hnot (hstop ▸ List.getElem_mem hlt)
    · exact hbehind (hlast.symm.trans hstop)
  rw [text, if_neg hnone, hlast]

end Lib.Store
