import TcpServers.Lib.Store

/-!
# Lists written over each other

A store that is filled from offset `0`, started over, and filled again: each filling is
a layer, which hides as much of the older ones as it is long. The latest layer comes
first in the list.
-/

namespace Lib

universe u

variable {β : Type u}

/-- What was last written at an offset, if anything was. -/
def topmost (layers : List (List β)) (j : Nat) : Option β := layers.findSome? (fun l => l[j]?)

/-- The store holds the layers, on a ground of one value. -/
def Shows (m : Store β) (ground : β) (layers : List (List β)) : Prop :=
  ∀ j : Nat, m j = (topmost layers j).getD ground

theorem topmost_cons (l : List β) (layers : List (List β)) (j : Nat) :
    topmost (l :: layers) j = l[j]?.or (topmost layers j) := by
  rw [topmost, List.findSome?_cons]
  cases l[j]? <;> rfl

/-- Nothing was written yet. -/
theorem shows_ground (ground : β) : Shows (fun _ => ground) ground [[]] := by
  intro j
  rfl

namespace Shows

variable {m : Store β} {ground : β} {l : List β} {layers : List (List β)}

/-- Starting over hides nothing. -/
theorem restart (h : Shows m ground layers) : Shows m ground ([] :: layers) := by
  intro j
  rw [topmost_cons]
  exact h j

/-- Writing on where the latest layer ends makes it longer. -/
theorem save (h : Shows m ground (l :: layers)) {pos : Int} (hpos : l.length = pos)
    (bs : List β) : Shows (m.save pos bs) ground ((l ++ bs) :: layers) := by
  intro j
  rw [topmost_cons]
  by_cases hj : j < l.length
  · rw [Store.save_below (by omega), h j, topmost_cons, List.getElem?_append_left hj]
  · obtain ⟨k, rfl⟩ := Nat.exists_eq_add_of_le (Nat.not_lt.mp hj)
    rw [List.getElem?_append_right (Nat.le_add_right _ _), Nat.add_sub_cancel_left,
      Int.natCast_add, hpos, Store.save_cell]
    cases hk : bs[k]? with
    | some b => rfl
    | none =>
        rw [← hpos, ← Int.natCast_add, h, topmost_cons,
          List.getElem?_eq_none (Nat.le_add_right _ _)]
        rfl

end Shows

end Lib
