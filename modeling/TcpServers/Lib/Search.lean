import Mathlib.Order.Bounds.Basic

/-!
# Searching downwards for a marked number

The loop `for (m = n - 1; m >= 0 and not marked(m); --m)`, and what it is for: a
set of numbers whose maximum is taken out has the marked number it stops at as
its new maximum.
-/

namespace Lib

/-- The greatest marked number below `n`, or `-1`. -/
def searchDown (marked : Int → Bool) : Nat → Int
  | 0 => -1
  | n + 1 => if marked n then n else searchDown marked n

/-- The numbers the search tests. -/
def searchDownTests (marked : Int → Bool) : Nat → List Int
  | 0 => []
  | n + 1 => (n : Int) :: if marked n then [] else searchDownTests marked n

/-- They are those from `n - 1` down to where it stops. -/
theorem searchDownTests_mem {marked : Int → Bool} {n : Nat} {m : Int}
    (h : m ∈ searchDownTests marked n) : 0 ≤ m ∧ m < n := by
  induction n with
  | zero => cases h
  | succ n ih =>
      rw [searchDownTests, List.mem_cons] at h
      rcases h with rfl | h
      · omega
      · split at h
        · cases h
        · have hm := ih h
          omega

/-- Where something is marked the search finds the greatest of it. -/
theorem searchDown_isGreatest {marked : Int → Bool} {n : Nat} {k : Int} (h0 : 0 ≤ k) (hn : k < n)
    (hk : marked k = true) :
    IsGreatest {m : Int | 0 ≤ m ∧ m < n ∧ marked m = true} (searchDown marked n) := by
  induction n with
  | zero => omega
  | succ n ih =>
      rw [searchDown]
      split
      · rename_i hm
        refine ⟨⟨by omega, by omega, hm⟩, fun m hmem => ?_⟩
        have hlt := hmem.2.1
        omega
      · rename_i hm
        have hne : k ≠ n := by
          intro heq
          rw [heq] at hk
          exact hm hk
        have hgreatest := ih (by omega)
        refine ⟨⟨hgreatest.1.1, ?_, hgreatest.1.2.2⟩, fun m hmem => hgreatest.2 ⟨hmem.1, ?_, ?_⟩⟩
        · have hlt := hgreatest.1.2.1
          omega
        · have hlt := hmem.2.1
          have hmne : m ≠ n := by
            intro heq
            rw [heq] at hmem
            exact hm hmem.2.2
          omega
        · exact hmem.2.2

/-- A set of non-negative numbers loses its maximum; something is left of it. -/
theorem isGreatest_searchDown {marked : Int → Bool} {top k : Int}
    (h0 : ∀ m, marked m = true → 0 ≤ m) (htop : ∀ m, marked m = true → m < top)
    (hk : marked k = true) :
    IsGreatest {m : Int | marked m = true} (searchDown marked top.toNat) := by
  have hk0 := h0 k hk
  have hkt := htop k hk
  have hgreatest := searchDown_isGreatest (n := top.toNat) hk0 (by omega) hk
  refine ⟨hgreatest.1.2.2, fun m hm => hgreatest.2 ⟨h0 m hm, ?_, hm⟩⟩
  have hlt := htop m hm
  omega

end Lib
