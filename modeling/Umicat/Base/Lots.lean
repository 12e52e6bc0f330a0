import Mathlib.Algebra.GroupWithZero.Nat
import Mathlib.Data.List.Count
import Mathlib.Data.Option.Basic

/-!
# Lots

A list of indices with as many lots for each element as it has weight. Drawing a lot at random is
weighted sampling, so a walk over the weights that ends where the lot does samples exactly.
-/

namespace Umicat.Base

variable {α : Type*}

/-- The lots of a list whose first element has index `i`. -/
def lots (w : α → Nat) : List α → Nat → List Nat
  | [], _ => []
  | x :: l, i => List.replicate (w x) i ++ lots w l (i + 1)

variable {w : α → Nat}

theorem length_lots (w : α → Nat) (l : List α) (i : Nat) : (lots w l i).length = (l.map w).sum := by
  induction l generalizing i with
  | nil => rfl
  | cons x l ih => simp [lots, ih]

theorem mem_lots {l : List α} {i k : Nat} (h : k ∈ lots w l i) :
    ∃ j x, k = i + j ∧ l[j]? = some x ∧ 0 < w x := by
  induction l generalizing i with
  | nil => cases h
  | cons x l ih =>
      rcases List.mem_append.mp h with h | h
      · obtain ⟨hne, rfl⟩ := List.mem_replicate.mp h
        exact ⟨0, x, rfl, rfl, Nat.pos_of_ne_zero hne⟩
      · obtain ⟨j, y, hk, hy, hpos⟩ := ih h
        exact ⟨j + 1, y, by omega, by simpa using hy, hpos⟩

theorem count_lots {l : List α} {j : Nat} {x : α} (h : l[j]? = some x) (i : Nat) :
    (lots w l i).count (i + j) = w x := by
  induction l generalizing i j with
  | nil => cases h
  | cons y l ih =>
      rw [lots, List.count_append]
      cases j with
      | zero =>
          cases h
          have hlater : (lots w l (i + 1)).count i = 0 := by
            refine List.count_eq_zero.mpr fun hmem => ?_
            obtain ⟨j, -, hj, -⟩ := mem_lots hmem
            omega
          rw [Nat.add_zero, List.count_replicate_self, hlater, Nat.add_zero]
      | succ j =>
          have hfirst : (List.replicate (w y) i).count (i + (j + 1)) = 0 := by
            refine List.count_eq_zero.mpr fun hmem => ?_
            have := List.eq_of_mem_replicate hmem
            omega
          have hrest := ih (j := j) (by simpa using h) (i + 1)
          rw [hfirst, Nat.zero_add, ← hrest]
          congr 1
          omega

/-- An index is drawn for as many positions as it has lots. -/
theorem countP_range_getElem? (l : List Nat) (k : Nat) :
    (List.range l.length).countP (fun r => l[r]? = some k) = l.count k := by
  have hmap : (List.range l.length).map (fun r => l[r]?) = l.map some := by
    apply List.ext_getElem?
    intro r
    rw [List.getElem?_map, List.getElem?_map]
    by_cases hr : r < l.length
    · simp [hr]
    · simp [hr]
  have hcount : (l.map some).count (some k) = l.count k :=
    List.count_map_of_injective l some (Option.some_injective _) k
  rw [← hcount, ← hmap, List.count, List.countP_map]
  apply List.countP_congr
  intro r _
  simp

end Umicat.Base
