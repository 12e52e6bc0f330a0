import Mathlib.Data.List.Basic

/-!
# Blocks of a message

A message is cut into blocks of `n` bytes, and what is left is shorter than a block. A message that
comes in pieces has the same blocks when what is left of one piece goes in front of the next one.
-/

namespace Umicat.Base

variable {α : Type*} {n : Nat}

/-- The full blocks. -/
def blocks (n : Nat) (l : List α) : List (List α) :=
  (List.range (l.length / n)).map fun i => (l.drop (n * i)).take n

/-- What is left behind the full blocks. -/
def rest (n : Nat) (l : List α) : List α := l.drop (n * (l.length / n))

theorem length_rest (n : Nat) (l : List α) : (rest n l).length = l.length % n := by
  rw [rest, List.length_drop, Nat.mod_def]

theorem blocks_of_lt {l : List α} (h : l.length < n) : blocks n l = [] := by
  simp [blocks, Nat.div_eq_of_lt h]

theorem rest_of_lt {l : List α} (h : l.length < n) : rest n l = l := by
  simp [rest, Nat.div_eq_of_lt h]

theorem length_drop_div (hn : 0 < n) {l : List α} (h : n ≤ l.length) :
    l.length / n = (l.drop n).length / n + 1 := by
  rw [List.length_drop, Nat.div_eq_sub_div hn h]

theorem blocks_of_le (hn : 0 < n) {l : List α} (h : n ≤ l.length) :
    blocks n l = l.take n :: blocks n (l.drop n) := by
  unfold blocks
  rw [length_drop_div hn h, List.range_succ_eq_map, List.map_cons, List.map_map]
  congr 1
  refine List.map_congr_left fun i _ => ?_
  rw [Function.comp_apply, List.drop_drop, Nat.mul_succ, Nat.add_comm]

theorem rest_of_le (hn : 0 < n) {l : List α} (h : n ≤ l.length) :
    rest n l = rest n (l.drop n) := by
  unfold rest
  rw [length_drop_div hn h, List.drop_drop, Nat.mul_succ, Nat.add_comm n]

/-- The message may be cut anywhere. -/
theorem blocks_append (hn : 0 < n) (l m : List α) :
    blocks n (l ++ m) = blocks n l ++ blocks n (rest n l ++ m) ∧
      rest n (l ++ m) = rest n (rest n l ++ m) := by
  induction hk : l.length / n generalizing l with
  | zero =>
      have hlt : l.length < n := by
        rcases Nat.div_eq_zero_iff.mp hk with h | h
        · omega
        · exact h
      rw [blocks_of_lt hlt, rest_of_lt hlt]
      exact ⟨rfl, rfl⟩
  | succ k ih =>
      have hle : n ≤ l.length := by
        by_contra hlt
        rw [Nat.div_eq_of_lt (Nat.lt_of_not_le hlt)] at hk
        cases hk
      have happ : n ≤ (l ++ m).length := by rw [List.length_append]; omega
      have htake : (l ++ m).take n = l.take n := List.take_append_of_le_length hle
      have hdrop : (l ++ m).drop n = l.drop n ++ m := List.drop_append_of_le_length hle
      have hlen : (l.drop n).length / n = k := by
        have := length_drop_div hn hle
        omega
      obtain ⟨hblocks, hrest⟩ := ih (l.drop n) hlen
      rw [blocks_of_le hn happ, rest_of_le hn happ, blocks_of_le hn hle, rest_of_le hn hle, htake,
        hdrop]
      exact ⟨by rw [hblocks]; rfl, hrest⟩

end Umicat.Base
