import Mathlib.Data.List.Basic

/-!
# Memory behind a pointer

A buffer is the memory from its first byte on. Reading past its end yields whatever stands there.
-/

namespace Umicat.Base

variable {β : Type}

def store (buf : Nat → β) (off : Nat) (bs : List β) : Nat → β :=
  fun k => if h : off ≤ k ∧ k - off < bs.length then bs.get ⟨k - off, h.2⟩ else buf k

def load (buf : Nat → β) (off n : Nat) : List β := (List.range n).map fun k => buf (off + k)

@[simp] theorem length_load (buf : Nat → β) (off n : Nat) : (load buf off n).length = n := by
  simp [load]

@[simp] theorem load_zero (buf : Nat → β) (off : Nat) : load buf off 0 = [] := rfl

theorem load_add (buf : Nat → β) (off m n : Nat) :
    load buf off (m + n) = load buf off m ++ load buf (off + m) n := by
  simp [load, List.range_add, Function.comp_def, Nat.add_assoc]

theorem load_succ_ne_nil (buf : Nat → β) (off n : Nat) : load buf off (n + 1) ≠ [] :=
  List.ne_nil_of_length_pos (by simp)

theorem take_load (buf : Nat → β) (off m n : Nat) :
    (load buf off n).take m = load buf off (min m n) := by
  simp [load, ← List.map_take, List.take_range]

theorem drop_load (buf : Nat → β) (off m n : Nat) :
    (load buf off n).drop m = load buf (off + m) (n - m) := by
  rcases Nat.le_total m n with h | h
  · obtain ⟨k, rfl⟩ := Nat.exists_eq_add_of_le h
    rw [load_add, List.drop_left' (length_load ..), Nat.add_sub_cancel_left]
  · rw [List.drop_of_length_le (by simpa using h), Nat.sub_eq_zero_of_le h, load_zero]

theorem load_congr {buf buf' : Nat → β} {off off' n : Nat}
    (h : ∀ k < n, buf (off + k) = buf' (off' + k)) : load buf off n = load buf' off' n :=
  List.map_congr_left fun k hk => h k (List.mem_range.mp hk)

theorem load_store_self (buf : Nat → β) (off : Nat) (bs : List β) :
    load (store buf off bs) off bs.length = bs := by
  apply List.ext_getElem
  · simp
  · intro k h₁ h₂
    simp [load, store, h₂]

theorem load_store_below (buf : Nat → β) {off n : Nat} (k : Nat) (bs : List β) (h : off + n ≤ k) :
    load (store buf k bs) off n = load buf off n := by
  refine load_congr fun j hj => ?_
  have hlt : ¬(k ≤ off + j ∧ off + j - k < bs.length) := by omega
  simp only [store, hlt, ↓reduceDIte]

theorem store_of_lt (buf : Nat → β) {off k : Nat} (bs : List β) (h : k < off) :
    store buf off bs k = buf k := by
  have hout : ¬(off ≤ k ∧ k - off < bs.length) := by omega
  simp only [store, hout, ↓reduceDIte]

theorem store_of_le (buf : Nat → β) {off k : Nat} (bs : List β) (h : off + bs.length ≤ k) :
    store buf off bs k = buf k := by
  have hout : ¬(off ≤ k ∧ k - off < bs.length) := by omega
  simp only [store, hout, ↓reduceDIte]

@[simp] theorem store_nil (buf : Nat → β) (off : Nat) : store buf off [] = buf := by
  funext k
  simp [store]

theorem store_singleton (buf : Nat → β) (off k : Nat) (b : β) :
    store buf off [b] k = if k = off then b else buf k := by
  rcases Nat.lt_trichotomy k off with h | rfl | h
  · rw [store_of_lt buf [b] h, if_neg (by omega)]
  · simp [store]
  · rw [store_of_le buf [b] h, if_neg (by omega)]

theorem store_append (buf : Nat → β) (off : Nat) (bs cs : List β) :
    store (store buf off bs) (off + bs.length) cs = store buf off (bs ++ cs) := by
  funext k
  rcases Nat.lt_or_ge k (off + bs.length) with hk | hk
  · rw [store_of_lt _ cs hk]
    rcases Nat.lt_or_ge k off with ho | ho
    · rw [store_of_lt buf bs ho, store_of_lt buf _ ho]
    · have hlt : k - off < bs.length := by omega
      have hlt' : k - off < bs.length + cs.length := by omega
      simp [store, ho, hlt, hlt', List.getElem_append_left]
  · rcases Nat.lt_or_ge k (off + bs.length + cs.length) with hc | hc
    · have ho : off ≤ k := by omega
      have hsub : k - (off + bs.length) < cs.length := by omega
      have hlt : k - off < bs.length + cs.length := by omega
      have hle : bs.length ≤ k - off := by omega
      simp [store, ho, hk, hlt, hsub, List.getElem_append_right hle, Nat.sub_sub]
    · rw [store_of_le _ cs hc, store_of_le buf bs hk, store_of_le buf _ (by simp; omega)]

theorem store_add (buf : Nat → β) (off j : Nat) (bs : List β) :
    store buf off bs (off + j) = bs[j]?.getD (buf (off + j)) := by
  rcases Nat.lt_or_ge j bs.length with h | h
  · simp [store, h]
  · rw [store_of_le buf bs (by omega), List.getElem?_eq_none h]
    rfl

/-- A text and its terminator leave the memory from `n` on alone if and only if they take at most
`n` elements. -/
theorem store_fits_iff {z b : β} (h : b ≠ z) (n : Nat) (bs : List β) :
    (∀ k ≥ n, store (fun _ => b) 0 (bs ++ [z]) k = b) ↔ bs.length + 1 ≤ n := by
  constructor
  · intro hframe
    by_contra hn
    have hend := store_add (fun _ => b) 0 bs.length (bs ++ [z])
    rw [Nat.zero_add, hframe bs.length (by omega)] at hend
    simp at hend
    exact h hend
  · intro hle k hk
    exact store_of_le _ _ (by simp; omega)

/-! ## Reversal in place -/

def swap (buf : Nat → β) (a b : Nat) : Nat → β :=
  fun k => if k = b then buf a else if k = a then buf b else buf k

/-- Swaps from both ends of `k, …, i - 1` inwards. -/
theorem foldl_swap (buf : Nat → β) {k i m : Nat} (h : k + 2 * m ≤ i + 1) (p : Nat) :
    (List.range' k m).foldl (fun buf j => swap buf j (i - 1 + k - j)) buf p =
      if k ≤ p ∧ p < k + m ∨ i ≤ p + m ∧ p < i then buf (i - 1 + k - p) else buf p := by
  induction m generalizing p with
  | zero =>
      rw [if_neg (by omega)]
      rfl
  | succ m ih =>
      have ih := ih (by omega)
      rw [List.range'_1_concat, List.foldl_append]
      simp only [List.foldl_cons, List.foldl_nil, swap, ih]
      -- the two positions of this swap are outside of the ones that are done
      rw [if_neg (show ¬(k ≤ k + m ∧ k + m < k + m ∨ i ≤ k + m + m ∧ k + m < i) by omega)]
      by_cases hb : p = i - 1 + k - (k + m)
      · rw [if_pos hb, if_pos (by omega)]
        exact congrArg buf (by omega)
      · rw [if_neg hb]
        by_cases ha : p = k + m
        · rw [if_pos ha, if_neg (by omega), if_pos (by omega)]
          exact congrArg buf (by omega)
        · rw [if_neg ha]
          by_cases hp : k ≤ p ∧ p < k + m ∨ i ≤ p + m ∧ p < i
          · rw [if_pos hp, if_pos (by omega)]
          · rw [if_neg hp, if_neg (by omega)]

/-- As many swaps as the segment has pairs, with or without the middle of it. -/
theorem foldl_swap_store (buf : Nat → β) (k : Nat) (bs cs : List β) {i m : Nat}
    (hi : i = k + bs.length) (hle : 2 * m ≤ bs.length + 1) (hge : bs.length ≤ 2 * m + 1) :
    (List.range' k m).foldl (fun buf j => swap buf j (i - 1 + k - j)) (store buf k (bs ++ cs)) =
      store buf k (bs.reverse ++ cs) := by
  funext p
  rw [foldl_swap _ (by omega)]
  rcases Nat.lt_or_ge p k with hp | hp
  · rw [if_neg (by omega), store_of_lt _ _ hp, store_of_lt _ _ hp]
  · obtain ⟨j, rfl⟩ := Nat.exists_eq_add_of_le hp
    rw [store_add buf k j (bs.reverse ++ cs)]
    rcases Nat.lt_or_ge j bs.length with hj | hj
    · have hmirror : bs.length - 1 - j < bs.length := by omega
      rw [List.getElem?_append_left (by simpa using hj), List.getElem?_reverse hj]
      by_cases hdone : k ≤ k + j ∧ k + j < k + m ∨ i ≤ k + j + m ∧ k + j < i
      · have hpos : i - 1 + k - (k + j) = k + (bs.length - 1 - j) := by omega
        rw [if_pos hdone, hpos, store_add, List.getElem?_append_left hmirror,
          List.getElem?_eq_getElem hmirror]
        rfl
      · -- the middle of an odd number
        have hmid : bs.length - 1 - j = j := by omega
        rw [if_neg hdone, store_add, List.getElem?_append_left hj, hmid,
          List.getElem?_eq_getElem hj]
    · rw [if_neg (by omega), store_add, List.getElem?_append_right hj,
        List.getElem?_append_right (by simpa using hj), List.length_reverse]

/-- The bytes of a string literal. -/
def ascii (s : String) : List UInt8 := s.toList.map Char.toUInt8

/-- A property of all bytes, from one check for each of them. -/
theorem forall_byte {P : UInt8 → Prop} (h : ∀ n < 256, P (UInt8.ofNat n)) (c : UInt8) : P c := by
  have hc := h c.toNat c.toNat_lt
  rwa [UInt8.ofNat_toNat] at hc

end Umicat.Base
