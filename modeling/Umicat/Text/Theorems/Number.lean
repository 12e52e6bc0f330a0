import Mathlib.Data.Nat.Digits.Lemmas
import Umicat.Text.Number

/-!
# Printing and reading numbers
-/

namespace Umicat.Text

open Umicat.Base

/-! ## Numerals -/

/-- The digits of `n`, most significant first, with no zero in front of another digit. -/
structure IsDigits (radix n : Nat) (ds : List Nat) : Prop where
  ne_nil : ds ≠ []
  lt : ∀ d ∈ ds, d < radix
  value : Nat.ofDigits radix ds.reverse = n
  lead : ds.head? = some 0 → ds = [0]

/-- `s` is the canonical numeral of `n`. -/
def Numeral (radix n : Nat) (s : List UInt8) : Prop :=
  ∃ ds, IsDigits radix n ds ∧ s = ds.map digit

variable {radix n : Nat}

theorem IsDigits.single (h : n < radix) : IsDigits radix n [n] where
  ne_nil := List.cons_ne_nil _ _
  lt := by simpa using h
  value := by simp
  lead := by simp

theorem IsDigits.snoc {ds : List Nat} (hr : 0 < radix) (hn : n / radix ≠ 0)
    (h : IsDigits radix (n / radix) ds) : IsDigits radix n (ds ++ [n % radix]) where
  ne_nil := by simp
  lt := by
    intro d hd
    rcases List.mem_append.mp hd with hd | hd
    · exact h.lt d hd
    · rw [List.mem_singleton.mp hd]
      exact Nat.mod_lt _ hr
  value := by
    rw [List.reverse_append, List.reverse_singleton, List.singleton_append, Nat.ofDigits_cons,
      h.value]
    exact Nat.mod_add_div n radix
  lead := by
    intro h0
    rw [List.head?_append_of_ne_nil _ h.ne_nil] at h0
    have hv := h.value
    rw [h.lead h0] at hv
    exact absurd hv.symm (by simpa using hn)

theorem IsDigits.length_eq {ds : List Nat} (hr : 1 < radix) (h : IsDigits radix n ds) :
    ds.length = Nat.log radix n + 1 := by
  obtain ⟨d, ds', rfl⟩ := List.exists_cons_of_ne_nil h.ne_nil
  by_cases hd : d = 0
  · have hds := h.lead (by rw [hd]; rfl)
    have hv := h.value
    rw [hds] at hv ⊢
    rw [← hv]
    simp
  · have hdigits : Nat.digits radix n = (d :: ds').reverse := by
      rw [← h.value]
      refine Nat.digits_ofDigits radix hr _ (fun e he => h.lt e (List.mem_reverse.mp he)) ?_
      simpa using hd
    have hn : n ≠ 0 := by
      intro h0
      rw [h0, Nat.digits_zero] at hdigits
      simp at hdigits
    rw [← List.length_reverse, ← hdigits, Nat.length_digits radix n hr hn]

/-! ## `uct_itoa` -/

theorem putDigits_spec (hr : 2 ≤ radix) (fuel : Nat) (str : Nat → UInt8) (i : Nat)
    (h : n < 2 ^ (fuel + 1)) :
    ∃ ds : List Nat, IsDigits radix n ds.reverse ∧
      putDigits radix (fuel + 1) str i n = some (store str i (ds.map digit), i + ds.length) := by
  induction fuel generalizing n str i with
  | zero =>
      have hn : n < radix := by omega
      refine ⟨[n], IsDigits.single hn, ?_⟩
      simp [putDigits, Nat.div_eq_of_lt hn, Nat.mod_eq_of_lt hn]
  | succ fuel ih =>
      rw [putDigits]
      by_cases hn : n / radix = 0
      · have hlt : n < radix := by
          rcases Nat.div_eq_zero_iff.mp hn with h0 | hlt
          · omega
          · exact hlt
        refine ⟨[n], IsDigits.single hlt, ?_⟩
        simp [hn, Nat.mod_eq_of_lt hlt]
      · have hhalf : n / radix < 2 ^ (fuel + 1) := by
          have hle : n / radix ≤ n / 2 := Nat.div_le_div_left hr (by decide)
          omega
        obtain ⟨ds, hds, heq⟩ := ih (store str i [digit (n % radix)]) (i + 1) hhalf
        refine ⟨n % radix :: ds, ?_, ?_⟩
        · rw [List.reverse_cons]
          exact hds.snoc (by omega) hn
        · have hstore := store_append str i [digit (n % radix)] (ds.map digit)
          simp only [List.length_singleton, List.singleton_append] at hstore
          simp only [hn, ↓reduceIte, heq, hstore, List.map_cons, List.length_cons]
          rw [Nat.add_assoc, Nat.add_comm 1]

theorem digit_ne_minus : ∀ d < 36, digit d ≠ 45 := by decide

theorem unum_lt (num : Int32) (radix : Nat) : unum num radix < 2 ^ 32 := by
  unfold unum
  split
  · exact UInt32.toNat_lt _
  · exact UInt32.toNat_lt _

/-- `-` in front of a negative number in radix 10. -/
def sign (num : Int32) (radix : Nat) : List UInt8 := if radix = 10 ∧ num < 0 then [45] else []

theorem itoa_spec (num : Int32) (str : Nat → UInt8) (hr : 2 ≤ radix) (hr' : radix ≤ 36) :
    ∃ s, Numeral radix (unum num radix) s ∧
      itoa num str radix = some (store str 0 (sign num radix ++ s ++ [0])) := by
  by_cases hneg : radix = 10 ∧ num < 0
  · obtain ⟨ds, hds, hput⟩ := putDigits_spec hr 31 (store str 0 [45]) 1 (unum_lt num radix)
    refine ⟨(ds.map digit).reverse, ⟨ds.reverse, hds, List.map_reverse.symm⟩, ?_⟩
    have hlen : 1 + ds.length = 1 + (ds.map digit).length := by rw [List.length_map]
    have hstore := store_append (store str 0 [45]) 1 (ds.map digit) [0]
    rw [← hlen] at hstore
    have hminus : store (store str 0 [45]) 1 (ds.map digit ++ [0]) 0 = 45 := by
      rw [store_of_lt _ _ Nat.one_pos, store_singleton, if_pos rfl]
    have hrev := foldl_swap_store (store str 0 [45]) 1 (ds.map digit) [0] (m := (1 + ds.length - 1) / 2)
      hlen (by rw [List.length_map]; omega) (by rw [List.length_map]; omega)
    have hfront := store_append str 0 [45] ((ds.map digit).reverse ++ [0])
    simp only [List.length_singleton, Nat.zero_add] at hfront
    simp only [itoa, if_pos hneg, sign, hput, Option.bind_eq_bind, Option.bind_some, hstore,
      hminus, ↓reduceIte, Nat.add_sub_cancel, hrev, hfront, List.append_assoc]
  · obtain ⟨ds, hds, hput⟩ := putDigits_spec hr 31 str 0 (unum_lt num radix)
    refine ⟨(ds.map digit).reverse, ⟨ds.reverse, hds, List.map_reverse.symm⟩, ?_⟩
    have hlen : 0 + ds.length = 0 + (ds.map digit).length := by rw [List.length_map]
    have hpos : 0 < ds.length := List.length_pos_iff.mpr (by simpa using hds.ne_nil)
    have hstore := store_append str 0 (ds.map digit) [0]
    rw [← hlen] at hstore
    have hminus : store str 0 (ds.map digit ++ [0]) 0 ≠ 45 := by
      obtain ⟨d, ds', rfl⟩ := List.exists_cons_of_length_pos hpos
      have hd : d < radix := hds.lt d (by simp)
      simpa [store] using digit_ne_minus d (by omega)
    have hrev := foldl_swap_store str 0 (ds.map digit) [0] (m := (0 + ds.length - 1) / 2 + 1)
      hlen (by rw [List.length_map]; omega) (by rw [List.length_map]; omega)
    simp only [itoa, if_neg hneg, sign, hput, Option.bind_eq_bind, Option.bind_some, hstore,
      hminus, ↓reduceIte, Nat.sub_zero, hrev, List.nil_append]

theorem toNat_unsigned_neg {num : Int32} (h : num < 0) :
    (-num).toUInt32.toNat = num.toInt.natAbs := by
  have hneg : num.toInt < 0 := by simpa [Int32.lt_iff_toInt_lt] using h
  rw [← Int32.toInt_toBitVec, BitVec.toInt_eq_toNat_cond] at hneg ⊢
  rw [← Int32.toNat_toBitVec, Int32.toBitVec_neg, BitVec.toNat_neg]
  have hlt := num.toBitVec.isLt
  split at hneg
  · omega
  · rw [if_neg ‹_›]
    omega

theorem toNat_unsigned_of_nonneg {num : Int32} (h : 0 ≤ num) :
    num.toUInt32.toNat = num.toInt.natAbs := by
  rw [Int32.toNat_toUInt32_of_le h, Int32.toNatClampNeg]
  have hpos : 0 ≤ num.toInt := by simpa [Int32.le_iff_toInt_le] using h
  omega

/-- The text of `num`: signed in radix 10 and taken as unsigned in any other. -/
def Printed (num : Int32) (radix : Nat) (s : List UInt8) : Prop :=
  if radix = 10 then
    if num < 0 then ∃ t, s = 45 :: t ∧ Numeral 10 num.toInt.natAbs t
    else Numeral 10 num.toInt.natAbs s
  else Numeral radix num.toUInt32.toNat s

theorem itoa_printed (num : Int32) (str : Nat → UInt8) (hr : 2 ≤ radix) (hr' : radix ≤ 36) :
    ∃ s, Printed num radix s ∧ itoa num str radix = some (store str 0 (s ++ [0])) := by
  obtain ⟨s, hs, heq⟩ := itoa_spec num str hr hr'
  refine ⟨sign num radix ++ s, ?_, heq⟩
  unfold Printed
  by_cases h10 : radix = 10
  · rw [if_pos h10]
    by_cases hneg : num < 0
    · rw [unum, if_pos ⟨h10, hneg⟩, toNat_unsigned_neg hneg, h10] at hs
      rw [if_pos hneg, sign, if_pos ⟨h10, hneg⟩]
      exact ⟨s, rfl, hs⟩
    · rw [unum, if_neg (fun h => hneg h.2), toNat_unsigned_of_nonneg (Int32.not_lt.mp hneg), h10] at hs
      rw [if_neg hneg, sign, if_neg (fun h => hneg h.2)]
      exact hs
  · rw [unum, if_neg (fun h => h10 h.1)] at hs
    rw [if_neg h10, sign, if_neg (fun h => h10 h.1)]
    exact hs

/-- The number of characters of `n` in decimal. -/
def width (n : Int) : Nat := (if n < 0 then 1 else 0) + (Nat.log 10 n.natAbs + 1)

theorem Printed.length_eq {num : Int32} {s : List UInt8} (h : Printed num 10 s) :
    s.length = width num.toInt := by
  have hsign : num < 0 ↔ num.toInt < 0 := by simp [Int32.lt_iff_toInt_lt]
  rw [Printed, if_pos rfl] at h
  unfold width
  split at h
  · next hneg =>
      obtain ⟨t, rfl, ds, hds, rfl⟩ := h
      rw [if_pos (hsign.mp hneg), List.length_cons, List.length_map,
        hds.length_eq (by decide), Nat.add_comm]
  · next hneg =>
      obtain ⟨ds, hds, rfl⟩ := h
      rw [if_neg (fun h => hneg (hsign.mpr h)), List.length_map, hds.length_eq (by decide),
        Nat.zero_add]

/-! ## `uct_atoi` -/

def IsDigit (c : UInt8) : Prop := 48 ≤ c ∧ c ≤ 57

instance (c : UInt8) : Decidable (IsDigit c) := inferInstanceAs (Decidable (_ ∧ _))

def AllDigits (line : List UInt8) : Prop := ∀ c ∈ line, IsDigit c

instance (line : List UInt8) : Decidable (AllDigits line) := List.decidableBAll IsDigit line

@[simp] theorem allDigits_nil : AllDigits [] := nofun

@[simp] theorem allDigits_cons {c : UInt8} {line : List UInt8} :
    AllDigits (c :: line) ↔ IsDigit c ∧ AllDigits line := List.forall_mem_cons

/-- The number that a string of digits stands for. -/
def decimal (line : List UInt8) : Nat := Nat.ofDigits 10 (line.reverse.map fun c => c.toNat - 48)

theorem decimal_cons (c : UInt8) (line : List UInt8) :
    decimal (c :: line) = (c.toNat - 48) * 10 ^ line.length + decimal line := by
  simp only [decimal, List.reverse_cons, List.map_append, List.map_cons, List.map_nil,
    Nat.ofDigits_append, Nat.ofDigits_singleton, List.length_map, List.length_reverse]
  rw [Nat.mul_comm, Nat.add_comm]

theorem int64_eq_some {n : Int} (h₀ : 0 ≤ n) (h : n ≤ maxSizeTValue) : int64 n = some n := by
  unfold maxSizeTValue at h
  exact if_pos ⟨by omega, by omega⟩

section Digit

variable {c : UInt8} {line : List UInt8} {value : Nat}

theorem atoiLoop_of_not_digit (hc : ¬IsDigit c) (v : Int) : atoiLoop (c :: line) v = some uctError := by
  have hdigit : c < 48 ∨ 57 < c := by
    simp only [IsDigit, UInt8.le_iff_toNat_le, UInt8.lt_iff_toNat_lt] at hc ⊢
    omega
  rw [atoiLoop, if_pos hdigit]

theorem IsDigit.range (hc : IsDigit c) :
    48 ≤ c.toNat ∧ c.toNat ≤ 57 ∧ ¬(c < 48 ∨ 57 < c) := by
  have hlow : 48 ≤ c.toNat := UInt8.le_iff_toNat_le.mp hc.1
  have hhigh : c.toNat ≤ 57 := UInt8.le_iff_toNat_le.mp hc.2
  simp only [UInt8.lt_iff_toNat_lt, UInt8.reduceToNat]
  omega

/-- The cut-off lets a digit pass exactly when the value still fits. -/
theorem cutoff_iff (hc : IsDigit c) :
    ((value : Int) ≥ maxSizeTValue / 10 ∧
      ((value : Int) > maxSizeTValue / 10 ∨ (c.toNat : Int) - 48 > maxSizeTValue % 10)) ↔
      ¬value * 10 + (c.toNat - 48) ≤ 2 ^ 63 - 1 := by
  obtain ⟨hlow, hhigh, -⟩ := hc.range
  unfold maxSizeTValue
  omega

theorem atoiLoop_of_over (hc : IsDigit c) (hover : ¬value * 10 + (c.toNat - 48) ≤ 2 ^ 63 - 1) :
    atoiLoop (c :: line) value = some uctError := by
  rw [atoiLoop, if_neg hc.range.2.2, if_pos ((cutoff_iff hc).mpr hover)]

/-- A digit that fits: neither the product nor the sum overflows. -/
theorem atoiLoop_of_le (hc : IsDigit c) (hle : value * 10 + (c.toNat - 48) ≤ 2 ^ 63 - 1) :
    atoiLoop (c :: line) value = atoiLoop line (value * 10 + (c.toNat - 48) : Nat) := by
  obtain ⟨hlow, hhigh, hdigit⟩ := hc.range
  have hcut := fun h => (cutoff_iff hc).mp h hle
  have h₁ : int64 ((value : Int) * 10) = some ((value : Int) * 10) :=
    int64_eq_some (by omega) (by unfold maxSizeTValue; omega)
  have h₂ : int64 ((value : Int) * 10 + ((c.toNat : Int) - 48)) =
      some (((value * 10 + (c.toNat - 48) : Nat)) : Int) := by
    have hdig : ((c.toNat : Int) - 48) = ((c.toNat - 48 : Nat) : Int) := by omega
    rw [hdig]
    push_cast
    exact int64_eq_some (by omega) (by unfold maxSizeTValue; omega)
  rw [atoiLoop, if_neg hdigit, if_neg hcut, h₁, Option.bind_eq_bind, Option.bind_some, h₂,
    Option.bind_some]

end Digit

theorem atoiLoop_eq (line : List UInt8) (value : Nat) (h : value ≤ 2 ^ 63 - 1) :
    atoiLoop line value =
      some (if AllDigits line ∧
          value * 10 ^ line.length + decimal line ≤ 2 ^ 63 - 1 then
        ((value * 10 ^ line.length + decimal line : Nat) : Int) else uctError) := by
  induction line generalizing value with
  | nil =>
      rw [if_pos ⟨by simp, by simpa [decimal] using h⟩]
      simp [atoiLoop, decimal]
  | cons c line ih =>
      by_cases hc : IsDigit c
      · have hvalue : value * 10 ^ (c :: line).length + decimal (c :: line) =
            (value * 10 + (c.toNat - 48)) * 10 ^ line.length + decimal line := by
          rw [decimal_cons, List.length_cons, Nat.pow_succ']
          ring
        rw [hvalue]
        by_cases hover : value * 10 + (c.toNat - 48) ≤ 2 ^ 63 - 1
        · rw [atoiLoop_of_le hc hover, ih _ hover]
          simp [hc]
        · -- the digits to come leave the value of the ones before them at least as large
          have hgrow := Nat.le_mul_of_pos_right (value * 10 + (c.toNat - 48))
            (Nat.pow_pos (n := line.length) (show 0 < 10 by decide))
          rw [atoiLoop_of_over hc hover, if_neg (fun hle => by omega)]
      · rw [atoiLoop_of_not_digit hc, if_neg (fun hd => hc (hd.1 c List.mem_cons_self))]

theorem atoi_eq (line : List UInt8) :
    atoi line = some (if line ≠ [] ∧ AllDigits line ∧ decimal line ≤ 2 ^ 63 - 1 then
      (decimal line : Int) else uctError) := by
  by_cases hnil : line = []
  · simp [atoi, hnil]
  · have h := atoiLoop_eq line 0 (Nat.zero_le _)
    rw [Nat.zero_mul, Nat.zero_add] at h
    rw [atoi, if_neg hnil]
    simpa [hnil] using h

/-! ## Round trip -/

theorem digit_toNat : ∀ d < 10, (digit d).toNat = 48 + d := by decide

theorem Numeral.digits {s : List UInt8} (h : Numeral 10 n s) :
    s ≠ [] ∧ AllDigits s ∧ decimal s = n := by
  obtain ⟨ds, hds, rfl⟩ := h
  refine ⟨by simpa using hds.ne_nil, ?_, ?_⟩
  · intro c hc
    obtain ⟨d, hd, rfl⟩ := List.mem_map.mp hc
    have hlt := hds.lt d hd
    have := digit_toNat d hlt
    simp only [IsDigit, UInt8.le_iff_toNat_le, UInt8.reduceToNat]
    omega
  · have hback : ds.reverse.map (fun d => (digit d).toNat - 48) = ds.reverse := by
      conv_rhs => rw [← List.map_id ds.reverse]
      refine List.map_congr_left fun d hd => ?_
      have := digit_toNat d (hds.lt d (List.mem_reverse.mp hd))
      simp only [id]
      omega
    rw [decimal, ← List.map_reverse, List.map_map, Function.comp_def, hback, hds.value]

theorem atoi_itoa (num : Int32) (str : Nat → UInt8) (h : 0 ≤ num) :
    ∃ s, itoa num str 10 = some (store str 0 (s ++ [0])) ∧ 0 ∉ s ∧ atoi s = some num.toInt := by
  obtain ⟨s, hs, heq⟩ := itoa_printed num str (by decide : 2 ≤ 10) (by decide)
  rw [Printed, if_pos rfl, if_neg (Int32.not_lt.mpr h)] at hs
  obtain ⟨hne, hdigits, hvalue⟩ := hs.digits
  have hpos : 0 ≤ num.toInt := by simpa [Int32.le_iff_toInt_le] using h
  have hmax : num.toInt < 2 ^ 31 := num.toInt_lt
  refine ⟨s, heq, fun h0 => absurd (hdigits 0 h0) (by decide), ?_⟩
  rw [atoi_eq, if_pos ⟨hne, hdigits, by omega⟩, hvalue]
  exact congrArg some (by omega)

/-- `uct_itoa` writes the canonical numeral and its terminator and nothing else; `uct_atoi` accepts
the strings of digits whose value fits, with their value; and it reads back what `uct_itoa` wrote. -/
theorem itoa_atoi_agree :
    (∀ (num : Int32) (str : Nat → UInt8) (radix : Nat), 2 ≤ radix → radix ≤ 36 →
      ∃ s, Printed num radix s ∧ itoa num str radix = some (store str 0 (s ++ [0]))) ∧
    (∀ line : List UInt8, atoi line =
      some (if line ≠ [] ∧ AllDigits line ∧ decimal line ≤ 2 ^ 63 - 1 then
        (decimal line : Int) else uctError)) ∧
    ∀ (num : Int32) (str : Nat → UInt8), 0 ≤ num →
      ∃ s, itoa num str 10 = some (store str 0 (s ++ [0])) ∧ 0 ∉ s ∧ atoi s = some num.toInt :=
  ⟨fun num str _ => itoa_printed num str, atoi_eq, atoi_itoa⟩

theorem itoa_atoi_agree_least :
    (∃ s, Printed (-2147483648) 10 s ∧
      itoa (-2147483648) (fun _ => 7) 10 = some (store (fun _ => 7) 0 (s ++ [0]))) ∧
    atoi (ascii "9223372036854775808") = some uctError ∧
    ∃ s, itoa 65535 (fun _ => 7) 10 = some (store (fun _ => 7) 0 (s ++ [0])) ∧ 0 ∉ s ∧
      atoi s = some 65535 :=
  ⟨itoa_atoi_agree.1 _ _ _ (by decide) (by decide),
    (itoa_atoi_agree.2.1 _).trans (by decide +kernel), itoa_atoi_agree.2.2 65535 _ (by decide)⟩

end Umicat.Text
