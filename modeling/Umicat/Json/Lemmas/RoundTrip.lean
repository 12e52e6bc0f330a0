import Umicat.Json.Lemmas.Print

/-!
# Reading what was printed

The parser in front of a printed text and any rest. Each lemma gives the value and says how far the
parser goes.
-/

namespace Umicat.Json

open Umicat.Base
open Umicat.Base.Program
open Umicat.Config (JsonType)

variable {alloc : Nat → Bool} {content : List UInt8} {s : State}

/-! ## Positions in the text -/

theorem drop_add_of_append {o : Nat} {t l : List UInt8} (h : content.drop o = t ++ l) :
    content.drop (o + t.length) = l := by
  rw [← List.drop_drop, h, List.drop_left]

theorem readAt_of_drop {l : List UInt8} {i : Nat} {b : UInt8} (h : content.drop s.offset = l)
    (hb : l[i]? = some b) : readAt content i s = .ok b s := by
  rw [← h, List.getElem?_drop] at hb
  simp only [readAt, hb]

theorem looksAt_of_drop {b c : UInt8} {l : List UInt8} (h : content.drop s.offset = b :: l) :
    looksAt content c s = (b == c) := by
  have hget : content[s.offset]? = some b := by
    rw [← List.head?_drop, h]
    rfl
  simp [looksAt, hget]

theorem lt_length_of_drop {o : Nat} {b : UInt8} {l : List UInt8} (h : content.drop o = b :: l) :
    o < content.length := by
  have := congrArg List.length h
  rw [List.length_drop, List.length_cons] at this
  omega

/-- White space in front of a byte that is none. -/
theorem skipTo_of_drop {o : Nat} {ws l : List UInt8} {b : UInt8}
    (h : content.drop o = ws ++ b :: l) (hws : ∀ c ∈ ws, c ≤ 32) (hb : ¬b ≤ 32) :
    skipTo content o = o + ws.length := by
  have htake : (content.drop o).takeWhile (· ≤ 32) = ws := by
    rw [h, List.takeWhile_append_of_pos (by simpa using hws), List.takeWhile_cons]
    simp [hb]
  have hlen := congrArg List.length h
  rw [List.length_drop, List.length_append, List.length_cons] at hlen
  have hlt : o < content.length := by omega
  have hne : o + ws.length ≠ content.length := by omega
  simp only [skipTo, hlt, htake, hne, ↓reduceIte]

/-! ## Strings -/

theorem hexValue_digit : ∀ d < 16, hexValue (UInt8.ofNat (if d < 10 then 48 + d else 87 + d)) =
    some d := by
  decide

theorem parseHex4_sprintfX {b : UInt8} {l : List UInt8}
    (h : content.drop s.offset = 92 :: 117 :: sprintfX b ++ l) :
    parseHex4 content 2 s = .ok b.toNat s := by
  have hlt := b.toNat_lt
  have h₂ := readAt_of_drop (i := 2) h rfl
  have h₃ := readAt_of_drop (i := 3) h rfl
  have h₄ := readAt_of_drop (i := 4) h rfl
  have h₅ := readAt_of_drop (i := 5) h rfl
  have hzero : hexValue 48 = some 0 := by decide
  have hhi := hexValue_digit (b.toNat / 16) (by omega)
  have hlo := hexValue_digit (b.toNat % 16) (by omega)
  unfold parseHex4
  simp only [parseHex4Loop, bind_ok h₂, bind_ok h₃, bind_ok h₄, bind_ok h₅, hzero, hhi, hlo,
    pure_apply]
  congr 1
  simp only [Nat.shiftLeft_eq]
  simp
  omega

theorem utf16LiteralToUtf8_sprintfX {b : UInt8} {l : List UInt8} {stop : Nat} (hb : b < 32)
    (h : content.drop s.offset = 92 :: 117 :: sprintfX b ++ l) (hstop : s.offset + 6 ≤ stop) :
    utf16LiteralToUtf8 content stop s = .ok (6, [b]) s := by
  have hlt : b.toNat < 32 := hb
  have hencoded : encoded 6 b.toNat s = .ok (6, [b]) s := by
    have hbyte : UInt8.ofNat (b.toNat &&& 127) = b := by
      have hand : b.toNat &&& 127 = b.toNat := by
        rw [show 127 = 2 ^ 7 - 1 by rfl, Nat.and_two_pow_sub_one_eq_mod]
        omega
      rw [hand, UInt8.ofNat_toNat]
    have hlt' : b.toNat < 128 := by omega
    simp [encoded, encodeUtf8, hlt', encodeBytes, encodeTail, hbyte]
  unfold utf16LiteralToUtf8
  rw [get_bind, if_neg (by omega), bind_ok (parseHex4_sprintfX h), if_neg (by omega),
    if_neg (by omega), hencoded]

/-- What the printer writes for a byte: the byte, a backslash and a letter, or a literal. -/
theorem escapeByte_cases (b : UInt8) :
    (escapeByte b = [b] ∧ b ≠ 34 ∧ b ≠ 92) ∨
    (∃ e, escapeByte b = [92, e] ∧ unescape e = some b) ∨
    (escapeByte b = 92 :: 117 :: sprintfX b ∧ b < 32) := by
  by_cases hplain : b > 31 ∧ b ≠ 34 ∧ b ≠ 92
  · exact .inl ⟨by simp [escapeByte, hplain], hplain.2⟩
  · right
    unfold escapeByte
    rw [if_neg hplain]
    split
    · next h => exact .inl ⟨92, rfl, by rw [h]; rfl⟩
    split
    · next h => exact .inl ⟨34, rfl, by rw [h]; rfl⟩
    split
    · next h => exact .inl ⟨98, rfl, by rw [h]; rfl⟩
    split
    · next h => exact .inl ⟨102, rfl, by rw [h]; rfl⟩
    split
    · next h => exact .inl ⟨110, rfl, by rw [h]; rfl⟩
    split
    · next h => exact .inl ⟨114, rfl, by rw [h]; rfl⟩
    split
    · next h => exact .inl ⟨116, rfl, by rw [h]; rfl⟩
    · next h₁ h₂ _ _ _ _ _ =>
        right
        refine ⟨rfl, ?_⟩
        have hle : ¬b > 31 := fun h => hplain ⟨h, h₂, h₁⟩
        rw [gt_iff_lt, UInt8.lt_iff_toNat_lt] at hle
        rw [UInt8.lt_iff_toNat_lt]
        simp at hle ⊢
        omega

theorem scanString_plain {b : UInt8} (h₁ : b ≠ 34) (h₂ : b ≠ 92) (l : List UInt8) (n k : Nat) :
    scanString (b :: l) n k = scanString l (n + 1) k := by
  rw [scanString]
  · rintro rfl; exact absurd rfl h₁
  · rintro rfl; exact absurd rfl h₂
  · rintro _ _ rfl; exact absurd rfl h₂

theorem hexDigit_ne : ∀ d < 16, UInt8.ofNat (if d < 10 then 48 + d else 87 + d) ≠ 34 ∧
    UInt8.ofNat (if d < 10 then 48 + d else 87 + d) ≠ 92 := by
  decide

/-- The first pass skips one byte for an escape, and no more than are counted for it. -/
theorem scanString_escapeByte (b : UInt8) (l : List UInt8) (n k : Nat) :
    ∃ e, e ≤ escapeCharacters b ∧
      scanString (escapeByte b ++ l) n k =
        scanString l (n + (1 + escapeCharacters b)) (k + e) := by
  rw [← length_escapeByte]
  have hlen := length_escapeByte b
  rcases escapeByte_cases b with ⟨h, h34, h92⟩ | ⟨e, h, -⟩ | ⟨h, -⟩
  · refine ⟨0, by omega, ?_⟩
    rw [h]
    exact scanString_plain h34 h92 l n k
  · rw [h] at hlen ⊢
    refine ⟨1, by simp at hlen; omega, ?_⟩
    rw [List.cons_append, List.cons_append, List.nil_append, scanString]
    rfl
  · rw [h] at hlen ⊢
    refine ⟨1, by simp [sprintfX] at hlen; omega, ?_⟩
    have hlt := b.toNat_lt
    have hhi := hexDigit_ne (b.toNat / 16) (by omega)
    have hlo := hexDigit_ne (b.toNat % 16) (by omega)
    simp only [sprintfX, List.cons_append, List.nil_append]
    rw [scanString, scanString_plain (by decide) (by decide),
      scanString_plain (by decide) (by decide), scanString_plain hhi.1 hhi.2,
      scanString_plain hlo.1 hlo.2]
    rfl

theorem scanString_flatMap (t l : List UInt8) (n k : Nat) :
    ∃ k', scanString (t.flatMap escapeByte ++ 34 :: l) n k =
        some (n + (t.flatMap escapeByte).length, k') ∧
      t.length + k' ≤ (t.flatMap escapeByte).length + k := by
  induction t generalizing n k with
  | nil => exact ⟨k, by simp [scanString], by simp⟩
  | cons b t ih =>
      obtain ⟨e, he, hscan⟩ := scanString_escapeByte b (t.flatMap escapeByte ++ 34 :: l) n k
      obtain ⟨k', hk', hle⟩ := ih (n + (1 + escapeCharacters b)) (k + e)
      refine ⟨k', ?_, ?_⟩
      · rw [List.flatMap_cons, List.append_assoc, hscan, hk', List.length_append,
          length_escapeByte, Nat.add_assoc]
      · rw [List.flatMap_cons, List.length_append, length_escapeByte, List.length_cons]
        omega

theorem emit_ok {size : Nat} {output bs : List UInt8} (h : output.length + bs.length ≤ size) :
    emit size output bs s = .ok (output ++ bs) s := by
  simp only [emit, h, ↓reduceIte]
  rfl

/-- One round of the second pass takes what was printed for a byte and gives the byte. -/
theorem copyString_escapeByte {b : UInt8} {l output : List UInt8} {stop size fuel : Nat}
    (h : content.drop s.offset = escapeByte b ++ l)
    (hstop : s.offset + (escapeByte b).length ≤ stop) (hsize : output.length + 1 ≤ size) :
    copyString content stop size (fuel + 1) output s =
      copyString content stop size fuel (output ++ [b])
        { s with offset := s.offset + (escapeByte b).length } := by
  have hemit : emit size output [b] s = .ok (output ++ [b]) s := emit_ok hsize
  rw [copyString, get_bind]
  rcases escapeByte_cases b with ⟨hb, -, h92⟩ | ⟨e, hb, he⟩ | ⟨hb, hlt⟩
  · rw [hb] at h hstop ⊢
    rw [if_pos (by simp at hstop; omega), bind_ok (readAt_of_drop h rfl), if_pos h92,
      bind_ok hemit]
    rfl
  · rw [hb] at h hstop ⊢
    rw [if_pos (by simp at hstop; omega), bind_ok (readAt_of_drop h rfl), if_neg (by simp),
      bind_ok (readAt_of_drop (i := 1) h rfl)]
    simp only [he]
    rw [bind_ok hemit]
    rfl
  · rw [hb] at h hstop ⊢
    have hu : unescape 117 = none := by decide
    have hsix : s.offset + 6 ≤ stop := by simpa [sprintfX] using hstop
    have hlit := utf16LiteralToUtf8_sprintfX hlt h hsix
    rw [if_pos (by simp at hstop; omega), bind_ok (readAt_of_drop h rfl), if_neg (by simp),
      bind_ok (readAt_of_drop (i := 1) h rfl)]
    simp only [hu, ↓reduceIte]
    rw [bind_ok hlit]
    simp only
    rw [bind_ok hemit]
    rfl

theorem copyString_flatMap {t l output : List UInt8} (size : Nat) {fuel : Nat}
    (h : content.drop s.offset = t.flatMap escapeByte ++ l) (hfuel : t.length < fuel)
    (hsize : output.length + t.length ≤ size) :
    copyString content (s.offset + (t.flatMap escapeByte).length) size fuel output s =
      .ok (output ++ t) { s with offset := s.offset + (t.flatMap escapeByte).length } := by
  induction t generalizing s output fuel with
  | nil =>
      obtain ⟨fuel, rfl⟩ := Nat.exists_eq_succ_of_ne_zero (Nat.ne_of_gt hfuel)
      rw [copyString, get_bind, if_neg (by simp)]
      simp
  | cons b t ih =>
      obtain ⟨fuel, rfl⟩ := Nat.exists_eq_succ_of_ne_zero (Nat.ne_of_gt (Nat.zero_lt_of_lt hfuel))
      rw [List.flatMap_cons, List.append_assoc] at h
      have hlen : ((b :: t).flatMap escapeByte).length =
          (escapeByte b).length + (t.flatMap escapeByte).length := by
        rw [List.flatMap_cons, List.length_append]
      simp only [List.length_cons] at hfuel hsize
      rw [copyString_escapeByte h (by omega) (by omega), hlen, ← Nat.add_assoc]
      rw [ih (s := { s with offset := s.offset + (escapeByte b).length }) (drop_add_of_append h)
        (by omega) (by simp; omega)]
      simp

theorem takeWhile_ne_append {t : List UInt8} (h : 0 ∉ t) : (t ++ [0]).takeWhile (· ≠ 0) = t := by
  rw [List.takeWhile_append_of_pos]
  · simp
  · intro b hb
    simp only [ne_eq, decide_not, Bool.not_eq_eq_eq_not, Bool.not_true, decide_eq_false_iff_not]
    rintro rfl
    exact h hb

theorem allocate_ok (halloc : ∀ k, alloc k = true) :
    allocate alloc s = .ok () { s with allocs := s.allocs + 1, live := s.live + 1 } := by
  simp only [allocate, halloc, ↓reduceIte]

theorem parseString_quoted {t l : List UInt8} (halloc : ∀ k, alloc k = true)
    (h : content.drop s.offset = quoted (some t) ++ l) (ht : 0 ∉ t) :
    ∃ s', parseString alloc content s = .ok t s' ∧
      s'.offset = s.offset + (quoted (some t)).length := by
  have hbody : content.drop (s.offset + 1) = t.flatMap escapeByte ++ 34 :: l := by
    have := drop_add_of_append (t := [34]) (l := t.flatMap escapeByte ++ 34 :: l)
      (h.trans (by simp [quoted]))
    exact this
  obtain ⟨k, hscan, hk⟩ := scanString_flatMap t l 0 0
  have hlen := length_flatMap_escapeByte t
  generalize hn : (t.flatMap escapeByte).length = n at *
  have hcopy := copyString_flatMap (s := ⟨s.offset + 1, s.allocs + 1, s.live + 1⟩)
    (s.offset + 1 + n - s.offset - k + 1) hbody (show t.length < n + 1 by omega)
    (show ([] : List UInt8).length + t.length ≤ _ by simp only [List.length_nil]; omega)
  rw [hn] at hcopy
  refine ⟨⟨s.offset + 1 + n + 1, s.allocs + 1, s.live + 1⟩, ?_, ?_⟩
  · unfold parseString
    rw [get_bind, bind_ok (readAt_of_drop h (b := 34) rfl)]
    simp only [advance, modify_bind]
    rw [if_neg (by simp), hbody, hscan]
    simp only [Nat.zero_add]
    rw [bind_ok (allocate_ok halloc), bind_ok (onFail_ok hcopy),
      bind_ok (emit_ok (by simp only [List.nil_append, List.length_singleton]; omega))]
    simp only [modify_bind, List.nil_append, pure_apply, takeWhile_ne_append ht]
  · simp only [quoted, List.length_append, List.length_cons, List.length_nil, hn]
    omega

/-! ## Numbers -/

theorem digitsValue_append (ds : List UInt8) (d : UInt8) :
    digitsValue (ds ++ [d]) = digitsValue ds * 10 + (d.toNat - 48) := by
  simp [digitsValue]

theorem digitsValue_decimal (n : Nat) : digitsValue (decimal n) = n := by
  have hdigits : ∀ ds : List Nat, (∀ d ∈ ds, d < 10) →
      digitsValue (ds.reverse.map fun d => UInt8.ofNat (48 + d)) = Nat.ofDigits 10 ds := by
    intro ds hds
    induction ds with
    | nil => rfl
    | cons d ds ih =>
        have hd := hds d List.mem_cons_self
        rw [List.reverse_cons, List.map_append, List.map_singleton, digitsValue_append,
          ih fun d' hd' => hds d' (List.mem_cons_of_mem _ hd'), Nat.ofDigits_cons,
          UInt8.toNat_ofNat']
        omega
  unfold decimal
  split
  · next h => rw [h]; rfl
  · rw [hdigits _ fun d hd => Nat.digits_lt_base (by decide) hd, Nat.ofDigits_digits]

theorem decimal_ne_nil (n : Nat) : decimal n ≠ [] := by
  unfold decimal
  split
  · simp
  · next h => simp [Nat.digits_eq_nil_iff_eq_zero, h]

theorem takeWhile_decimal (n : Nat) : (decimal n).takeWhile isDigit = decimal n := by
  rw [List.takeWhile_eq_self_iff]
  exact decimal_digits n

/-- A numeral of digits behind a sign. -/
theorem strtod_decimal (sign : List UInt8) (n : Nat) (hsign : sign = [] ∨ sign = [45]) :
    strtod (sign ++ decimal n) =
      some (.ofRat (if sign = [] then (n : ℚ) else -(n : ℚ)), (sign ++ decimal n).length) := by
  obtain ⟨d, ds, hd⟩ := List.exists_cons_of_ne_nil (decimal_ne_nil n)
  have hdigit := decimal_digits n d (by rw [hd]; exact List.mem_cons_self)
  have h45 : d ≠ 45 := by rintro rfl; exact absurd hdigit (by decide)
  have h43 : d ≠ 43 := by rintro rfl; exact absurd hdigit (by decide)
  have hexp : exponentPart [] = (0, 0) := by decide
  have hhas : hasSign (sign ++ decimal n) = sign.length := by
    rcases hsign with rfl | rfl
    · simp [hasSign, hd, h45, h43]
    · simp [hasSign]
  have hhead : ((sign ++ decimal n).head? = some 45) ↔ sign ≠ [] := by
    rcases hsign with rfl | rfl
    · simp [hd, h45]
    · simp
  unfold strtod
  simp only [hhas, List.drop_left, takeWhile_decimal]
  rw [← List.drop_drop, List.drop_left, List.drop_length]
  simp only [List.head?_nil, decimal_ne_nil, false_and, ↓reduceIte, List.append_nil,
    digitsValue_decimal, reduceCtorEq, List.length_nil, Nat.add_zero, List.drop_nil, hexp, hhead,
    List.length_append]
  simp

theorem takeWhile_isNumberByte {t l : List UInt8} {b : UInt8} (ht : ∀ c ∈ t, isNumberByte c = true)
    (hlen : t.length ≤ 63) (hb : isNumberByte b = false) :
    ((t ++ b :: l).take 63).takeWhile isNumberByte = t := by
  obtain ⟨k, hk⟩ := Nat.exists_eq_add_of_le hlen
  rw [hk, List.take_length_add_append, List.takeWhile_append_of_pos ht]
  cases k with
  | zero => simp
  | succ k => simp [hb]

theorem isNumberByte_sprintfD (n : Int32) : ∀ c ∈ sprintfD n, isNumberByte c = true := by
  have hdecimal : ∀ m, ∀ c ∈ decimal m, isNumberByte c = true := by
    intro m c hc
    simp [isNumberByte, decimal_digits m c hc]
  unfold sprintfD
  split
  · intro c hc
    rcases List.mem_cons.mp hc with rfl | hc
    · decide
    · exact hdecimal _ c hc
  · exact hdecimal _

theorem strtod_sprintfD (n : Int32) :
    strtod (sprintfD n) = some (.finite n.toInt, (sprintfD n).length) := by
  have habs := natAbs_toInt_le n
  have hround : Double.ofRat (n.toInt : ℚ) = .finite n.toInt :=
    Double.ofRat_intCast (by rw [Int.abs_eq_natAbs]; omega)
  have hlt : n < 0 ↔ n.toInt < 0 := by
    rw [Int32.lt_iff_toInt_lt]
    rfl
  unfold sprintfD
  split
  · next h =>
      have hneg := hlt.mp h
      have hcast : -((n.toInt.natAbs : ℕ) : ℚ) = n.toInt := by
        have : -((n.toInt.natAbs : ℕ) : ℤ) = n.toInt := by omega
        exact_mod_cast this
      have := strtod_decimal [45] n.toInt.natAbs (.inr rfl)
      rw [if_neg (by simp), hcast, hround] at this
      exact this
  · next h =>
      have hcast : ((n.toInt.natAbs : ℕ) : ℚ) = n.toInt := by
        have : ((n.toInt.natAbs : ℕ) : ℤ) = n.toInt := by
          have := hlt.not.mp h
          omega
        rw [← Int.cast_natCast, this]
      have := strtod_decimal [] n.toInt.natAbs (.inl rfl)
      rw [if_pos rfl, hcast, hround] at this
      exact this

theorem saturate_intCast (n : Int32) : saturate (.finite n.toInt) = n := by
  have hmax : intMax.toInt = 2147483647 := by decide
  have hmin : intMin.toInt = -2147483648 := by decide
  have hlt := n.toInt_lt
  have hle := n.le_toInt
  simp only [saturate, Int.cast_le]
  split
  · rw [← Int32.toInt_inj]; omega
  split
  · rw [← Int32.toInt_inj]; omega
  · simp

/-! ## Values -/

/-- Every number is an `int`. -/
inductive Exact : Item → Prop
  | node {t k v n d cs} : (t = .number → d = .finite n.toInt) → (∀ c ∈ cs, Exact c) →
      Exact (.node t k v n d cs)

/-- The item without its key, as `parse_value` leaves it. -/
def Item.anon : Item → Item
  | .node t _ v n d cs => .node t none v n d cs

theorem Item.anon_eq {item : Item} (h : item.string = none) : item.anon = item := by
  cases item
  cases h
  rfl

theorem Item.named_anon {item : Item} {name : List UInt8} (h : item.string = some name) :
    item.anon.named name = item := by
  cases item
  cases h
  rfl

/-- What may stand behind a number. -/
def Follows (l : List UInt8) : Prop := ∃ b l', l = b :: l' ∧ isNumberByte b = false

/-- The parser takes the text and gives the item. -/
def ReadsBack (content : List UInt8) (value : Parser Item) (item : Item) (t : List UInt8) : Prop :=
  ∀ (s : State) (l : List UInt8), content.drop s.offset = t ++ l → Follows l →
    ∃ s', value s = .ok item s' ∧ s'.offset = s.offset + t.length

theorem startsWith_of_drop {literal l : List UInt8} (h : content.drop s.offset = literal ++ l) :
    startsWith content literal s = true := by
  simp [startsWith, h]

theorem not_startsWith_of_head_ne (literal : List UInt8) {l : List UInt8} {a b : UInt8}
    (h : content.drop s.offset = b :: l) (hlit : literal.head? = some a) (hne : a ≠ b) :
    ¬startsWith content literal s = true := by
  obtain ⟨literal, rfl⟩ := List.head?_eq_some_iff.mp hlit
  simp only [startsWith, h, List.isPrefixOf, Bool.and_eq_true, beq_iff_eq, hne, false_and,
    not_false_eq_true]

section

variable {array object : Parser Item} {l : List UInt8}

theorem dispatch_null (h : content.drop s.offset = ascii "null" ++ l) :
    dispatch alloc content array object s =
      .ok (.plain .null 0) { s with offset := s.offset + 4 } := by
  rw [dispatch, get_bind, if_pos (startsWith_of_drop h)]
  rfl

theorem dispatch_false (h : content.drop s.offset = ascii "false" ++ l) :
    dispatch alloc content array object s =
      .ok (.plain .false 0) { s with offset := s.offset + 5 } := by
  have hnull := not_startsWith_of_head_ne (ascii "null") (a := 110) h rfl (by decide)
  rw [dispatch, get_bind, if_neg hnull, if_pos (startsWith_of_drop h)]
  rfl

theorem dispatch_true (h : content.drop s.offset = ascii "true" ++ l) :
    dispatch alloc content array object s =
      .ok (.plain .true 1) { s with offset := s.offset + 4 } := by
  have hnull := not_startsWith_of_head_ne (ascii "null") (a := 110) h rfl (by decide)
  have hfalse := not_startsWith_of_head_ne (ascii "false") (a := 102) h rfl (by decide)
  rw [dispatch, get_bind, if_neg hnull, if_neg hfalse, if_pos (startsWith_of_drop h)]
  rfl

/-- The tests behind those for the literals. -/
theorem dispatch_of_head {b : UInt8} (h : content.drop s.offset = b :: l) (h₁ : b ≠ 110)
    (h₂ : b ≠ 102) (h₃ : b ≠ 116) :
    dispatch alloc content array object s =
      (if b = 34 then (do return .text (← parseString alloc content) : Parser Item)
        else if b = 45 ∨ isDigit b = true then parseNumber content
        else if b = 91 then array
        else if b = 123 then object
        else fail) s := by
  have hnull := not_startsWith_of_head_ne (ascii "null") h rfl h₁.symm
  have hfalse := not_startsWith_of_head_ne (ascii "false") h rfl h₂.symm
  have htrue := not_startsWith_of_head_ne (ascii "true") h rfl h₃.symm
  have hget : content[s.offset]? = some b := by
    rw [← List.head?_drop, h]
    rfl
  rw [dispatch, get_bind, if_neg hnull, if_neg hfalse, if_neg htrue]
  simp only [looksAt_of_drop h, hget, Option.any_some, beq_iff_eq]

end

section

variable {format : Bool} {real : ℚ → List UInt8}

/-- A value begins with a byte that is neither white space nor a closing bracket nor the first one of
a byte order mark. -/
theorem render_head (format : Bool) (real : ℚ → List UInt8) {room : Nat} {item : Item}
    (h : Formed room item) (hexact : Exact item) (depth : Nat) :
    ∃ b t, render format real depth item = b :: t ∧ ¬b ≤ 32 ∧ b ≠ 93 ∧ b ≠ 125 ∧ b ≠ 239 := by
  cases h with
  | null => exact ⟨110, ascii "ull", by rw [render]; rfl, by decide⟩
  | false => exact ⟨102, ascii "alse", by rw [render]; rfl, by decide⟩
  | true => exact ⟨116, ascii "rue", by rw [render]; rfl, by decide⟩
  | string => exact ⟨34, _, by rw [render]; rfl, by decide⟩
  | array => exact ⟨91, _, by rw [render]; rfl, by decide⟩
  | object => exact ⟨123, _, by rw [render]; rfl, by decide⟩
  | @number room k d =>
      obtain ⟨hd, -⟩ := hexact
      have hd := hd rfl
      have htext : render format real depth (.node .number k none (saturate d) d []) =
          sprintfD (saturate d) := by
        rw [render]
        generalize saturate d = n at hd
        subst hd
        simp [numberText]
      rw [htext]
      unfold sprintfD
      split
      · exact ⟨45, _, rfl, by decide⟩
      · generalize (saturate d).toInt.natAbs = n
        obtain ⟨b, t, hbt⟩ := List.exists_cons_of_ne_nil (decimal_ne_nil n)
        have hdigit := decimal_digits n b (by rw [hbt]; exact List.mem_cons_self)
        have hall : ∀ b, isDigit b = true → ¬b ≤ 32 ∧ b ≠ 93 ∧ b ≠ 125 ∧ b ≠ 239 :=
          forall_byte (P := fun b => isDigit b = true → ¬b ≤ 32 ∧ b ≠ 93 ∧ b ≠ 125 ∧ b ≠ 239)
            (by decide +kernel)
        exact ⟨b, t, hbt, hall b hdigit⟩

/-- A round of a loop, and the byte that it stops at. -/
theorem parseItems_step {round : Parser Item} {fuel : Nat} {items : List Item} {item : Item}
    {s₁ : State} {ws l : List UInt8} {b : UInt8} (hround : round s = .ok item s₁)
    (h : content.drop s₁.offset = ws ++ b :: l) (hws : ∀ c ∈ ws, c ≤ 32) (hb : ¬b ≤ 32) :
    parseItems content round (fuel + 1) items s =
      if b = 44 then
        parseItems content round fuel (items ++ [item])
          { s₁ with offset := s₁.offset + ws.length }
      else .ok (items ++ [item]) { s₁ with offset := s₁.offset + ws.length } := by
  have hskip := skipTo_of_drop h hws hb
  have hlook : looksAt content 44 { s₁ with offset := s₁.offset + ws.length } = (b == 44) :=
    looksAt_of_drop (s := { s₁ with offset := s₁.offset + ws.length }) (drop_add_of_append h)
  rw [parseItems, bind_ok (onFail_ok hround)]
  simp only [bufferSkipWhitespace_bind, get_bind, hskip, hlook, beq_iff_eq]
  split
  · rfl
  · rfl

theorem follows_cons {b : UInt8} (h : isNumberByte b = false) (l : List UInt8) : Follows (b :: l) :=
  ⟨b, l, rfl, h⟩

theorem comma_eq : comma format = 44 :: (if format then [32] else []) := by
  cases format <;> rfl

theorem parseElement_readsBack {value : Parser Item} {item : Item} {t ws l : List UInt8} {b : UInt8}
    {t' : List UInt8} (halloc : ∀ k, alloc k = true) (hvalue : ReadsBack content value item t)
    (ht : t = b :: t') (hb : ¬b ≤ 32) (h : content.drop (s.offset + 1) = ws ++ t ++ l)
    (hws : ∀ c ∈ ws, c ≤ 32) (hl : Follows l) :
    ∃ s', parseElement alloc content value s = .ok item s' ∧
      s'.offset = s.offset + 1 + ws.length + t.length := by
  subst ht
  rw [List.append_assoc, List.cons_append] at h
  have hskip := skipTo_of_drop h hws hb
  obtain ⟨s', hs', hoff⟩ := hvalue
    ⟨s.offset + 1 + ws.length, s.allocs + 1, s.live + 1⟩ l (drop_add_of_append h) hl
  refine ⟨s', ?_, hoff⟩
  unfold parseElement
  rw [bind_ok (allocate_ok halloc)]
  apply onFail_ok
  simp only [advance, modify_bind, bufferSkipWhitespace_bind, hskip]
  exact hs'

/-- The loop of an array in front of the elements, the closing bracket and any rest. -/
theorem parseItems_elements {value : Parser Item} {depth : Nat} {c : Item} {cs : List Item}
    (items : List Item) (ws : List UInt8) {l : List UInt8} (fuel : Nat) (halloc : ∀ k, alloc k = true)
    (hvalue : ∀ c' ∈ c :: cs, ReadsBack content value c' (render format real depth c') ∧
      ∃ b t, render format real depth c' = b :: t ∧ ¬b ≤ 32)
    (h : content.drop (s.offset + 1) =
      ws ++ renderElements format real depth (c :: cs) ++ 93 :: l)
    (hws : ∀ b ∈ ws, b ≤ 32) (hfuel : content.length < fuel + s.offset) :
    ∃ s', parseItems content (parseElement alloc content value) fuel items s =
        .ok (items ++ c :: cs) s' ∧
      s'.offset =
        s.offset + 1 + ws.length + (renderElements format real depth (c :: cs)).length := by
  induction cs generalizing s c items ws fuel with
  | nil =>
      have hlt : s.offset + 1 < content.length := by
        rw [renderElements] at h
        obtain ⟨-, b, t, hbt, -⟩ := hvalue c List.mem_cons_self
        have := congrArg List.length h
        simp only [List.length_drop, List.length_append, List.length_cons, hbt] at this
        omega
      obtain ⟨fuel, rfl⟩ := Nat.exists_eq_succ_of_ne_zero (show fuel ≠ 0 by omega)
      obtain ⟨hread, b, t, hbt, hb⟩ := hvalue c List.mem_cons_self
      simp only [renderElements, List.isEmpty_nil, ↓reduceIte, List.append_nil] at h ⊢
      obtain ⟨s₁, hs₁, hoff₁⟩ := parseElement_readsBack halloc hread hbt hb h hws
        (follows_cons (by decide) l)
      have hdrop : content.drop s₁.offset = [] ++ 93 :: l := by
        have := drop_add_of_append h
        rwa [List.length_append, ← Nat.add_assoc, ← hoff₁] at this
      rw [parseItems_step hs₁ hdrop (by simp) (by decide), if_neg (by decide)]
      exact ⟨_, rfl, by simpa using hoff₁⟩
  | cons c' cs ih =>
      have hlt : s.offset + 1 < content.length := by
        rw [renderElements] at h
        obtain ⟨-, b, t, hbt, -⟩ := hvalue c List.mem_cons_self
        have := congrArg List.length h
        simp only [List.length_drop, List.length_append, List.length_cons, hbt] at this
        omega
      obtain ⟨fuel, rfl⟩ := Nat.exists_eq_succ_of_ne_zero (show fuel ≠ 0 by omega)
      obtain ⟨hread, b, t, hbt, hb⟩ := hvalue c List.mem_cons_self
      rw [renderElements] at h ⊢
      simp only [List.isEmpty_cons, Bool.false_eq_true, ↓reduceIte, comma_eq] at h ⊢
      generalize hsp : (if format then [(32 : UInt8)] else []) = sp at h ⊢
      have hsp' : ∀ b ∈ sp, b ≤ 32 := by
        subst hsp
        cases format <;> simp
      have h' : content.drop (s.offset + 1) = ws ++ render format real depth c ++
          44 :: (sp ++ renderElements format real depth (c' :: cs) ++ 93 :: l) := by
        rw [h]
        simp only [List.append_assoc, List.cons_append]
      obtain ⟨s₁, hs₁, hoff₁⟩ := parseElement_readsBack halloc hread hbt hb h' hws
        (follows_cons (by decide) _)
      have hdrop : content.drop s₁.offset =
          [] ++ 44 :: (sp ++ renderElements format real depth (c' :: cs) ++ 93 :: l) := by
        have := drop_add_of_append h'
        rwa [List.length_append, ← Nat.add_assoc, ← hoff₁] at this
      rw [parseItems_step hs₁ hdrop (by simp) (by decide), if_pos rfl]
      have hnext : content.drop (s₁.offset + ([] : List UInt8).length + 1) =
          sp ++ renderElements format real depth (c' :: cs) ++ 93 :: l :=
        drop_add_of_append (t := [44]) hdrop
      obtain ⟨s₂, hs₂, hoff₂⟩ := ih
        (s := { s₁ with offset := s₁.offset + ([] : List UInt8).length })
        (items ++ [c]) sp fuel
        (fun c'' hc'' => hvalue c'' (List.mem_cons_of_mem _ hc'')) hnext hsp'
        (by simp only [List.length_nil]; omega)
      refine ⟨s₂, by rw [hs₂]; simp, ?_⟩
      simp only [List.length_append, List.length_cons, List.length_nil] at hoff₂ ⊢
      omega

theorem tabs_le (format : Bool) (n : Nat) : ∀ b ∈ tabs format n, b ≤ 32 := by
  intro b hb
  unfold tabs at hb
  split at hb
  · rw [(List.mem_replicate.mp hb).2]
    decide
  · simp at hb

theorem lineEnd_le (format : Bool) : ∀ b ∈ lineEnd format, b ≤ 32 := by
  cases format with
  | false => simp [lineEnd]
  | true =>
      simp only [lineEnd, ↓reduceIte, List.mem_singleton, forall_eq]
      decide

theorem append_le {ws ws' : List UInt8} (h : ∀ b ∈ ws, b ≤ 32) (h' : ∀ b ∈ ws', b ≤ 32) :
    ∀ b ∈ ws ++ ws', b ≤ 32 := by
  intro b hb
  rcases List.mem_append.mp hb with hb | hb
  · exact h b hb
  · exact h' b hb

theorem parseMember_readsBack {value : Parser Item} {item : Item} {name t ws l : List UInt8}
    {b : UInt8} {t' : List UInt8} (halloc : ∀ k, alloc k = true)
    (hvalue : ReadsBack content value item t) (hname : 0 ∉ name) (ht : t = b :: t') (hb : ¬b ≤ 32)
    (h : content.drop (s.offset + 1) = ws ++ (quoted (some name) ++ (colon format ++ (t ++ l))))
    (hws : ∀ c ∈ ws, c ≤ 32) (hl : Follows l) :
    ∃ s', parseMember alloc content value s = .ok (item.named name) s' ∧
      s'.offset = s.offset + 1 + ws.length + (quoted (some name)).length +
        (colon format).length + t.length := by
  obtain ⟨sp, hcolon, hsp⟩ : ∃ sp, colon format = 58 :: sp ∧ ∀ c ∈ sp, c ≤ 32 := by
    cases format with
    | false => exact ⟨[], rfl, by simp⟩
    | true => exact ⟨[9], rfl, by simp⟩
  -- the key
  have hskip := skipTo_of_drop (b := 34) h hws (by decide)
  have hkey := drop_add_of_append h
  obtain ⟨s₁, hs₁, hoff₁⟩ := parseString_quoted
    (s := ⟨s.offset + 1 + ws.length, s.allocs + 1, s.live + 1⟩) halloc hkey hname
  -- the colon
  have hdrop₁ : content.drop s₁.offset = [] ++ 58 :: (sp ++ (t ++ l)) := by
    have := drop_add_of_append hkey
    rw [← hoff₁, hcolon] at this
    exact this
  have hskip₁ := skipTo_of_drop hdrop₁ (by simp) (by decide)
  rw [List.length_nil, Nat.add_zero] at hskip₁
  -- the value
  have hdrop₂ : content.drop (s₁.offset + 1) = sp ++ (t ++ l) :=
    drop_add_of_append (t := [58]) hdrop₁
  have hskip₂ : skipTo content (s₁.offset + 1) = s₁.offset + 1 + sp.length := by
    rw [ht] at hdrop₂
    exact skipTo_of_drop hdrop₂ hsp hb
  obtain ⟨s₂, hs₂, hoff₂⟩ := hvalue ⟨s₁.offset + 1 + sp.length, s₁.allocs, s₁.live⟩ l
    (drop_add_of_append hdrop₂) hl
  refine ⟨s₂, ?_, ?_⟩
  · unfold parseMember
    rw [bind_ok (allocate_ok halloc)]
    have hname' : onFail (do
        advance 1
        bufferSkipWhitespace content
        parseString alloc content) (free 1) ⟨s.offset, s.allocs + 1, s.live + 1⟩ = .ok name s₁ := by
      apply onFail_ok
      simp only [advance, modify_bind, bufferSkipWhitespace_bind, hskip]
      exact hs₁
    rw [bind_ok hname']
    apply onFail_ok
    simp only [bufferSkipWhitespace_bind, get_bind, hskip₁, looksAt_of_drop hdrop₁, beq_self_eq_true,
      ↓reduceIte, advance, modify_bind, hskip₂]
    rw [bind_ok hs₂]
    rfl
  · rw [hoff₂, hcolon]
    simp only [List.length_cons] at hoff₁ ⊢
    omega

theorem renderMembers_tabs (format : Bool) (real : ℚ → List UInt8) (depth : Nat) (c : Item)
    (cs : List Item) :
    ∃ t, renderMembers format real depth (c :: cs) = tabs format depth ++ t ∧
      t = quoted c.string ++ (colon format ++ (render format real depth c ++
        ((if cs.isEmpty then [] else [44]) ++ (lineEnd format ++
          renderMembers format real depth cs)))) := by
  refine ⟨_, ?_, rfl⟩
  rw [renderMembers]
  simp only [List.append_assoc]

/-- The loop of an object in front of the members, the closing brace and any rest. The tabs in front
of the first member may have been skipped. -/
theorem parseItems_members {value : Parser Item} {depth : Nat} {c : Item} {cs : List Item}
    (items : List Item) {ws ws' t l : List UInt8} (fuel : Nat) (halloc : ∀ k, alloc k = true)
    (hvalue : ∀ c' ∈ c :: cs, ReadsBack content value c'.anon (render format real depth c') ∧
      (∃ b t, render format real depth c' = b :: t ∧ ¬b ≤ 32) ∧
      ∃ name, c'.string = some name ∧ 0 ∉ name)
    (ht : renderMembers format real depth (c :: cs) = tabs format depth ++ t)
    (h : content.drop (s.offset + 1) = ws ++ (t ++ (ws' ++ 125 :: l)))
    (hws : ∀ b ∈ ws, b ≤ 32) (hws' : ∀ b ∈ ws', b ≤ 32) (hfuel : content.length < fuel + s.offset) :
    ∃ s', parseItems content (parseMember alloc content value) fuel items s =
        .ok (items ++ c :: cs) s' ∧
      s'.offset = s.offset + 1 + ws.length + t.length + ws'.length := by
  induction cs generalizing s c items ws t fuel with
  | nil =>
      obtain ⟨hread, ⟨b, t', hbt, hb⟩, name, hname, hname0⟩ := hvalue c List.mem_cons_self
      obtain ⟨t₁, htabs, ht₁⟩ := renderMembers_tabs format real depth c []
      obtain rfl := List.append_cancel_left (ht.symm.trans htabs)
      simp only [renderMembers, hname, List.isEmpty_nil, ↓reduceIte, List.append_nil,
        List.nil_append] at ht₁
      subst ht₁
      have h' : content.drop (s.offset + 1) = ws ++ (quoted (some name) ++ (colon format ++
          (render format real depth c ++ (lineEnd format ++ ws' ++ 125 :: l)))) := by
        rw [h]
        simp only [List.append_assoc]
      have hlt : s.offset + 1 < content.length := by
        have := congrArg List.length h'
        simp only [List.length_drop, List.length_append, List.length_cons] at this
        omega
      obtain ⟨fuel, rfl⟩ := Nat.exists_eq_succ_of_ne_zero (show fuel ≠ 0 by omega)
      have hfollow : Follows (lineEnd format ++ ws' ++ 125 :: l) := by
        have hall : ∀ b, b ≤ 32 → isNumberByte b = false :=
          forall_byte (P := fun b => b ≤ 32 → isNumberByte b = false) (by decide +kernel)
        rcases hlist : lineEnd format ++ ws' with - | ⟨b, rest⟩
        · exact follows_cons (by decide) l
        · refine ⟨b, rest ++ 125 :: l, rfl, hall b ?_⟩
          exact append_le (lineEnd_le format) hws' b (by rw [hlist]; exact List.mem_cons_self)
      obtain ⟨s₁, hs₁, hoff₁⟩ := parseMember_readsBack halloc hread hname0 hbt hb h' hws hfollow
      have hdrop : content.drop s₁.offset = lineEnd format ++ ws' ++ 125 :: l := by
        have hsplit : content.drop (s.offset + 1) = (ws ++ quoted (some name) ++ colon format ++
            render format real depth c) ++ (lineEnd format ++ ws' ++ 125 :: l) := by
          rw [h']
          simp only [List.append_assoc]
        have := drop_add_of_append hsplit
        simp only [List.length_append, ← Nat.add_assoc] at this
        rwa [← hoff₁] at this
      rw [parseItems_step hs₁ hdrop (append_le (lineEnd_le format) hws') (by decide),
        if_neg (by decide), Item.named_anon hname]
      refine ⟨_, rfl, ?_⟩
      simp only [List.length_append] at hoff₁ ⊢
      omega
  | cons c' cs ih =>
      obtain ⟨hread, ⟨b, t', hbt, hb⟩, name, hname, hname0⟩ := hvalue c List.mem_cons_self
      obtain ⟨t₁, htabs, ht₁⟩ :=
        renderMembers_tabs format real depth c (c' :: cs)
      obtain rfl := List.append_cancel_left (ht.symm.trans htabs)
      obtain ⟨t₂, htabs₂, -⟩ := renderMembers_tabs format real depth c' cs
      simp only [hname, List.isEmpty_cons, Bool.false_eq_true, ↓reduceIte, htabs₂] at ht₁
      subst ht₁
      have h' : content.drop (s.offset + 1) = ws ++ (quoted (some name) ++ (colon format ++
          (render format real depth c ++
            44 :: (lineEnd format ++ tabs format depth ++ (t₂ ++ (ws' ++ 125 :: l)))))) := by
        rw [h]
        simp only [List.append_assoc, List.cons_append, List.nil_append]
      have hlt : s.offset + 1 < content.length := by
        have := congrArg List.length h'
        simp only [List.length_drop, List.length_append, List.length_cons] at this
        omega
      obtain ⟨fuel, rfl⟩ := Nat.exists_eq_succ_of_ne_zero (show fuel ≠ 0 by omega)
      obtain ⟨s₁, hs₁, hoff₁⟩ := parseMember_readsBack halloc hread hname0 hbt hb h' hws
        (follows_cons (by decide) _)
      have hdrop : content.drop s₁.offset =
          [] ++ 44 :: (lineEnd format ++ tabs format depth ++ (t₂ ++ (ws' ++ 125 :: l))) := by
        have hsplit : content.drop (s.offset + 1) = (ws ++ quoted (some name) ++ colon format ++
            render format real depth c) ++
            44 :: (lineEnd format ++ tabs format depth ++ (t₂ ++ (ws' ++ 125 :: l))) := by
          rw [h']
          simp only [List.append_assoc]
        have := drop_add_of_append hsplit
        simp only [List.length_append, ← Nat.add_assoc] at this
        rwa [← hoff₁] at this
      rw [parseItems_step hs₁ hdrop (by simp) (by decide), if_pos rfl, Item.named_anon hname]
      have hnext : content.drop (s₁.offset + ([] : List UInt8).length + 1) =
          lineEnd format ++ tabs format depth ++ (t₂ ++ (ws' ++ 125 :: l)) :=
        drop_add_of_append (t := [44]) hdrop
      obtain ⟨s₂, hs₂, hoff₂⟩ := ih
        (s := { s₁ with offset := s₁.offset + ([] : List UInt8).length }) (items ++ [c])
        fuel (fun c'' hc'' => hvalue c'' (List.mem_cons_of_mem _ hc'')) htabs₂ hnext
        (append_le (lineEnd_le format) (tabs_le format depth)) (by simp only [List.length_nil]; omega)
      refine ⟨s₂, by rw [hs₂]; simp, ?_⟩
      simp only [List.length_append, List.length_cons, List.length_nil] at hoff₁ hoff₂ ⊢
      omega

theorem parseNested_nil {type : JsonType} {closing : UInt8} {round : Parser Item}
    {ws l : List UInt8} (h : content.drop (s.offset + 1) = ws ++ closing :: l)
    (hws : ∀ b ∈ ws, b ≤ 32) (hclosing : ¬closing ≤ 32) :
    parseNested content type closing round s =
      .ok (.nested type []) { s with offset := s.offset + 1 + ws.length + 1 } := by
  have hskip := skipTo_of_drop h hws hclosing
  have hlook := looksAt_of_drop (s := ⟨s.offset + 1 + ws.length, s.allocs, s.live⟩)
    (c := closing) (drop_add_of_append h)
  rw [beq_self_eq_true] at hlook
  unfold parseNested
  simp only [advance, modify_bind, bufferSkipWhitespace_bind, get_bind, hskip, hlook, ↓reduceIte]
  rfl

theorem parseNested_items (type : JsonType) {closing b : UInt8} {round : Parser Item}
    {items : List Item} {s₂ : State} (ws : List UInt8) {rest l : List UInt8}
    (h : content.drop (s.offset + 1) = ws ++ b :: rest) (hws : ∀ b ∈ ws, b ≤ 32) (hb : ¬b ≤ 32)
    (hne : b ≠ closing)
    (hitems : parseItems content round (content.length + 1) []
      { s with offset := s.offset + ws.length } = .ok items s₂)
    (h₂ : content.drop s₂.offset = closing :: l) :
    parseNested content type closing round s =
      .ok (.nested type items) { s₂ with offset := s₂.offset + 1 } := by
  have hskip := skipTo_of_drop h hws hb
  have hat := drop_add_of_append h
  have hlook := looksAt_of_drop (s := ⟨s.offset + 1 + ws.length, s.allocs, s.live⟩)
    (c := closing) hat
  rw [beq_eq_false_iff_ne.mpr hne] at hlook
  have hlt := lt_length_of_drop hat
  have hback : s.offset + 1 + ws.length - 1 = s.offset + ws.length := by omega
  have hlook₂ := looksAt_of_drop (c := closing) h₂
  rw [beq_self_eq_true] at hlook₂
  unfold parseNested
  simp only [advance, modify_bind, bufferSkipWhitespace_bind, get_bind, hskip, hlook,
    Bool.false_eq_true, ↓reduceIte]
  rw [if_neg (by omega)]
  simp only [stepBack, modify_bind, hback]
  rw [bind_ok hitems, get_bind, hlook₂, if_pos rfl]
  rfl

theorem parseArray_readsBack {value : Parser Item} {depth : Nat} {cs : List Item}
    (halloc : ∀ k, alloc k = true)
    (hvalue : ∀ c ∈ cs, ReadsBack content value c (render format real depth c) ∧
      ∃ b t, render format real depth c = b :: t ∧ ¬b ≤ 32 ∧ b ≠ 93 ∧ b ≠ 125 ∧ b ≠ 239) :
    ReadsBack content (parseArray alloc content value) (.nested .array cs)
      (91 :: renderElements format real depth cs ++ [93]) := by
  intro s l h hl
  have hbody : content.drop (s.offset + 1) = renderElements format real depth cs ++ 93 :: l := by
    refine drop_add_of_append (t := [91]) (h.trans ?_)
    simp
  unfold parseArray
  rw [bind_ok (readAt_of_drop h (b := 91) rfl), if_neg (by simp)]
  cases cs with
  | nil =>
      rw [renderElements] at hbody
      refine ⟨_, parseNested_nil hbody (by simp) (by decide), ?_⟩
      simp [renderElements]
  | cons c cs =>
      obtain ⟨-, b, t, hbt, hb, h93, -⟩ := hvalue c List.mem_cons_self
      obtain ⟨rest, hrest⟩ : ∃ rest, renderElements format real depth (c :: cs) ++ 93 :: l =
          b :: rest := by
        rw [renderElements, hbt]
        exact ⟨_, rfl⟩
      have hvalue' : ∀ c' ∈ c :: cs, ReadsBack content value c' (render format real depth c') ∧
          ∃ b t, render format real depth c' = b :: t ∧ ¬b ≤ 32 := by
        intro c' hc'
        obtain ⟨hread, b', t', hbt', hb', -⟩ := hvalue c' hc'
        exact ⟨hread, b', t', hbt', hb'⟩
      obtain ⟨s₂, hs₂, hoff₂⟩ := parseItems_elements (s := s) [] [] (content.length + 1) halloc
        hvalue' hbody (by simp) (by omega)
      have hclosing : content.drop s₂.offset = 93 :: l := by
        have := drop_add_of_append hbody
        simpa only [hoff₂, List.length_nil, Nat.add_zero] using this
      have hnested := parseNested_items .array [] (hbody.trans hrest) (by simp) hb
        h93 hs₂ hclosing
      refine ⟨_, hnested, ?_⟩
      simp only [hoff₂, List.length_append, List.length_cons, List.length_nil]
      omega

theorem parseObject_readsBack {value : Parser Item} {depth : Nat} {cs : List Item}
    (halloc : ∀ k, alloc k = true)
    (hvalue : ∀ c ∈ cs, ReadsBack content value c.anon (render format real (depth + 1) c) ∧
      (∃ b t, render format real (depth + 1) c = b :: t ∧ ¬b ≤ 32) ∧
      ∃ name, c.string = some name ∧ 0 ∉ name) :
    ReadsBack content (parseObject alloc content value) (.nested .object cs)
      (123 :: lineEnd format ++ renderMembers format real (depth + 1) cs ++ tabs format depth ++
        [125]) := by
  intro s l h hl
  have hbody : content.drop (s.offset + 1) = lineEnd format ++
      renderMembers format real (depth + 1) cs ++ (tabs format depth ++ 125 :: l) := by
    refine drop_add_of_append (t := [123]) (h.trans ?_)
    simp
  have hlook := looksAt_of_drop (c := 123) (s := s) h
  rw [beq_self_eq_true] at hlook
  unfold parseObject
  rw [get_bind, hlook, if_pos rfl]
  cases cs with
  | nil =>
      rw [renderMembers, List.append_nil, ← List.append_assoc] at hbody
      have hws := append_le (lineEnd_le format) (tabs_le format depth)
      refine ⟨_, parseNested_nil hbody hws (by decide), ?_⟩
      simp only [renderMembers, List.length_append, List.length_cons, List.length_nil]
      omega
  | cons c cs =>
      obtain ⟨-, -, name, hname, -⟩ := hvalue c List.mem_cons_self
      obtain ⟨t, htabs, ht⟩ :=
        renderMembers_tabs format real (depth + 1) c cs
      -- the white space in front of the first key is skipped
      have hws := append_le (lineEnd_le format) (tabs_le format (depth + 1))
      have hfirst : content.drop (s.offset + 1) =
          (lineEnd format ++ tabs format (depth + 1)) ++ (t ++ (tabs format depth ++ 125 :: l)) := by
        rw [hbody, htabs]
        simp only [List.append_assoc]
      obtain ⟨rest, hrest⟩ : ∃ rest, t ++ (tabs format depth ++ 125 :: l) = 34 :: rest := by
        rw [ht, hname]
        exact ⟨_, rfl⟩
      have hlen : (lineEnd format ++ tabs format (depth + 1)).length + t.length =
          (lineEnd format ++ renderMembers format real (depth + 1) (c :: cs)).length := by
        rw [htabs]
        simp only [List.length_append]
        omega
      generalize lineEnd format ++ tabs format (depth + 1) = ws at hws hfirst hlen
      have hat : content.drop (s.offset + ws.length + 1) =
          [] ++ (t ++ (tabs format depth ++ 125 :: l)) := by
        rw [show s.offset + ws.length + 1 = s.offset + 1 + ws.length by omega]
        exact drop_add_of_append hfirst
      obtain ⟨s₂, hs₂, hoff₂⟩ := parseItems_members
        (s := { s with offset := s.offset + ws.length }) [] (content.length + 1) halloc hvalue htabs
        hat (by simp) (tabs_le format depth) (by simp only; omega)
      have hclosing : content.drop s₂.offset = 125 :: l := by
        have hsplit : content.drop (s.offset + 1) =
            (ws ++ t ++ tabs format depth) ++ 125 :: l := by
          rw [hfirst]
          simp only [List.append_assoc]
        have := drop_add_of_append hsplit
        simp only [List.length_append, List.length_nil] at this hoff₂
        rwa [show s.offset + 1 + (ws.length + t.length + (tabs format depth).length) = s₂.offset by
          omega] at this
      rw [hrest] at hfirst
      have hnested := parseNested_items .object _ hfirst hws (by decide) (by decide) hs₂
        hclosing
      refine ⟨_, hnested, ?_⟩
      simp only [List.length_append, List.length_cons, List.length_nil] at hlen hoff₂ ⊢
      omega

theorem parseValue_eq_dispatch (alloc : Nat → Bool) (content : List UInt8) (room : Nat) :
    ∃ array object, parseValue alloc content room = dispatch alloc content array object := by
  cases room with
  | zero => exact ⟨_, _, rfl⟩
  | succ room => exact ⟨_, _, rfl⟩

theorem parseNumber_sprintfD (n : Int32) :
    ReadsBack content (parseNumber content) (.number (.finite n.toInt)) (sprintfD n) := by
  intro s l h hl
  obtain ⟨b, l', rfl, hb⟩ := hl
  have hcopy := takeWhile_isNumberByte (l := l') (isNumberByte_sprintfD n)
    ((length_sprintfD_le n).trans (by decide)) hb
  refine ⟨{ s with offset := s.offset + (sprintfD n).length }, ?_, rfl⟩
  simp only [parseNumber, h, hcopy, strtod_sprintfD]

theorem sprintfD_head (n : Int32) : ∃ b t, sprintfD n = b :: t ∧ (b = 45 ∨ isDigit b = true) := by
  unfold sprintfD
  split
  · exact ⟨45, _, rfl, .inl rfl⟩
  · obtain ⟨b, t, hbt⟩ := List.exists_cons_of_ne_nil (decimal_ne_nil n.toInt.natAbs)
    exact ⟨b, t, hbt, .inr (decimal_digits _ b (by rw [hbt]; exact List.mem_cons_self))⟩

/-- What the printer prints of a well-formed item is read as the same item. -/
theorem readsBack_of_formed (halloc : ∀ k, alloc k = true) {room : Nat} {item : Item}
    (h : Formed room item) (hexact : Exact item) (depth : Nat) :
    ReadsBack content (parseValue alloc content room) item.anon
      (render format real depth item) := by
  induction h generalizing depth with
  | @null room k =>
      obtain ⟨array, object, heq⟩ := parseValue_eq_dispatch alloc content room
      intro s l h hl
      rw [render] at h ⊢
      rw [heq]
      exact ⟨_, dispatch_null h, rfl⟩
  | @false room k =>
      obtain ⟨array, object, heq⟩ := parseValue_eq_dispatch alloc content room
      intro s l h hl
      rw [render] at h ⊢
      rw [heq]
      exact ⟨_, dispatch_false h, rfl⟩
  | @true room k =>
      obtain ⟨array, object, heq⟩ := parseValue_eq_dispatch alloc content room
      intro s l h hl
      rw [render] at h ⊢
      rw [heq]
      exact ⟨_, dispatch_true h, rfl⟩
  | @number room k d =>
      obtain ⟨array, object, heq⟩ := parseValue_eq_dispatch alloc content room
      obtain ⟨hd, -⟩ := hexact
      have hd := hd rfl
      intro s l h hl
      rw [render] at h ⊢
      generalize hn : saturate d = n at *
      subst hd
      have htext : numberText real n (.finite n.toInt) = sprintfD n := by simp [numberText]
      rw [htext] at h ⊢
      obtain ⟨s', hs', hoff⟩ := parseNumber_sprintfD n s l h hl
      obtain ⟨b, t, hbt, hb⟩ := sprintfD_head n
      have hhead : ∀ b : UInt8, b = 45 ∨ isDigit b = Bool.true →
          b ≠ 110 ∧ b ≠ 102 ∧ b ≠ 116 ∧ b ≠ 34 :=
        forall_byte (P := fun b => b = 45 ∨ isDigit b = Bool.true →
          b ≠ 110 ∧ b ≠ 102 ∧ b ≠ 116 ∧ b ≠ 34) (by decide +kernel)
      obtain ⟨h₁, h₂, h₃, h₄⟩ := hhead b hb
      refine ⟨s', ?_, hoff⟩
      rw [hbt] at h
      rw [heq, dispatch_of_head h h₁ h₂ h₃, if_neg h₄, if_pos hb, hs', Item.number,
        saturate_intCast]
      rfl
  | @string room k t ht =>
      obtain ⟨array, object, heq⟩ := parseValue_eq_dispatch alloc content room
      intro s l h hl
      rw [render] at h ⊢
      obtain ⟨s', hs', hoff⟩ := parseString_quoted halloc h ht
      refine ⟨s', ?_, hoff⟩
      rw [heq, dispatch_of_head (b := 34) h (by decide) (by decide) (by decide), if_pos rfl,
        bind_ok hs']
      rfl
  | @array room k cs hcs hkeys ih =>
      obtain ⟨-, hexact⟩ := hexact
      have hread : ReadsBack content (parseArray alloc content (parseValue alloc content room))
          (.nested .array cs) (91 :: renderElements format real (depth + 1) cs ++ [93]) := by
        apply parseArray_readsBack halloc
        intro c hc
        refine ⟨?_, render_head format real (hcs c hc) (hexact c hc) _⟩
        have := ih c hc (hexact c hc) (depth + 1)
        rwa [Item.anon_eq (hkeys c hc)] at this
      intro s l h hl
      rw [render] at h ⊢
      rw [parseValue, dispatch_of_head (b := 91) h (by decide) (by decide) (by decide)]
      exact hread s l h hl
  | @object room k cs hcs hkeys ih =>
      obtain ⟨-, hexact⟩ := hexact
      have hread : ReadsBack content (parseObject alloc content (parseValue alloc content room))
          (.nested .object cs) (123 :: lineEnd format ++ renderMembers format real (depth + 1) cs ++
            tabs format depth ++ [125]) := by
        apply parseObject_readsBack halloc
        intro c hc
        refine ⟨ih c hc (hexact c hc) (depth + 1), ?_, hkeys c hc⟩
        obtain ⟨b, t, hbt, hb, -⟩ := render_head format real (hcs c hc) (hexact c hc) (depth + 1)
        exact ⟨b, t, hbt, hb⟩
      intro s l h hl
      rw [render] at h ⊢
      rw [parseValue, dispatch_of_head (b := 123) h (by decide) (by decide) (by decide)]
      exact hread s l h hl

end

end Umicat.Json
