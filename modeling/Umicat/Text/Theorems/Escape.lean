import Umicat.Text.Escape

/-!
# Sizes and round trips of escaped texts
-/

namespace Umicat.Text

open Umicat.Base

/-! ## Loops over the bytes -/

theorem foldl_count (extra : UInt8 → Nat) (src : List UInt8) (n : Nat) :
    src.foldl (fun n c => n + extra c) n = n + countLoop extra src := by
  unfold countLoop
  induction src generalizing n with
  | nil => rfl
  | cons c src ih => rw [List.foldl_cons, List.foldl_cons, ih, ih (0 + extra c)]; omega

theorem countLoop_cons (extra : UInt8 → Nat) (c : UInt8) (src : List UInt8) :
    countLoop extra (c :: src) = extra c + countLoop extra src := by
  rw [countLoop, List.foldl_cons, foldl_count, Nat.zero_add]

/-- The two passes agree when they do so on every byte. -/
theorem length_writeLoop {out : UInt8 → List UInt8} {extra : UInt8 → Nat} {k : Nat}
    (h : ∀ c, (out c).length = 1 + k * extra c) (src : List UInt8) :
    (writeLoop out src).length = src.length + k * countLoop extra src := by
  induction src with
  | nil => simp [writeLoop, countLoop]
  | cons c src ih =>
      have hcons : writeLoop out (c :: src) = out c ++ writeLoop out src := List.flatMap_cons
      rw [hcons, List.length_append, ih, h, countLoop_cons, List.length_cons, Nat.mul_add]
      omega

theorem length_escapeUri (type : EscapeType) (src : List UInt8) :
    (escapeUri type src).length = src.length + 2 * escapeUriCount type src := by
  apply length_writeLoop
  intro c
  unfold escapeByte
  split <;> rfl

theorem length_htmlByte (c : UInt8) : (htmlByte c).length = 1 + 1 * htmlExtra c := by
  unfold htmlByte htmlExtra
  repeat' split
  all_goals rfl

theorem length_escapeHtml (src : List UInt8) :
    (escapeHtml src).length = src.length + escapeHtmlCount src := by
  rw [escapeHtml, length_writeLoop length_htmlByte, Nat.one_mul]
  rfl

theorem length_jsonControl (c : UInt8) :
    (jsonControl c).length =
      if c = 10 ∨ c = 13 ∨ c = 9 ∨ c = 8 ∨ c = 12 then 1 else sizeof "\\u001F" - 2 := by
  unfold jsonControl
  repeat' split
  all_goals first | rfl | simp_all

theorem length_jsonByte (c : UInt8) : (jsonByte c).length = 1 + 1 * jsonExtra c := by
  unfold jsonByte jsonExtra
  by_cases hc : c > 0x1f
  · rw [if_pos hc, if_neg (UInt8.not_le.mpr hc)]
    split <;> rfl
  · have hquote : ¬(c = 92 ∨ c = 34) := by
      rintro (rfl | rfl) <;> exact hc (by decide)
    rw [if_neg hc, if_neg hquote, if_pos (UInt8.not_lt.mp hc), List.length_cons,
      length_jsonControl, Nat.one_mul, Nat.add_comm]

theorem length_escapeJson (src : List UInt8) :
    (escapeJson src).length = src.length + escapeJsonCount src := by
  rw [escapeJson, length_writeLoop length_jsonByte, Nat.one_mul]
  rfl

/-! ## The unescaper -/

/-- How far the bytes written are behind the bytes consumed. -/
def Sw.lag : Sw → Nat
  | .usual => 0
  | .quoted => 1
  | .quotedSecond _ _ => 2

theorem unescapeStep_lag (type : UInt64) (q : Sw) (ch : UInt8) :
    (unescapeStep type q ch).1.length ≤ q.lag + 1 ∧
      ∀ q', (unescapeStep type q ch).2 = some q' →
        (unescapeStep type q ch).1.length + q'.lag ≤ q.lag + 1 := by
  have hredirect (before last ch : UInt8) : (unescapeRedirect before last ch).length ≤ 3 := by
    unfold unescapeRedirect
    split <;> simp
  fun_cases unescapeStep type q ch <;> simp [Sw.lag, hredirect]

/-- The numbers of bytes consumed and written at every moment: behind `ch = *s++`, and behind every
`*d++` of the round. -/
def moments (type : UInt64) : Sw → List UInt8 → Nat → Nat → List (Nat × Nat)
  | _, [], _, _ => []
  | q, ch :: s, consumed, written =>
      (List.range ((unescapeStep type q ch).1.length + 1)).map (fun k => (consumed + 1, written + k)) ++
        match (unescapeStep type q ch).2 with
        | none => []
        | some next =>
            moments type next s (consumed + 1) (written + (unescapeStep type q ch).1.length)

theorem moments_le (type : UInt64) (q : Sw) (src : List UInt8) {consumed written : Nat}
    (h : written + q.lag ≤ consumed) :
    ∀ m ∈ moments type q src consumed written, m.2 ≤ m.1 := by
  induction src generalizing q consumed written with
  | nil => simp [moments]
  | cons ch s ih =>
      obtain ⟨hbound, hnext⟩ := unescapeStep_lag type q ch
      intro m hm
      rw [moments] at hm
      rcases List.mem_append.mp hm with hm | hm
      · obtain ⟨k, hk, rfl⟩ := List.mem_map.mp hm
        have hk := List.mem_range.mp hk
        dsimp only
        omega
      · split at hm
        · cases hm
        · next next hq =>
            have hlag := hnext next hq
            exact ih next (by omega) m hm

theorem unescapeLoop_rest_le (type : UInt64) (q : Sw) (src : List UInt8) :
    (unescapeLoop type q src).2.length ≤ src.length := by
  induction src generalizing q with
  | nil => exact Nat.le_refl _
  | cons ch s ih =>
      rw [unescapeLoop]
      split
      · exact Nat.le_succ _
      · next next _ => exact Nat.le_succ_of_le (ih next)

/-- The last moment has what `uct_unescape_uri` consumed and wrote in all. -/
theorem moments_getLast (type : UInt64) (q : Sw) {src : List UInt8} (h : src ≠ [])
    (consumed written : Nat) :
    (moments type q src consumed written).getLast? =
      some (consumed + (src.length - (unescapeLoop type q src).2.length),
        written + (unescapeLoop type q src).1.length) := by
  induction src generalizing q consumed written with
  | nil => exact absurd rfl h
  | cons ch s ih =>
      have hround : ((List.range ((unescapeStep type q ch).1.length + 1)).map
          fun k => (consumed + 1, written + k)).getLast? =
            some (consumed + 1, written + (unescapeStep type q ch).1.length) := by
        rw [List.getLast?_map, List.getLast?_range, if_neg (Nat.succ_ne_zero _)]
        rfl
      rw [moments, unescapeLoop, List.getLast?_append, hround]
      split
      · next hnone =>
          split
          · next bs hstep =>
              simp [hstep]
          · next bs next hstep => simp [hstep] at hnone
      · next next hsome =>
          split
          · next bs hstep => simp [hstep] at hsome
          · next bs next' hstep =>
              rw [hstep] at hsome ⊢
              cases hsome
              cases s with
              | nil => simp [moments, unescapeLoop]
              | cons c s =>
                  have hrest := unescapeLoop_rest_le type next (c :: s)
                  rw [ih next (List.cons_ne_nil c s)]
                  simp only [List.length_append, List.length_cons, Option.some_or,
                    Option.some.injEq, Prod.mk.injEq] at hrest ⊢
                  omega

/-- What an escaper writes is what it counted, and the unescaper never writes ahead of what it has
read. -/
theorem escape_sizes (x : List UInt8) :
    (∀ type, (escapeUri type x).length = x.length + 2 * escapeUriCount type x) ∧
    (escapeHtml x).length = x.length + escapeHtmlCount x ∧
    (escapeJson x).length = x.length + escapeJsonCount x ∧
    ∀ type : UInt64, (∀ m ∈ moments type .usual x 0 0, m.2 ≤ m.1) ∧
      (x ≠ [] → (moments type .usual x 0 0).getLast? =
        some (x.length - (unescapeUri type x).2.length, (unescapeUri type x).1.length)) := by
  refine ⟨fun type => length_escapeUri type x, length_escapeHtml x, length_escapeJson x, ?_⟩
  intro type
  refine ⟨moments_le type .usual x (Nat.le_refl 0), fun hx => ?_⟩
  simpa [unescapeUri] using moments_getLast type .usual hx 0 0

/-! ## Round trips -/

/-- The value of a hexadecimal digit. -/
def hexValue (ch : UInt8) : Option UInt8 :=
  if 48 ≤ ch ∧ ch ≤ 57 then some (ch - 48)
  else if 97 ≤ ch ||| 0x20 ∧ ch ||| 0x20 ≤ 102 then some ((ch ||| 0x20) - 97 + 10)
  else none

theorem step_usual (c : UInt8) :
    unescapeStep 0 .usual c = if c = 37 then ([], some .quoted) else ([c], some .usual) := by
  simp [unescapeStep]

theorem step_quoted (c : UInt8) :
    unescapeStep 0 .quoted c =
      match hexValue c with
      | some v => ([], some (.quotedSecond v c))
      | none => ([c], some .usual) := by
  simp only [unescapeStep, hexValue]
  split
  · rfl
  · split <;> rfl

theorem step_second (d b c : UInt8) :
    unescapeStep 0 (.quotedSecond d b) c =
      match hexValue c with
      | some v => ([d <<< 4 + v], some .usual)
      | none => ([], some .usual) := by
  simp only [unescapeStep, hexValue, UInt64.zero_and, ne_eq, not_true_eq_false, ↓reduceIte,
    UInt8.add_assoc]
  split
  · rfl
  · split <;> rfl

/-- What `uct_unescape_uri` writes with type 0 from a state on. -/
def decoded (q : Sw) (s : List UInt8) : List UInt8 := (unescapeLoop 0 q s).1

theorem decoded_cons {q next : Sw} {c : UInt8} {bs : List UInt8}
    (h : unescapeStep 0 q c = (bs, some next)) (s : List UInt8) :
    decoded q (c :: s) = bs ++ decoded next s := by
  simp only [decoded, unescapeLoop, h]

@[simp] theorem decoded_nil (q : Sw) : decoded q [] = [] := by
  simp [decoded, unescapeLoop]

@[simp] theorem decoded_usual_percent (s : List UInt8) :
    decoded .usual (37 :: s) = decoded .quoted s :=
  decoded_cons (step_usual 37) s

theorem decoded_usual {c : UInt8} (h : c ≠ 37) (s : List UInt8) :
    decoded .usual (c :: s) = c :: decoded .usual s :=
  decoded_cons (by rw [step_usual, if_neg h]) s

theorem decoded_quoted_hex {c v : UInt8} (h : hexValue c = some v) (s : List UInt8) :
    decoded .quoted (c :: s) = decoded (.quotedSecond v c) s :=
  decoded_cons (by rw [step_quoted, h]) s

theorem decoded_quoted {c : UInt8} (h : hexValue c = none) (s : List UInt8) :
    decoded .quoted (c :: s) = c :: decoded .usual s :=
  decoded_cons (by rw [step_quoted, h]) s

theorem decoded_second_hex {d b c v : UInt8} (h : hexValue c = some v) (s : List UInt8) :
    decoded (.quotedSecond d b) (c :: s) = (d <<< 4 + v) :: decoded .usual s :=
  decoded_cons (by rw [step_second d b c, h]) s

theorem decoded_second {d b c : UInt8} (h : hexValue c = none) (s : List UInt8) :
    decoded (.quotedSecond d b) (c :: s) = decoded .usual s :=
  decoded_cons (by rw [step_second d b c, h]) s

/-- With type 0 nothing ends the loop before the input does. -/
theorem unescapeUri_zero (src : List UInt8) : unescapeUri 0 src = (decoded .usual src, []) := by
  have hrest (q : Sw) (s : List UInt8) : (unescapeLoop 0 q s).2 = [] := by
    induction s generalizing q with
    | nil => simp [unescapeLoop]
    | cons c s ih =>
        cases q with
        | usual =>
            by_cases hc : c = 37
            · simp only [unescapeLoop, step_usual, if_pos hc, ih]
            · simp only [unescapeLoop, step_usual, if_neg hc, ih]
        | quoted =>
            simp only [unescapeLoop, step_quoted]
            cases hexValue c <;> exact ih _
        | quotedSecond d b =>
            simp only [unescapeLoop, step_second]
            cases hexValue c <;> exact ih _
  exact Prod.ext rfl (hrest .usual src)

/-! A byte that is escaped, in front of any rest. -/

/-- The two digits of an escaped byte. -/
theorem hexValue_digits : ∀ n < 16, hexValue (hex.getD n 0) = some (UInt8.ofNat n) := by
  decide +kernel

theorem digits_value (c : UInt8) :
    UInt8.ofNat (c >>> 4).toNat <<< 4 + UInt8.ofNat (c &&& 0xf).toNat = c := by
  revert c
  exact forall_byte (by decide +kernel)

/-- The two digits that are written for `c`. -/
theorem hexValue_high (c : UInt8) :
    hexValue (hex.getD (c >>> 4).toNat 0) = some (UInt8.ofNat (c >>> 4).toNat) := by
  apply hexValue_digits
  revert c
  exact forall_byte (by decide +kernel)

theorem hexValue_low (c : UInt8) :
    hexValue (hex.getD (c &&& 0xf).toNat 0) = some (UInt8.ofNat (c &&& 0xf).toNat) := by
  apply hexValue_digits
  revert c
  exact forall_byte (by decide +kernel)

theorem decoded_escaped (c : UInt8) (s : List UInt8) :
    decoded .usual
      (37 :: hex.getD (c >>> 4).toNat 0 :: hex.getD (c &&& 0xf).toNat 0 :: s) =
        c :: decoded .usual s := by
  rw [decoded_usual_percent, decoded_quoted_hex (hexValue_high c),
    decoded_second_hex (hexValue_low c), digits_value]

theorem escapeByte_append {map : List UInt32} {c : UInt8} (h : escaped map c = true)
    (s : List UInt8) :
    escapeByte map c ++ s =
      37 :: hex.getD (c >>> 4).toNat 0 :: hex.getD (c &&& 0xf).toNat 0 :: s := by
  rw [escapeByte, if_pos h]
  rfl

theorem decoded_escapeByte {map : List UInt32} {c : UInt8} (h : escaped map c = true ∨ c ≠ 37)
    (s : List UInt8) : decoded .usual (escapeByte map c ++ s) = c :: decoded .usual s := by
  by_cases hc : escaped map c = true
  · rw [escapeByte_append hc, decoded_escaped]
  · rw [escapeByte, if_neg hc]
    exact decoded_usual (h.resolve_left hc) s

theorem escapeUri_cons (type : EscapeType) (c : UInt8) (x : List UInt8) :
    escapeUri type (c :: x) = escapeByte type.map c ++ escapeUri type x := List.flatMap_cons

theorem decoded_escapeUri {type : EscapeType} {x : List UInt8}
    (h : escaped type.map 37 = true ∨ 37 ∉ x) : decoded .usual (escapeUri type x) = x := by
  induction x with
  | nil => rfl
  | cons c x ih =>
      have hc : escaped type.map c = true ∨ c ≠ 37 := by
        by_cases hp : c = 37
        · rcases h with h | h
          · exact Or.inl (hp ▸ h)
          · exact absurd (hp ▸ List.mem_cons_self) h
        · exact Or.inr hp
      have hx : escaped type.map 37 = true ∨ 37 ∉ x :=
        h.imp_right fun h hm => h (List.mem_cons_of_mem _ hm)
      rw [escapeUri_cons, decoded_escapeByte hc, ih hx]

/-! ## The map without `%`

With `refresh`, a `%` of the source starts an escape that nothing wrote. Weigh `%` with 2, the other
bytes that need an escape with 3 and the rest with 1: unescaping never adds weight, and loses some at
every such `%`. -/

def weight (c : UInt8) : Nat :=
  if c = 37 then 2 else if escaped refresh c then 3 else 1

theorem weight_le (c : UInt8) : weight c ≤ 3 := by
  unfold weight
  repeat' split
  all_goals decide

theorem weight_pos (c : UInt8) : 1 ≤ weight c := by
  unfold weight
  repeat' split
  all_goals decide

theorem weight_escaped {c : UInt8} (h : escaped refresh c = true) : weight c = 3 := by
  have hc : c ≠ 37 := by
    rintro rfl
    exact absurd h (by decide)
  rw [weight, if_neg hc, if_pos h]

theorem weight_hex {c v : UInt8} (h : hexValue c = some v) : weight c = 1 ∧ c ≠ 37 := by
  have hall : ∀ c, (hexValue c).isSome → weight c = 1 ∧ c ≠ 37 := forall_byte (by decide +kernel)
  exact hall c (by rw [h]; rfl)

theorem decoded_digits (c : UInt8) (s : List UInt8) :
    countLoop weight (decoded .usual (hex.getD (c >>> 4).toNat 0 :: hex.getD (c &&& 0xf).toNat 0 :: s)) =
      2 + countLoop weight (decoded .usual s) := by
  obtain ⟨hw, hne⟩ := weight_hex (hexValue_high c)
  obtain ⟨hw', hne'⟩ := weight_hex (hexValue_low c)
  rw [decoded_usual hne, decoded_usual hne', countLoop_cons, countLoop_cons, hw, hw', ← Nat.add_assoc]

section Weights

variable {s : List UInt8} {w : Nat} {c : UInt8}

/-- An escaped byte, written as `%` and two digits, in front of a text of weight `w` at most. -/
theorem weight_escaped_le (hs : ∀ q : Sw, countLoop weight (decoded q s) ≤ w + q.lag)
    (hc : escaped refresh c) (q : Sw) :
    countLoop weight (decoded q (escapeByte refresh c ++ s)) ≤ weight c + w + q.lag := by
  have hpercent : hexValue 37 = none := by decide
  have husual := hs .usual
  rw [escapeByte_append hc, weight_escaped hc]
  cases q with
  | usual =>
      rw [decoded_escaped, countLoop_cons, weight_escaped hc]
      simp only [Sw.lag] at husual ⊢
      omega
  | quoted =>
      rw [decoded_quoted hpercent, countLoop_cons, decoded_digits]
      have h37 : weight 37 = 2 := rfl
      simp only [Sw.lag] at husual ⊢
      omega
  | quotedSecond d b =>
      rw [decoded_second hpercent, decoded_digits]
      simp only [Sw.lag] at husual ⊢
      omega

/-- The same for a byte that is copied. -/
theorem weight_copied_le (hs : ∀ q : Sw, countLoop weight (decoded q s) ≤ w + q.lag) (q : Sw) :
    countLoop weight (decoded q (c :: s)) ≤ weight c + w + q.lag := by
  have hpos := weight_pos c
  have husual := hs .usual
  cases q with
  | usual =>
      by_cases hp : c = 37
      · have h37 : weight c = 2 := by rw [hp]; rfl
        have hquoted := hs .quoted
        rw [hp, decoded_usual_percent, ← hp]
        simp only [Sw.lag] at hquoted ⊢
        omega
      · rw [decoded_usual hp, countLoop_cons]
        simp only [Sw.lag] at husual ⊢
        omega
  | quoted =>
      cases hv : hexValue c with
      | some v =>
          have hsecond := hs (.quotedSecond v c)
          rw [decoded_quoted_hex hv, (weight_hex hv).1]
          simp only [Sw.lag] at hsecond ⊢
          omega
      | none =>
          rw [decoded_quoted hv, countLoop_cons]
          simp only [Sw.lag] at husual ⊢
          omega
  | quotedSecond d b =>
      cases hv : hexValue c with
      | some v =>
          have hle := weight_le (d <<< 4 + v)
          rw [decoded_second_hex hv, countLoop_cons]
          simp only [Sw.lag] at husual ⊢
          omega
      | none =>
          rw [decoded_second hv]
          simp only [Sw.lag] at husual ⊢
          omega

end Weights

theorem weight_decoded_le (x : List UInt8) (q : Sw) :
    countLoop weight (decoded q (escapeUri .refresh x)) ≤ countLoop weight x + q.lag := by
  induction x generalizing q with
  | nil => simp [escapeUri, writeLoop, countLoop]
  | cons c x ih =>
      rw [escapeUri_cons, countLoop_cons]
      by_cases hc : escaped refresh c
      · exact weight_escaped_le ih hc q
      · rw [EscapeType.map, escapeByte, if_neg hc, List.singleton_append]
        exact weight_copied_le ih q

theorem weight_decoded_lt {x : List UInt8} (h : 37 ∈ x) :
    countLoop weight (decoded .usual (escapeUri .refresh x)) < countLoop weight x := by
  induction x with
  | nil => cases h
  | cons c x ih =>
      rw [escapeUri_cons, countLoop_cons]
      by_cases hp : c = 37
      · have hquoted := weight_decoded_le x .quoted
        have hbyte : escapeByte EscapeType.refresh.map c = [37] := by rw [hp]; decide
        have h37 : weight c = 2 := by rw [hp]; rfl
        rw [hbyte, List.singleton_append, decoded_usual_percent, h37]
        simp only [Sw.lag] at hquoted
        omega
      · have hlt := ih ((List.mem_cons.mp h).resolve_left (Ne.symm hp))
        rw [decoded_escapeByte (Or.inr hp), countLoop_cons]
        omega

/-! ## Exactly when the source is restored -/

/-- Unescaping with type 0 consumes the escaped text and restores its source. -/
def Restored (type : EscapeType) (x : List UInt8) : Prop :=
  unescapeUri 0 (escapeUri type x) = (x, [])

theorem percent_escaped {type : EscapeType} (h : type ≠ .refresh) : escaped type.map 37 = true := by
  cases type with
  | refresh => exact absurd rfl h
  | _ => decide

/-- Every map but `refresh` has `%`, and under `refresh` no source with a `%` comes back. -/
theorem unescapeUri_restores_iff (type : EscapeType) (x : List UInt8) :
    Restored type x ↔ type ≠ .refresh ∨ 37 ∉ x := by
  rw [Restored, unescapeUri_zero, Prod.mk.injEq, and_iff_left rfl]
  constructor
  · intro h
    by_cases htype : type = .refresh
    · refine Or.inr fun hmem => ?_
      have hlt := weight_decoded_lt hmem
      rw [htype] at h
      rw [h] at hlt
      exact Nat.lt_irrefl _ hlt
    · exact Or.inl htype
  · intro h
    exact decoded_escapeUri (h.imp_left percent_escaped)

/-- The text `%41` comes back as `A`. -/
theorem restored_refresh_false :
    unescapeUri 0 (escapeUri .refresh (ascii "%41")) = (ascii "A", []) ∧
      ¬Restored .refresh (ascii "%41") := by
  unfold Restored
  decide +kernel

end Umicat.Text
