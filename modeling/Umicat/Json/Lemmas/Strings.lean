import Mathlib.Data.List.TakeWhile
import Umicat.Json.Parse

/-!
# Bounds of the strings

The second pass of `parse_string` can leave the pairs of the first one: `\u` takes four more bytes
whatever they are, so it can end between a backslash and the byte behind it. The block that the first
pass asks for is large enough all the same.
-/

namespace Umicat.Json

open Umicat.Base
open Umicat.Base.Program
open Umicat.Base.Outcome

/-! ## Escapes -/

/-- The bytes that the first pass skips. -/
def skips : List UInt8 → Nat
  | [] => 0
  | [92] => 1
  | 92 :: _ :: rest => 1 + skips rest
  | _ :: rest => skips rest

theorem skips_cons {b : UInt8} (h : b ≠ 92) (l : List UInt8) : skips (b :: l) = skips l := by
  rw [skips]
  · rintro rfl; exact absurd rfl h
  · rintro _ _ rfl; exact absurd rfl h

theorem skips_le (l : List UInt8) : skips l ≤ l.length := by
  fun_induction skips l with
  | case1 => simp
  | case2 => simp
  | case3 _ rest ih => simp only [List.length_cons]; omega
  | case4 b rest _ _ ih => simp only [List.length_cons]; omega

/-- The bytes still to be skipped from a place on that is where a pair begins, or in the middle of
one. -/
def SkipsLeft (l : List UInt8) (k : Nat) : Prop := k = skips l ∨ k = skips l.tail

theorem SkipsLeft.le {l : List UInt8} {k : Nat} (h : SkipsLeft l k) : k ≤ l.length := by
  rcases h with rfl | rfl
  · exact skips_le l
  · have := skips_le l.tail
    rw [List.length_tail] at this
    omega

theorem SkipsLeft.cons {b : UInt8} {l : List UInt8} {k : Nat} (h : SkipsLeft (b :: l) k)
    (hb : b ≠ 92) : SkipsLeft l k := by
  rcases h with h | h
  · exact .inl (h.trans (skips_cons hb l))
  · exact .inl h

/-- Two bytes hold one backslash that begins a pair, at most. -/
theorem SkipsLeft.drop_two {l : List UInt8} {k : Nat} (h : SkipsLeft l k) :
    ∃ k', SkipsLeft (l.drop 2) k' ∧ k ≤ k' + 1 := by
  have hcons : ∀ b (l : List UInt8), ∃ k', SkipsLeft l k' ∧ skips (b :: l) ≤ k' + 1 := by
    intro b l
    by_cases hb : b = 92
    · subst hb
      cases l with
      | nil => exact ⟨0, .inl rfl, by simp [skips]⟩
      | cons c l => exact ⟨skips l, .inr rfl, by simp only [skips]; omega⟩
    · exact ⟨skips l, .inl rfl, by rw [skips_cons hb]; omega⟩
  match l, h with
  | [], h => exact ⟨k, h, by omega⟩
  | [b], h => exact ⟨0, .inl rfl, by have := h.le; simpa using this⟩
  | b :: c :: l, .inr h =>
      obtain ⟨k', hk', hle⟩ := hcons c l
      exact ⟨k', hk', h ▸ hle⟩
  | b :: c :: l, .inl h =>
      by_cases hb : b = 92
      · subst hb
        exact ⟨skips l, .inl rfl, by simp only [skips] at h; omega⟩
      · obtain ⟨k', hk', hle⟩ := hcons c l
        rw [skips_cons hb] at h
        exact ⟨k', hk', h ▸ hle⟩

theorem SkipsLeft.drop_even {l : List UInt8} {k : Nat} (h : SkipsLeft l k) (n : Nat) :
    ∃ k', SkipsLeft (l.drop (2 * n)) k' ∧ k ≤ k' + n := by
  induction n generalizing l k with
  | zero => exact ⟨k, h, le_rfl⟩
  | succ n ih =>
      obtain ⟨k₁, h₁, hle₁⟩ := h.drop_two
      obtain ⟨k₂, h₂, hle₂⟩ := ih h₁
      refine ⟨k₂, ?_, by omega⟩
      rwa [List.drop_drop, show 2 + 2 * n = 2 * (n + 1) by omega] at h₂

/-- The first pass stops at a quote, and counts the bytes to skip in front of it. -/
theorem scanString_spec {l : List UInt8} {n k n' k' : Nat}
    (h : scanString l n k = some (n', k')) :
    ∃ m, n' = n + m ∧ l[m]? = some 34 ∧ k' = k + skips (l.take m) := by
  fun_induction scanString l n k with
  | case1 => cases h
  | case2 rest n k =>
      simp only [Option.some.injEq, Prod.mk.injEq] at h
      exact ⟨0, by omega, rfl, by simp [skips, h.2]⟩
  | case3 => cases h
  | case4 b rest n k ih =>
      obtain ⟨m, hn, hm, hk⟩ := ih h
      refine ⟨m + 2, by omega, by simpa using hm, ?_⟩
      simp only [List.take_succ_cons, skips]
      omega
  | case5 b rest n k hq hone htwo ih =>
      obtain ⟨m, hn, hm, hk⟩ := ih h
      have hb : b ≠ 92 := by
        rintro rfl
        cases rest with
        | nil => exact hone rfl rfl
        | cons c rest => exact htwo c rest rfl rfl
      refine ⟨m + 1, by omega, by simpa using hm, ?_⟩
      rw [List.take_succ_cons, skips_cons hb]
      exact hk

/-! ## Reads and writes in bounds -/

section

variable {alloc : Nat → Bool} {content : List UInt8} {s : State}

theorem readAt_of_lt {i : Nat} (h : s.offset + i < content.length) :
    readAt content i s = .ok (content.get ⟨s.offset + i, h⟩) s := by
  simp only [readAt, List.getElem?_eq_getElem h, List.get_eq_getElem]

theorem readAt_ends {i : Nat} {E : State → Prop} (h : s.offset + i < content.length) :
    (readAt content i s).Ends (fun b s' => s' = s ∧ content[s.offset + i]? = some b) E := by
  rw [readAt_of_lt h]
  exact ⟨rfl, by simp⟩

theorem emit_ends {size : Nat} {output bs : List UInt8} {E : State → Prop}
    (h : output.length + bs.length ≤ size) :
    (emit size output bs s).Ends (fun out s' => out = output ++ bs ∧ s' = s) E := by
  simp only [emit, h, ↓reduceIte]
  exact ⟨rfl, rfl⟩

theorem hexValue_lt {b : UInt8} {d : Nat} (h : hexValue b = some d) : d < 16 := by
  unfold hexValue at h
  split at h
  · next hb =>
      rw [UInt8.le_iff_toNat_le, UInt8.le_iff_toNat_le] at hb
      simp at h hb
      omega
  · split at h
    · next hb =>
        rw [UInt8.le_iff_toNat_le, UInt8.le_iff_toNat_le] at hb
        simp at h hb
        omega
    · split at h
      · next hb =>
          rw [UInt8.le_iff_toNat_le, UInt8.le_iff_toNat_le] at hb
          simp at h hb
          omega
      · cases h

theorem parseHex4Loop_ends {E : State → Prop} (n i h : Nat)
    (hi : s.offset + i + n < content.length) :
    (parseHex4Loop content (n + 1) i h s).Ends
      (fun v s' => s' = s ∧ v + 1 ≤ (h + 16) * 16 ^ n) E := by
  induction n generalizing i h with
  | zero =>
      apply (readAt_ends (by omega)).bind
      rintro b s' ⟨rfl, -⟩
      cases hd : hexValue b with
      | none => exact ⟨rfl, by omega⟩
      | some d =>
          have := hexValue_lt hd
          exact ⟨rfl, by simp only [↓reduceIte]; omega⟩
  | succ n ih =>
      apply (readAt_ends (by omega)).bind
      rintro b s' ⟨rfl, -⟩
      cases hd : hexValue b with
      | none =>
          have hpos := Nat.mul_le_mul_left (h + 16) (Nat.one_le_pow (n + 1) 16 (by decide))
          exact ⟨rfl, by omega⟩
      | some d =>
          have hd' := hexValue_lt hd
          have hle : ((h + d) <<< 4 + 16) * 16 ^ n ≤ (h + 16) * 16 ^ (n + 1) := by
            rw [Nat.shiftLeft_eq, pow_succ' 16 n, ← mul_assoc]
            have : (h + d) * 2 ^ 4 + 16 ≤ (h + 16) * 16 := by omega
            exact Nat.mul_le_mul_right _ this
          apply (ih (i + 1) _ (by omega)).mono
          · rintro v s' ⟨rfl, hv⟩
            rw [if_neg (Nat.succ_ne_zero n)] at hv
            exact ⟨rfl, hv.trans hle⟩
          · exact fun _ h => h

theorem parseHex4_ends {E : State → Prop} {i : Nat} (hi : s.offset + i + 4 ≤ content.length) :
    (parseHex4 content i s).Ends (fun v s' => s' = s ∧ v < 0x10000) E := by
  apply (parseHex4Loop_ends 3 i 0 (by omega)).mono
  · rintro v s' ⟨rfl, hv⟩
    exact ⟨rfl, by omega⟩
  · exact fun _ h => h

theorem length_encodeTail (n codepoint : Nat) (bs : List UInt8) :
    (encodeTail n codepoint bs).2.length = n + bs.length := by
  induction n generalizing codepoint bs with
  | zero => simp [encodeTail]
  | succ n ih => rw [encodeTail, ih, List.length_cons]; omega

theorem length_encodeBytes (n mark codepoint : Nat) :
    (encodeBytes (n + 1) mark codepoint).length = n + 1 := by
  unfold encodeBytes
  split <;> simp [length_encodeTail]

theorem length_encodeUtf8 {codepoint : Nat} {bs : List UInt8} (h : encodeUtf8 codepoint = some bs) :
    bs.length ≤ 4 ∧ (codepoint < 0x10000 → bs.length ≤ 3) := by
  unfold encodeUtf8 at h
  repeat' split at h
  all_goals cases h
  all_goals
    rw [length_encodeBytes]
    omega

theorem encoded_ends {n codepoint : Nat} :
    (encoded n codepoint s).Ends
      (fun r s' => s' = s ∧ r.1 = n ∧ r.2.length ≤ 4 ∧ (codepoint < 0x10000 → r.2.length ≤ 3))
      (fun s' => s' = s) := by
  unfold encoded
  cases h : encodeUtf8 codepoint with
  | some bs => exact ⟨rfl, rfl, length_encodeUtf8 h⟩
  | none => rfl

/-- A literal of 6 bytes is 3 bytes in UTF-8 at most, one of 12 bytes 4 bytes. -/
theorem utf16LiteralToUtf8_ends {stop : Nat} (hstop : stop ≤ content.length) :
    (utf16LiteralToUtf8 content stop s).Ends
      (fun r s' => s' = s ∧ s.offset + r.1 ≤ stop ∧ ∃ n, r.1 = 2 * n ∧ 0 < n ∧ r.2.length ≤ n)
      (fun s' => s' = s) := by
  unfold utf16LiteralToUtf8
  rw [get_bind]
  split
  · rfl
  · apply (parseHex4_ends (by omega)).bind
    rintro first s' ⟨rfl, hfirst⟩
    split
    · rfl
    split
    · split
      · rfl
      · apply (readAt_ends (by omega)).bind
        rintro b₀ s' ⟨rfl, -⟩
        split
        · rfl
        apply (readAt_ends (by omega)).bind
        rintro b₁ s' ⟨rfl, -⟩
        split
        · rfl
        apply (parseHex4_ends (by omega)).bind
        rintro second s' ⟨rfl, -⟩
        split
        · rfl
        · apply encoded_ends.mono
          · rintro r s' ⟨rfl, hr, hlen, -⟩
            exact ⟨rfl, by omega, 6, by omega, by omega, by omega⟩
          · exact fun _ h => h
    · apply encoded_ends.mono
      · rintro r s' ⟨rfl, hr, -, hlen⟩
        exact ⟨rfl, by omega, 3, by omega, by omega, hlen hfirst⟩
      · exact fun _ h => h

/-- The room that is left in the block: `k` bytes are still to be skipped. -/
theorem copyString_ends {stop : Nat} (size fuel : Nat) (output : List UInt8) {k : Nat}
    (hstop : stop < content.length) (hfuel : stop < fuel + s.offset) (hpos : 0 < fuel)
    (hoff : s.offset ≤ stop + 1) (hk : SkipsLeft ((content.take stop).drop s.offset) k)
    (hroom : output.length + (stop + 1 - s.offset) + 1 ≤ size + k) :
    (copyString content stop size fuel output s).Ends
      (fun output' s' => output'.length + 1 ≤ size ∧ s'.live = s.live)
      (fun s' => s'.live = s.live) := by
  induction fuel generalizing s output k with
  | zero => omega
  | succ fuel ih =>
      -- one round that goes `2 * n` bytes forward, or one byte that is no backslash
      have round : ∀ (n : Nat) (bs : List UInt8) (k' : Nat), s.offset < stop → 0 < n →
          s.offset + n ≤ stop + 1 →
          SkipsLeft ((content.take stop).drop (s.offset + n)) k' →
          bs.length + k ≤ n + k' →
          ((do
            let output ← emit size output bs
            advance n
            copyString content stop size fuel output : Parser (List UInt8)) s).Ends
            (fun output' s' => output'.length + 1 ≤ size ∧ s'.live = s.live)
            (fun s' => s'.live = s.live) := by
        intro n bs k' hlt hn hle hk' hbs
        have hk'' := hk'.le
        rw [List.length_drop, List.length_take] at hk''
        apply (emit_ends (by omega)).bind
        rintro out s' ⟨rfl, rfl⟩
        apply ih
        · simp only; omega
        · omega
        · exact hle
        · exact hk'
        · simp only [List.length_append]; omega
      rw [copyString, get_bind]
      split
      · next hlt =>
          apply (readAt_ends (by omega)).bind
          rintro b s' ⟨rfl, hb⟩
          have hhead : (content.take stop).drop s'.offset =
              b :: (content.take stop).drop (s'.offset + 1) := by
            rw [List.drop_eq_getElem_cons (by rw [List.length_take]; omega), List.getElem_take]
            congr
            exact (List.getElem?_eq_some_iff.mp hb).2
          split
          · next hne =>
              rw [hhead] at hk
              exact round 1 [b] k hlt (by omega) (by omega) (hk.cons hne) (by simp)
          · apply (readAt_ends (by omega)).bind
            rintro e s' ⟨rfl, -⟩
            cases hu : unescape e with
            | some c =>
                obtain ⟨k', hk', hle⟩ := hk.drop_two
                rw [List.drop_drop] at hk'
                exact round 2 [c] k' hlt (by omega) (by omega) hk' (by simp; omega)
            | none =>
                by_cases he : e = 117
                · simp only [he, ↓reduceIte]
                  apply ((utf16LiteralToUtf8_ends hstop.le).mono (fun _ _ h => h) ?_).bind
                  · rintro ⟨len, bs⟩ s' ⟨rfl, hlen, n, rfl, hn, hbs⟩
                    simp only at hbs hlen
                    obtain ⟨k', hk', hle⟩ := hk.drop_even n
                    rw [List.drop_drop] at hk'
                    exact round (2 * n) bs k' hlt (by omega) (by omega) hk' (by omega)
                  · rintro s' rfl; rfl
                · simp only [he, ↓reduceIte]
                  rfl
      · have := hk.le
        rw [List.length_drop, List.length_take] at this
        exact ⟨by omega, rfl⟩

theorem allocate_ends :
    (allocate alloc s).Ends (fun _ s' => s'.offset = s.offset ∧ s'.live = s.live + 1)
      (fun s' => s'.live = s.live) := by
  unfold allocate
  split
  · exact ⟨rfl, rfl⟩
  · rfl

theorem not_mem_takeWhile_ne (l : List UInt8) : 0 ∉ l.takeWhile (· ≠ 0) := by
  intro h
  simpa using List.mem_takeWhile_imp h

theorem parseString_ends (h : s.offset < content.length) :
    (parseString alloc content s).Ends
      (fun name s' => s.offset < s'.offset ∧ content[s'.offset - 1]? = some 34 ∧
        s'.live = s.live + 1 ∧ 0 ∉ name)
      (fun s' => s'.live = s.live) := by
  unfold parseString
  rw [get_bind]
  apply (readAt_ends (by omega)).bind
  rintro b s ⟨rfl, -⟩
  simp only [advance, modify_bind]
  split
  · rfl
  · cases hscan : scanString (content.drop (s.offset + 1)) 0 0 with
    | none => rfl
    | some r =>
        obtain ⟨n, skipped⟩ := r
        obtain ⟨m, hn, hquote, hskip⟩ := scanString_spec hscan
        obtain rfl : n = m := by omega
        rw [List.getElem?_drop] at hquote
        have hstop := (List.getElem?_eq_some_iff.mp hquote).1
        have htake : (content.take (s.offset + 1 + n)).drop (s.offset + 1) =
            (content.drop (s.offset + 1)).take n := by
          rw [List.drop_take, Nat.add_sub_cancel_left]
        have hle := skips_le ((content.drop (s.offset + 1)).take n)
        rw [List.length_take] at hle
        apply allocate_ends.bind
        rintro - s₁ ⟨hoff₁, hlive₁⟩
        have hcopy := copyString_ends (k := skipped) (s := s₁)
          (s.offset + 1 + n - s.offset - skipped + 1) (n + 1) [] hstop
          (by simp only [hoff₁]; omega) (by omega) (by simp only [hoff₁]; omega)
          (.inl (by rw [hoff₁, htake]; omega)) (by simp only [hoff₁, List.length_nil]; omega)
        apply (hcopy.onFail _).bind
        · rintro output s₂ ⟨hlen, hlive₂⟩
          apply (emit_ends hlen).bind
          rintro out s₃ ⟨-, rfl⟩
          refine ⟨?_, ?_, ?_, not_mem_takeWhile_ne out⟩
          · change s.offset < s.offset + 1 + n + 1
            omega
          · exact hquote
          · change s₃.live = s.live + 1
            rw [hlive₂, hlive₁]
        · intro s₂ hlive₂
          simp only [free, hlive₂, hlive₁]
          omega

end

end Umicat.Json
