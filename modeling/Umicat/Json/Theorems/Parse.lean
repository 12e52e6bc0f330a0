import Umicat.Json.Lemmas.Values

/-!
# Every text is read in bounds

For every text and every allocator the parser ends without an access out of bounds, with the blocks
of the tree it returns and no others, and the tree is well formed.
-/

namespace Umicat.Json

open Umicat.Base
open Umicat.Base.Program
open Umicat.Base.Outcome

variable {alloc : Nat → Bool} {content : List UInt8}

theorem parseWithLengthOpts_ends (alloc : Nat → Bool) (requireNullTerminated : Bool) {s : State}
    (hlast : content.getLast? ≠ some 44) :
    (parseWithLengthOpts alloc content requireNullTerminated s).Ends
      (fun item s' => s'.live = s.live + 1 + item.owned ∧ s'.offset ≤ content.length ∧
        Formed nestingLimit item ∧ item.string = none)
      (fun s' => s'.live = s.live) := by
  unfold parseWithLengthOpts
  split
  · rfl
  · apply allocate_ends.bind
    rintro - s₁ ⟨-, hlive₁⟩
    apply Ends.onFail (F := fun s' => s'.live = s₁.live)
    · simp only [skipUtf8Bom, modify_bind, bufferSkipWhitespace_bind]
      apply (parseValue_ends hlast nestingLimit _).mono (fun _ _ h => h) _ |>.bind
      · rintro item s₂ ⟨htook, hformed, hkey⟩
        have hlive₂ : s₂.live = s₁.live + item.owned := by
          rw [htook.live]
          split <;> rfl
        split
        · simp only [bufferSkipWhitespace_bind, get_bind]
          split
          · next hnul => exact ⟨by simp only; omega, (lt_of_looksAt hnul).le, hformed, hkey⟩
          · change s₂.live - item.owned = s₁.live
            omega
        · exact ⟨by omega, htook.le, hformed, hkey⟩
      · intro s₂ hs₂
        rw [hs₂]
        split <;> rfl
    · intro s₂ hs₂
      simp only [free]
      omega

/-- `cJSON_ParseWithLengthOpts` on a text that does not end with a comma: no access out of bounds, no
block is lost, and the error is inside the text. -/
theorem parseWithLengthOpts_in_bounds (alloc : Nat → Bool) (content : List UInt8)
    (requireNullTerminated : Bool) (hne : content ≠ []) (hlast : content.getLast? ≠ some 44) :
    match parseWithLengthOpts alloc content requireNullTerminated ⟨0, 0, 0⟩ with
    | .ok item s => s.live = 1 + item.owned ∧ s.offset ≤ content.length
    | .fail s => s.live = 0 ∧ errorPosition content s < content.length
    | .fault => False := by
  have hpos := List.length_pos_iff.mpr hne
  have hends := parseWithLengthOpts_ends alloc requireNullTerminated (s := ⟨0, 0, 0⟩) hlast
  cases h : parseWithLengthOpts alloc content requireNullTerminated ⟨0, 0, 0⟩ with
  | ok item s =>
      obtain ⟨hlive, hle, -⟩ := hends.of_ok h
      exact ⟨by simpa using hlive, hle⟩
  | fail s =>
      refine ⟨hends.of_fail h, ?_⟩
      unfold errorPosition
      split
      · assumption
      · omega
  | fault => exact hends.ne_fault h

/-- An array that is not closed. -/
theorem parseWithLengthOpts_in_bounds_open :
    ascii "[1" ≠ [] ∧ (ascii "[1").getLast? ≠ some 44 ∧
    match parseWithLengthOpts (fun _ => true) (ascii "[1") true ⟨0, 0, 0⟩ with
    | .ok item s => s.live = 1 + item.owned ∧ s.offset ≤ (ascii "[1").length
    | .fail s => s.live = 0 ∧ errorPosition (ascii "[1") s < (ascii "[1").length
    | .fault => False :=
  ⟨by decide, by decide, parseWithLengthOpts_in_bounds (fun _ => true) (ascii "[1") true (by decide)
    (by decide)⟩

/-- `cJSON_Parse` on any string: it ends in bounds, a tree that it returns is well formed and nested
no deeper than the limit, and a failure leaves no block behind. -/
theorem parse_formed (alloc : Nat → Bool) (s : List UInt8) :
    (∃ item s', parse alloc s = .ok item s' ∧ Formed nestingLimit item ∧ item.string = none ∧
      s'.live = 1 + item.owned) ∨
    ∃ s', parse alloc s = .fail s' ∧ s'.live = 0 := by
  have hends := parseWithLengthOpts_ends alloc false (s := ⟨0, 0, 0⟩)
    (show (s ++ [0]).getLast? ≠ some (44 : UInt8) by simp)
  cases h : parse alloc s with
  | ok item s' =>
      obtain ⟨hlive, -, hformed, hkey⟩ := hends.of_ok h
      exact .inl ⟨item, s', rfl, hformed, hkey, by simpa using hlive⟩
  | fail s' => exact .inr ⟨s', rfl, hends.of_fail h⟩
  | fault => exact absurd h hends.ne_fault

end Umicat.Json
