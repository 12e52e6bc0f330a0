import Umicat.Json.Lemmas.Document

/-!
# The printer against its text, and the way back
-/

namespace Umicat.Json

open Umicat.Base
open Umicat.Base.Program
open Umicat.Base.Outcome

variable {format : Bool} {real : ℚ → List UInt8} {room : Nat} {item : Item}

/-- `cJSON_PrintPreallocated` never writes behind the buffer, and it returns true exactly when the
buffer has two bytes more than the text: the text with its 0 is then at the start of the buffer. -/
theorem printPreallocated_spec (format : Bool) (hreal : RealText real) (h : Formed room item)
    (memory : Nat → UInt8) {length : Nat} (hlength : length ≤ maxSize) :
    match printPreallocated format real item memory length with
    | .ok _ p => (render format real 0 item).length + 2 ≤ length ∧ p.length = length ∧
        load p.memory 0 ((render format real 0 item).length + 1) = render format real 0 item ++ [0]
    | .fail _ => length < (render format real 0 item).length + 2
    | .fault => False := by
  have hvalid : PrintBuffer.Valid ⟨memory, length, 0, 0, 0⟩ :=
    ⟨fun h => Nat.pos_of_ne_zero h, hlength⟩
  have hends := h.prints (fun _ => true) true format hreal _ hvalid
  unfold printPreallocated
  cases hprint : printValue (fun _ => true) true format real item ⟨memory, length, 0, 0, 0⟩ with
  | ok a p =>
      have hprinted := hends.of_ok hprint
      have htext := hprinted.text
      have hnul := hprinted.nul
      have hfits := hprinted.fits
      have hfixed := hprinted.fixed rfl
      simp only [Nat.zero_add] at htext hnul hfits hfixed
      refine ⟨by omega, hfixed, ?_⟩
      rw [load_add, htext, Nat.zero_add]
      simp [load, hnul]
  | fail p =>
      have hroom := hends.of_fail hprint
      simp only [Nat.zero_add] at hroom
      exact Nat.lt_of_not_le fun hle => hroom (.inl hle)
  | fault => exact hends.ne_fault hprint

/-- A half in a buffer of 5 bytes. -/
theorem printPreallocated_spec_half :
    RealText (fun _ => ascii "0.5") ∧ Formed 0 (.number (.finite (1 / 2))) ∧ 5 ≤ maxSize ∧
    match printPreallocated true (fun _ => ascii "0.5") (.number (.finite (1 / 2))) (fun _ => 0) 5
        with
    | .ok _ p => (render true (fun _ => ascii "0.5") 0 (.number (.finite (1 / 2)))).length + 2 ≤ 5 ∧
        p.length = 5 ∧
        load p.memory 0
            ((render true (fun _ => ascii "0.5") 0 (.number (.finite (1 / 2)))).length + 1) =
          render true (fun _ => ascii "0.5") 0 (.number (.finite (1 / 2))) ++ [0]
    | .fail _ => 5 < (render true (fun _ => ascii "0.5") 0 (.number (.finite (1 / 2)))).length + 2
    | .fault => False :=
  have hreal : RealText (fun _ => ascii "0.5") := ⟨fun _ => by decide, fun _ => by decide⟩
  ⟨hreal, .number, by decide,
    printPreallocated_spec true hreal (.number : Formed 0 _) (fun _ => 0) (by decide)⟩

/-- With memory for every call, `cJSON_Print` and `cJSON_PrintUnformatted` print a text that
`cJSON_Parse` reads as the tree it came from, when the numbers of the tree are of type `int`. -/
theorem parse_print (format : Bool) {alloc : Nat → Bool} (halloc : ∀ k, alloc k = true)
    (hreal : RealText real) (h : Formed nestingLimit item) (hkey : item.string = none)
    (hexact : Exact item) (memory : Nat → UInt8)
    (hsize : (render format real 0 item).length + 2 ≤ maxSize) :
    ∃ p, print alloc format real item memory = .ok () p ∧
      ∃ s, parse alloc (load p.memory 0 p.offset) = .ok item s := by
  have hvalid : PrintBuffer.Valid ⟨memory, 256, 0, 0, 0⟩ := ⟨fun _ => by simp, by simp [maxSize]⟩
  have hends := (h.prints alloc false format hreal).wrote hvalid
    (h.not_mem_render hreal _)
  cases hprint : print alloc format real item memory with
  | ok a p =>
      have hwrote := hends.of_ok hprint
      have htext := hwrote.text
      have hoff := hwrote.offset
      simp only [Nat.zero_add] at htext hoff
      refine ⟨p, rfl, ?_⟩
      rw [hoff, htext]
      exact parse_render format halloc h hkey hexact
  | fail p =>
      have hroom := hends.of_fail hprint
      simp only [Nat.zero_add] at hroom
      exact absurd (.inr ⟨rfl, hsize, halloc⟩) hroom
  | fault => exact absurd hprint hends.ne_fault

/-- An array with a number, a string and an empty object. -/
theorem parse_print_array :
    let item := Item.nested .array
      [.number (.finite 7), .text (ascii "a\n"), .nested .object []]
    (∀ k, (fun _ : Nat => true) k = true) ∧ RealText (fun _ => ascii "0.5") ∧
    Formed nestingLimit item ∧ item.string = none ∧ Exact item ∧
    (render true (fun _ => ascii "0.5") 0 item).length + 2 ≤ maxSize ∧
    ∃ p, print (fun _ => true) true (fun _ => ascii "0.5") item (fun _ => 0) = .ok () p ∧
      ∃ s, parse (fun _ => true) (load p.memory 0 p.offset) = .ok item s := by
  intro item
  have hreal : RealText (fun _ => ascii "0.5") := ⟨fun _ => by decide, fun _ => by decide⟩
  have hseven : saturate (.finite 7) = 7 := saturate_intCast 7
  have hformed : Formed nestingLimit item := by
    refine (Formed.array ?_ ?_ : Formed (999 + 1) item)
    · simp only [List.mem_cons, List.not_mem_nil, or_false]
      rintro c (rfl | rfl | rfl)
      · exact .number
      · exact .string (by decide)
      · change Formed (998 + 1) (.nested .object [])
        exact .object (by simp) (by simp)
    · simp only [List.mem_cons, List.not_mem_nil, or_false]
      rintro c (rfl | rfl | rfl) <;> rfl
  have hexact : Exact item := by
    refine .node (by simp) ?_
    simp only [List.mem_cons, List.not_mem_nil, or_false]
    rintro c (rfl | rfl | rfl)
    · refine .node (fun _ => ?_) (by simp)
      rw [hseven]
      rfl
    · exact .node (by simp) (by simp)
    · exact .node (by simp) (by simp)
  have hsize : (render true (fun _ => ascii "0.5") 0 item).length + 2 ≤ maxSize := by
    have hlen : (sprintfD 7).length ≤ 11 := length_sprintfD_le 7
    have htext : numberText (fun _ => ascii "0.5") (saturate (.finite 7)) (.finite 7) =
        sprintfD 7 := by
      rw [hseven]
      simp [numberText]
    simp only [item, Item.nested, Item.number, Item.text, render, renderElements, renderMembers,
      htext, List.length_append, List.length_cons]
    have hrest : (quoted (some (ascii "a\n"))).length = 5 := by decide
    simp [comma, lineEnd, tabs, maxSize, hrest]
    omega
  exact ⟨fun _ => rfl, hreal, hformed, rfl, hexact, hsize,
    parse_print true (fun _ => rfl) hreal hformed rfl hexact (fun _ => 0) hsize⟩

end Umicat.Json
