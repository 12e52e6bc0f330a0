import Umicat.Config.File
import Umicat.Json.Lemmas.Document

/-!
# Files that hold a whole document
-/

namespace Umicat.Config

open Umicat.Upstream
open Umicat.Base (ascii)
open Umicat.Json (Item State Formed Exact render nestingLimit parse_render)

/-- Bytes behind a string go on with it, unless it ends before them. -/
theorem cString_append (file rest : List UInt8) :
    cString (file ++ rest) = cString file ∨
      cString file = file ∧ cString (file ++ rest) = file ++ cString rest := by
  unfold cString
  by_cases h0 : ∀ b ∈ file, decide (b ≠ 0) = true
  · exact .inr ⟨List.takeWhile_eq_self_iff.mpr h0, List.takeWhile_append_of_pos h0⟩
  · left
    rw [List.takeWhile_append, if_neg]
    intro hlen
    have hself := ( List.takeWhile_prefix (p := fun b : UInt8 => decide (b ≠ 0))).eq_of_length hlen
    exact h0 (List.takeWhile_eq_self_iff.mp hself)

variable {alloc : Nat → Bool} {file : List UInt8} {item : Item} {s : State}

theorem parse_cString_append (h : Json.parse alloc (cString file) = .ok item s)
    (htype : item.type ≠ .number) (rest : List UInt8) :
    Json.parse alloc (cString (file ++ rest)) = .ok item s := by
  obtain heq | ⟨hfile, heq⟩ := cString_append file rest
  · rw [heq, h]
  · rw [heq]
    rw [hfile] at h
    exact Json.parse_append alloc file (cString rest) h htype

/-- A file with a whole document that is no bare number is read as this document, whatever is in the
memory behind it. -/
theorem confParseFile_of_document (env : Env) (mem : Nat → Srv) (path : List UInt8)
    (h : Json.parse alloc (cString file) = .ok item s) (htype : item.type ≠ .number)
    (rest : List UInt8) :
    confParseFile env mem alloc path (some file) rest = readRoot env mem item.json := by
  simp only [confParseFile, readDocument, parse_cString_append h htype rest, confParse]

/-- A printed document of one member, with another brace in the memory behind it. -/
theorem confParseFile_of_document_mode :
    let item := Item.nested .object [(Item.text (ascii "x")).named (ascii "mode")]
    let file := render false (fun _ => ascii "0.5") 0 item
    ∃ s, Json.parse (fun _ => true) (cString file) = .ok item s ∧ item.type ≠ .number ∧
      confParseFile ⟨4, none⟩ (fun _ => default) (fun _ => true) (ascii "umicat.json") (some file)
        [125, 0] = some (.error (.unknownMode (ascii "x"))) := by
  have hroot : readRoot ⟨4, none⟩ (fun _ => default)
      (Item.nested .object [(Item.text (ascii "x")).named (ascii "mode")]).json =
      some (.error (.unknownMode (ascii "x"))) := by decide +kernel
  intro item file
  have hformed : Formed nestingLimit item := by
    refine (Formed.object ?_ ?_ : Formed (999 + 1) item)
    · rintro c hc
      rw [List.mem_singleton.mp hc]
      exact .string (by decide)
    · rintro c hc
      rw [List.mem_singleton.mp hc]
      exact ⟨ascii "mode", rfl, by decide⟩
  have hexact : Exact item := by
    refine .node (by simp) ?_
    rintro c hc
    rw [List.mem_singleton.mp hc]
    exact .node (by simp) (by simp)
  have hfile : cString file = file := by decide +kernel
  obtain ⟨s, hs⟩ : ∃ s, Json.parse (fun _ => true) file = .ok item s :=
    parse_render false (fun _ => rfl) hformed rfl hexact
  have hparse : Json.parse (fun _ => true) (cString file) = .ok item s := by
    rw [hfile]
    exact hs
  have htype : item.type ≠ .number := by simp [item, Item.nested, Item.type]
  refine ⟨s, hparse, htype, ?_⟩
  rw [confParseFile_of_document ⟨4, none⟩ (fun _ => default) (ascii "umicat.json") hparse htype]
  exact hroot

end Umicat.Config
