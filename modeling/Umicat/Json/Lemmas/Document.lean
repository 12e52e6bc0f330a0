import Umicat.Json.Lemmas.RoundTrip
import Umicat.Json.Lemmas.Tail

/-!
# Whole documents

`cJSON_Parse` on the text of an item, and on a document with more bytes behind it.
-/

namespace Umicat.Json

open Umicat.Base
open Umicat.Base.Program
open Umicat.Config (JsonType)

variable {alloc : Nat → Bool} {f t t' : List UInt8}

/-- The first byte of a byte order mark begins no value. -/
theorem parseValue_of_bom {content l : List UInt8} {s : State} {room : Nat} {item : Item}
    {s' : State} (h : content.drop s.offset = 239 :: l) :
    parseValue alloc content room s ≠ .ok item s' := by
  obtain ⟨array, object, heq⟩ := parseValue_eq_dispatch alloc content room
  rw [heq, dispatch_of_head h (by decide) (by decide) (by decide)]
  nofun

/-- The text has a byte order mark that is skipped. -/
def HasBom (content : List UInt8) : Prop :=
  4 < content.length ∧ startsWith content [0xEF, 0xBB, 0xBF] ⟨0, 1, 1⟩ = true

instance instDecidableHasBom (content : List UInt8) : Decidable (HasBom content) :=
  inferInstanceAs (Decidable (_ ∧ _))

/-- Where the value begins. -/
def valueStart (content : List UInt8) : Nat := skipTo content (if HasBom content then 3 else 0)

theorem parse_ok_iff {item : Item} {s : State} :
    parse alloc f = .ok item s ↔ alloc 0 = true ∧
      parseValue alloc (f ++ [0]) nestingLimit ⟨valueStart (f ++ [0]), 1, 1⟩ = .ok item s := by
  have hskip : (skipUtf8Bom (f ++ [0]) ⟨0, 1, 1⟩) =
      .ok () ⟨if HasBom (f ++ [0]) then 3 else 0, 1, 1⟩ := by
    by_cases hbom : HasBom (f ++ [0])
    · rw [if_pos hbom]
      unfold HasBom at hbom
      simp only [skipUtf8Bom, modify_apply, Nat.zero_add, hbom, and_self, ↓reduceIte]
    · rw [if_neg hbom]
      unfold HasBom at hbom
      simp only [skipUtf8Bom, modify_apply, Nat.zero_add, hbom, ↓reduceIte]
  unfold parse parseWithLengthOpts
  rw [if_neg (by simp)]
  constructor
  · intro h
    obtain ⟨_, s₁, halloc, h⟩ := of_bind_ok h
    unfold allocate at halloc
    split at halloc
    · next h0 =>
        cases halloc
        have hvalue := of_onFail_ok h
        rw [bind_ok hskip, bufferSkipWhitespace_bind] at hvalue
        obtain ⟨item', s₂, hvalue, hitem⟩ := of_bind_ok hvalue
        cases hitem
        exact ⟨h0, hvalue⟩
    · cases halloc
  · rintro ⟨h0, hvalue⟩
    have halloc : allocate alloc ⟨0, 0, 0⟩ = .ok () ⟨0, 1, 1⟩ := by
      simp only [allocate, h0, ↓reduceIte]
    rw [bind_ok halloc]
    apply onFail_ok
    rw [bind_ok hskip, bufferSkipWhitespace_bind]
    exact bind_ok hvalue

theorem hasBom_transfer (hf : f ≠ []) (ht : t.length = 1) (ht' : t.length ≤ t'.length)
    (hhead : ¬HasBom (f ++ t) → f.head? ≠ some 239) : HasBom (f ++ t') ↔ HasBom (f ++ t) := by
  constructor
  · rintro ⟨-, hstarts⟩
    by_contra hno
    obtain ⟨b, f', rfl⟩ := List.exists_cons_of_ne_nil hf
    have hb : (239 : UInt8) ≠ b := by
      rintro rfl
      exact hhead hno rfl
    exact not_startsWith_of_head_ne _ (b := b) (l := f' ++ t') rfl rfl hb hstarts
  · rintro ⟨hlen, hstarts⟩
    rw [List.length_append] at hlen
    refine ⟨by rw [List.length_append]; omega, ?_⟩
    obtain ⟨rest, hrest⟩ := ( List.isPrefixOf_iff_prefix).mp hstarts
    have hdrop : (f ++ t).drop 0 = [0xEF, 0xBB, 0xBF] ++ rest := hrest.symm
    obtain ⟨rest', hrest'⟩ := drop_transfer (o := 0) hdrop (by simp; omega)
    exact startsWith_of_drop (s := ⟨0, 1, 1⟩) hrest'

/-- The parser stops in front of the 0 that ends the string. -/
theorem offset_le_of_parseValue {room : Nat} {item : Item} {s s' : State}
    (h : parseValue alloc (f ++ [0]) room s = .ok item s') : s'.offset ≤ f.length := by
  have htook := ((parseValue_ends (by simp) room s).of_ok h).1
  obtain ⟨b, hb, hb0⟩ := htook.last
  have hle := htook.le
  rw [List.length_append, List.length_singleton] at hle
  rcases Nat.lt_or_ge f.length s'.offset with hlt | hge
  · rw [show s'.offset - 1 = f.length by omega, List.getElem?_append_right le_rfl] at hb
    simp at hb
    exact absurd hb.symm hb0
  · exact hge

/-- A document that is no bare number is read the same in front of any bytes. -/
theorem parse_append (alloc : Nat → Bool) (f junk : List UInt8) {item : Item} {s : State}
    (h : parse alloc f = .ok item s) (htype : item.type ≠ .number) :
    parse alloc (f ++ junk) = .ok item s := by
  rw [parse_ok_iff] at h ⊢
  obtain ⟨h0, h⟩ := h
  have hle := offset_le_of_parseValue h
  have hlt := ((parseValue_ends (by simp) nestingLimit _).of_ok h).1.lt
  simp only at hlt
  have hf : f ≠ [] := by
    rintro rfl
    simp at hle
    omega
  have hlen : ([0] : List UInt8).length ≤ (junk ++ [0]).length := by simp
  have hstart := le_skipTo (f ++ [0]) (if HasBom (f ++ [0]) then 3 else 0)
  -- a mark that is not skipped would be the first byte of the value
  have hhead : ¬HasBom (f ++ [0]) → f.head? ≠ some 239 := by
    intro hno hf
    obtain ⟨f', rfl⟩ := List.head?_eq_some_iff.mp hf
    have hskip : valueStart (239 :: f' ++ [0]) = 0 := by
      rw [valueStart, if_neg hno]
      exact skipTo_of_drop (show _ = [] ++ 239 :: (f' ++ [0]) from rfl) (by simp) (by decide)
    rw [hskip] at h
    exact parseValue_of_bom (l := f' ++ [0]) rfl h
  rw [List.append_assoc]
  have hvalueStart : valueStart (f ++ (junk ++ [0])) = valueStart (f ++ [0]) := by
    unfold valueStart at hlt ⊢
    simp only [hasBom_transfer hf rfl hlen hhead]
    exact skipTo_transfer (by simp) (by omega)
  rw [hvalueStart]
  exact ⟨h0, parseValue_transfer (by simp) hlen (by simp) nestingLimit h hle
    fun hnumber => absurd hnumber htype⟩

/-- `cJSON_Parse` on the text of an item. -/
theorem parse_render (format : Bool) {real : ℚ → List UInt8} (halloc : ∀ k, alloc k = true)
    {item : Item} (h : Formed nestingLimit item) (hkey : item.string = none)
    (hexact : Exact item) : ∃ s, parse alloc (render format real 0 item) = .ok item s := by
  obtain ⟨b, t, hbt, hb, -, -, h239⟩ := render_head format real h hexact 0
  have hback : ReadsBack (render format real 0 item ++ [0])
      (parseValue alloc (render format real 0 item ++ [0]) nestingLimit) item.anon
      (render format real 0 item) := readsBack_of_formed halloc h hexact 0
  obtain ⟨s, hs, -⟩ := hback ⟨0, 1, 1⟩ [0] rfl (follows_cons (by decide) [])
  have hbom : ¬HasBom (render format real 0 item ++ [0]) := by
    rintro ⟨-, hstarts⟩
    exact not_startsWith_of_head_ne _ (b := b) (l := t ++ [0]) (by rw [hbt]; rfl) rfl h239.symm
      hstarts
  have hstart : valueStart (render format real 0 item ++ [0]) = 0 := by
    rw [valueStart, if_neg hbom]
    exact skipTo_of_drop (show _ = [] ++ b :: (t ++ [0]) by rw [hbt]; rfl) (by simp) hb
  refine ⟨s, parse_ok_iff.mpr ⟨halloc 0, ?_⟩⟩
  rw [hstart, hs, Item.anon_eq hkey]

end Umicat.Json
