import Umicat.Json.Lemmas.Strings

/-!
# What the parser does to its state

One lemma for each function of the parser: it neither reads nor writes out of bounds, it goes
forward, and the blocks that are left are those of the item that it returns.
-/

namespace Umicat.Json

open Umicat.Base
open Umicat.Base.Program
open Umicat.Base.Outcome
open Umicat.Config (JsonType)

/-! ## Well-formed items -/

/-- The items that stand for a value with `room` levels of nesting at most. The key is that of the
object the value is in. -/
inductive Formed : Nat → Item → Prop
  | null {room k} : Formed room (.node .null k none 0 (.finite 0) [])
  | false {room k} : Formed room (.node .false k none 0 (.finite 0) [])
  | true {room k} : Formed room (.node .true k none 1 (.finite 0) [])
  | number {room k d} : Formed room (.node .number k none (saturate d) d [])
  | string {room k s} : 0 ∉ s → Formed room (.node .string k (some s) 0 (.finite 0) [])
  | array {room k cs} : (∀ c ∈ cs, Formed room c) → (∀ c ∈ cs, c.string = none) →
      Formed (room + 1) (.node .array k none 0 (.finite 0) cs)
  | object {room k cs} : (∀ c ∈ cs, Formed room c) →
      (∀ c ∈ cs, ∃ name, c.string = some name ∧ 0 ∉ name) →
      Formed (room + 1) (.node .object k none 0 (.finite 0) cs)

theorem Formed.named {room : Nat} {item : Item} (h : Formed room item) (name : List UInt8) :
    Formed room (item.named name) := by
  cases h with
  | null => exact .null
  | false => exact .false
  | true => exact .true
  | number => exact .number
  | string hs => exact .string hs
  | array hcs hk => exact .array hcs hk
  | object hcs hk => exact .object hcs hk

theorem Item.string_named (name : List UInt8) (item : Item) :
    (item.named name).string = some name := by
  cases item
  rfl

theorem Item.owned_named {item : Item} (h : item.string = none) (name : List UInt8) :
    (item.named name).owned = item.owned + 1 := by
  cases item
  cases h
  simp only [Item.named, Item.owned, stringBlocks, Option.isSome_some, Option.isSome_none,
    Bool.false_eq_true, ↓reduceIte]
  omega

theorem Item.blocks_append (xs ys : List Item) :
    Item.blocks (xs ++ ys) = Item.blocks xs + Item.blocks ys := by
  induction xs with
  | nil => simp [Item.blocks]
  | cons x xs ih => simp only [List.cons_append, Item.blocks, ih]; omega

theorem Item.owned_nested (type : JsonType) (cs : List Item) :
    (Item.nested type cs).owned = Item.blocks cs := by
  simp [Item.nested, Item.owned, stringBlocks]

/-! ## Numbers -/

theorem length_takeWhile_le (p : UInt8 → Bool) (l : List UInt8) :
    (l.takeWhile p).length ≤ l.length :=
  (List.takeWhile_sublist p).length_le

theorem getElem?_takeWhile {p : UInt8 → Bool} {l : List UInt8} {i : Nat}
    (h : i < (l.takeWhile p).length) : ∃ b, l[i]? = some b ∧ p b = true := by
  refine ⟨(l.takeWhile p).get ⟨i, h⟩, ?_, List.mem_takeWhile_imp (List.get_mem _ _)⟩
  have happ := congrArg (·[i]?) (List.takeWhile_append_dropWhile (p := p) (l := l))
  rw [List.getElem?_append_left h] at happ
  rw [← happ, List.getElem?_eq_getElem h, List.get_eq_getElem]

theorem hasSign_le (s : List UInt8) : hasSign s ≤ s.length := by
  cases s <;> simp [hasSign]
  split <;> omega

theorem exponentPart_le (s : List UInt8) : (exponentPart s).2 ≤ s.length := by
  unfold exponentPart
  split
  · next h =>
      have hlen : 0 < s.length := by
        rcases s with - | ⟨b, s⟩
        · simp at h
        · simp
      simp only
      split
      · simp
      · have hds := length_takeWhile_le isDigit ((s.drop 1).drop (hasSign (s.drop 1)))
        have hsign := hasSign_le (s.drop 1)
        simp only [List.length_drop] at hds hsign
        simp only
        omega
  · simp

theorem strtod_length {s : List UInt8} {d : Double} {n : Nat} (h : strtod s = some (d, n)) :
    0 < n ∧ n ≤ s.length := by
  unfold strtod at h
  simp only at h
  have hsign := hasSign_le s
  have hwhole := length_takeWhile_le isDigit (s.drop (hasSign s))
  rw [List.length_drop] at hwhole
  generalize (s.drop (hasSign s)).takeWhile isDigit = whole at h hwhole
  generalize hrest : s.drop (hasSign s + whole.length) = rest at h
  have hlen := congrArg List.length hrest
  rw [List.length_drop] at hlen
  -- with the point and without
  by_cases hdot : rest.head? = some 46
  · simp only [hdot, ↓reduceIte] at h
    have hpos : 0 < rest.length := by
      rcases rest with - | ⟨b, rest⟩
      · simp at hdot
      · simp
    have hfrac := length_takeWhile_le isDigit (rest.drop 1)
    rw [List.length_drop] at hfrac
    generalize (rest.drop 1).takeWhile isDigit = frac at h hfrac
    split at h
    · cases h
    · simp only [Option.some.injEq, Prod.mk.injEq] at h
      have := exponentPart_le (rest.drop (1 + frac.length))
      rw [List.length_drop] at this
      omega
  · simp only [hdot, ↓reduceIte, List.length_nil, and_true] at h
    split at h
    · cases h
    · next hne =>
        simp only [Option.some.injEq, Prod.mk.injEq] at h
        have := exponentPart_le (rest.drop (0 + 0))
        rw [List.length_drop] at this
        have := List.length_pos_iff.mpr hne
        omega

section

variable {alloc : Nat → Bool} {content : List UInt8} {s : State}

/-! ## White space -/

def skipTo (content : List UInt8) (offset : Nat) : Nat :=
  if offset < content.length then
    let stop := offset + ((content.drop offset).takeWhile (· ≤ 32)).length
    if stop = content.length then stop - 1 else stop
  else offset

theorem bufferSkipWhitespace_apply :
    bufferSkipWhitespace content s = .ok () { s with offset := skipTo content s.offset } := by
  unfold bufferSkipWhitespace skipTo
  rw [modify_apply]
  split
  · rfl
  · rfl

theorem le_skipTo (content : List UInt8) (offset : Nat) : offset ≤ skipTo content offset := by
  unfold skipTo
  split
  · simp only
    split <;> omega
  · exact le_rfl

theorem skipTo_lt {offset : Nat} (h : offset < content.length) :
    skipTo content offset < content.length := by
  have := length_takeWhile_le (· ≤ 32) (content.drop offset)
  rw [List.length_drop] at this
  simp only [skipTo, h, ↓reduceIte]
  split <;> omega

theorem skipTo_le {offset : Nat} (h : offset ≤ content.length) :
    skipTo content offset ≤ content.length := by
  rcases Nat.lt_or_ge offset content.length with hlt | hge
  · exact (skipTo_lt hlt).le
  · unfold skipTo
    split <;> omega

theorem bufferSkipWhitespace_bind {β : Type} (f : Unit → Parser β) :
    (bufferSkipWhitespace content >>= f) s = f () { s with offset := skipTo content s.offset } :=
  bind_ok bufferSkipWhitespace_apply

theorem lt_of_looksAt {b : UInt8} (h : looksAt content b s = true) :
    s.offset < content.length :=
  (List.getElem?_eq_some_iff.mp (beq_iff_eq.mp h)).1

/-! ## Values -/

/-- A function went forward inside the text, over a byte that is no 0, and left `n` more blocks. -/
structure Took (content : List UInt8) (s : State) (n : Nat) (s' : State) : Prop where
  lt : s.offset < s'.offset
  last : ∃ b, content[s'.offset - 1]? = some b ∧ b ≠ 0
  live : s'.live = s.live + n

theorem Took.le {n : Nat} {s' : State} (h : Took content s n s') : s'.offset ≤ content.length := by
  obtain ⟨b, hb, -⟩ := h.last
  have := (List.getElem?_eq_some_iff.mp hb).1
  omega

/-- A function that reads a value: the item is there already. -/
def ReadsValue (content : List UInt8) (P : Item → Prop) (value : Parser Item) : Prop :=
  ∀ s, (value s).Ends (fun item s' => Took content s item.owned s' ∧ P item)
    (fun s' => s'.live = s.live)

/-- A round of a loop: it makes the item, and may look at the byte behind the offset. -/
def ReadsItem (content : List UInt8) (P : Item → Prop) (round : Parser Item) : Prop :=
  ∀ s, s.offset + 1 < content.length →
    (round s).Ends (fun item s' => Took content s (1 + item.owned) s' ∧ P item)
      (fun s' => s'.live = s.live)

theorem parseNumber_ends {room : Nat} :
    ReadsValue content (fun item => Formed room item ∧ item.string = none)
      (parseNumber content) := by
  intro s
  unfold parseNumber
  cases h : strtod (((content.drop s.offset).take 63).takeWhile isNumberByte) with
  | none => rfl
  | some r =>
      obtain ⟨d, n⟩ := r
      obtain ⟨hpos, hle⟩ := strtod_length h
      refine ⟨⟨?_, ?_, ?_⟩, .number, rfl⟩
      · simp only; omega
      · -- the last byte of the number was copied
        obtain ⟨b, hb, hnum⟩ := getElem?_takeWhile (p := isNumberByte)
          (l := (content.drop s.offset).take 63) (i := n - 1) (by omega)
        rw [List.getElem?_take, List.getElem?_drop] at hb
        split at hb
        · refine ⟨b, by rw [← hb]; congr 1; simp only; omega, ?_⟩
          rintro rfl
          exact absurd hnum (by decide)
        · cases hb
      · simp [Item.number, Item.owned, stringBlocks, Item.blocks]

theorem parseElement_ends {P : Item → Prop} {value : Parser Item}
    (h : ReadsValue content P value) : ReadsItem content P (parseElement alloc content value) := by
  intro s hs
  unfold parseElement
  apply allocate_ends.bind
  rintro - s₁ ⟨hoff, hlive⟩
  apply Ends.onFail (F := fun s' => s'.live = s₁.live)
  · simp only [advance, modify_bind, bufferSkipWhitespace_bind]
    apply (h _).mono
    · rintro item s' ⟨htook, hP⟩
      have := le_skipTo content (s₁.offset + 1)
      refine ⟨⟨?_, htook.last, ?_⟩, hP⟩
      · have := htook.lt
        simp only at this
        omega
      · rw [htook.live]
        simp only
        omega
    · exact fun _ h => h
  · intro s' hs'
    simp only [free]
    omega

theorem parseMember_ends {room : Nat} {value : Parser Item}
    (h : ReadsValue content (fun item => Formed room item ∧ item.string = none) value) :
    ReadsItem content
      (fun item => Formed room item ∧ ∃ name, item.string = some name ∧ 0 ∉ name)
      (parseMember alloc content value) := by
  intro s hs
  unfold parseMember
  apply allocate_ends.bind
  rintro - s₁ ⟨hoff, hlive⟩
  apply Ends.bind (Q := fun name s' => Took content s 2 s' ∧ 0 ∉ name)
  · apply Ends.onFail (F := fun s' => s'.live = s₁.live)
    · simp only [advance, modify_bind, bufferSkipWhitespace_bind]
      apply (parseString_ends _).mono
      · rintro name s' ⟨hlt, hquote, hlive', hname⟩
        have := le_skipTo content (s₁.offset + 1)
        simp only at hlt hlive'
        exact ⟨⟨by omega, ⟨34, hquote, by decide⟩, by omega⟩, hname⟩
      · exact fun _ h => h
      · exact skipTo_lt (by omega)
    · intro s' hs'
      simp only [free]
      omega
  · rintro name s₂ ⟨htook₂, hname⟩
    apply Ends.onFail (F := fun s' => s'.live = s₂.live)
    · simp only [bufferSkipWhitespace_bind, get_bind]
      split
      · simp only [advance, modify_bind, bufferSkipWhitespace_bind]
        apply (h _).bind
        rintro item s' ⟨htook, hformed, hkey⟩
        refine ⟨⟨?_, htook.last, ?_⟩, hformed.named name, name, Item.string_named name item, hname⟩
        · have h₁ := htook₂.lt
          have h₂ := htook.lt
          have h₃ := le_skipTo content s₂.offset
          have h₄ := le_skipTo content (skipTo content s₂.offset + 1)
          simp only at h₂
          omega
        · have h₁ := htook₂.live
          have h₂ := htook.live
          rw [Item.owned_named hkey]
          simp only at h₂
          omega
      · rfl
    · intro s' hs'
      have := htook₂.live
      simp only [free]
      omega

theorem parseItems_ends {P : Item → Prop} {round : Parser Item} (fuel : Nat) (items : List Item)
    (hround : ReadsItem content P round) (hlast : content.getLast? ≠ some 44)
    (hoff : s.offset + 1 < content.length) (hfuel : content.length < fuel + s.offset)
    (hlive : Item.blocks items ≤ s.live) (hitems : ∀ c ∈ items, P c) :
    (parseItems content round fuel items s).Ends
      (fun items' s' => s.offset < s'.offset ∧ s'.offset ≤ content.length ∧
        s'.live + Item.blocks items = s.live + Item.blocks items' ∧
        (∀ c ∈ items', P c))
      (fun s' => s'.live + Item.blocks items = s.live) := by
  induction fuel generalizing s items with
  | zero => omega
  | succ fuel ih =>
      rw [parseItems]
      apply ((hround s hoff).onFail _).bind
      · rintro item s₁ ⟨htook, hP⟩
        have hlt := htook.lt
        have hle := le_skipTo content s₁.offset
        have hlive₁ := htook.live
        have hblocks : Item.blocks (items ++ [item]) = Item.blocks items + (1 + item.owned) := by
          rw [Item.blocks_append]
          rfl
        have hitems' : ∀ c ∈ items ++ [item], P c := by
          intro c hc
          rcases List.mem_append.mp hc with hc | hc
          · exact hitems c hc
          · rw [List.mem_singleton.mp hc]
            exact hP
        simp only [bufferSkipWhitespace_bind, get_bind]
        split
        · next hcomma =>
            have hin := lt_of_looksAt hcomma
            -- the comma is not the last byte
            have hnext : skipTo content s₁.offset + 1 < content.length := by
              rcases Nat.lt_or_ge (skipTo content s₁.offset + 1) content.length with h | h
              · exact h
              · have heq : skipTo content s₁.offset = content.length - 1 := by
                  simp only at hin
                  omega
                have hbyte := beq_iff_eq.mp hcomma
                simp only [heq] at hbyte
                rw [← List.getLast?_eq_getElem?] at hbyte
                exact absurd hbyte hlast
            apply (ih (items ++ [item]) hnext (by simp only; omega) (by simp only; omega)
              hitems').mono
            · rintro items' s' ⟨hlt', hle', hlive', hP'⟩
              simp only at hlt' hlive'
              exact ⟨by omega, hle', by omega, hP'⟩
            · intro s' hs'
              simp only at hs'
              omega
        · exact ⟨by simp only; omega, skipTo_le htook.le, by simp only; omega, hitems'⟩
      · intro s' hs'
        simp only [free]
        omega

theorem parseNested_ends {type : JsonType} {closing : UInt8} {P : Item → Prop}
    {round : Parser Item} (hround : ReadsItem content P round)
    (hlast : content.getLast? ≠ some 44) (hclosing : closing ≠ 0) :
    ReadsValue content (fun item => ∃ cs, item = .nested type cs ∧ ∀ c ∈ cs, P c)
      (parseNested content type closing round) := by
  intro s
  unfold parseNested
  simp only [advance, modify_bind, bufferSkipWhitespace_bind, get_bind]
  have hle := le_skipTo content (s.offset + 1)
  split
  · next hclose =>
      refine ⟨⟨?_, ?_, ?_⟩, [], rfl, by simp⟩
      · simp only; omega
      · exact ⟨closing, beq_iff_eq.mp hclose, hclosing⟩
      · simp [Item.owned_nested, Item.blocks]
  rw [get_bind]
  split
  · rfl
  · next hin =>
      simp only at hin
      simp only [stepBack, modify_bind]
      apply ((parseItems_ends (P := P) _ _ hround hlast (by simp only; omega) (by simp only; omega)
        (by simp [Item.blocks]) (by simp)).mono (fun _ _ h => h) _).bind
      · rintro items s' ⟨hlt, hle', hlive, hP⟩
        simp only [Item.blocks, Nat.add_zero] at hlt hlive
        rw [get_bind]
        split
        · next hclose =>
            refine ⟨⟨?_, ?_, ?_⟩, items, rfl, hP⟩
            · simp only; omega
            · exact ⟨closing, beq_iff_eq.mp hclose, hclosing⟩
            · rw [Item.owned_nested]
              exact hlive
        · change (free (Item.blocks items) s').live = s.live
          simp only [free]
          omega
      · intro s' hs'
        simpa [Item.blocks] using hs'

theorem parseArray_ends {room : Nat} {value : Parser Item}
    (h : ReadsValue content (fun item => Formed room item ∧ item.string = none) value)
    (hlast : content.getLast? ≠ some 44) (hs : s.offset < content.length) :
    (parseArray alloc content value s).Ends
      (fun item s' => Took content s item.owned s' ∧
        Formed (room + 1) item ∧ item.string = none)
      (fun s' => s'.live = s.live) := by
  unfold parseArray
  apply (readAt_ends (by omega)).bind
  rintro b s ⟨rfl, -⟩
  split
  · rfl
  · apply (parseNested_ends (parseElement_ends h) hlast (by decide) s).mono
    · rintro item s' ⟨htook, cs, rfl, hcs⟩
      exact ⟨htook, .array (fun c hc => (hcs c hc).1) (fun c hc => (hcs c hc).2), rfl⟩
    · exact fun _ h => h

theorem parseObject_ends {room : Nat} {value : Parser Item}
    (h : ReadsValue content (fun item => Formed room item ∧ item.string = none) value)
    (hlast : content.getLast? ≠ some 44) :
    ReadsValue content (fun item => Formed (room + 1) item ∧ item.string = none)
      (parseObject alloc content value) := by
  intro s
  unfold parseObject
  rw [get_bind]
  split
  · apply (parseNested_ends (parseMember_ends h) hlast (by decide) s).mono
    · rintro item s' ⟨htook, cs, rfl, hcs⟩
      exact ⟨htook, .object (fun c hc => (hcs c hc).1) (fun c hc => (hcs c hc).2), rfl⟩
    · exact fun _ h => h
  · rfl

theorem getElem?_of_startsWith {literal : List UInt8} {i : Nat}
    (h : startsWith content literal s = true) (hi : i < literal.length) :
    content[s.offset + i]? = literal[i]? := by
  obtain ⟨rest, hrest⟩ := ( List.isPrefixOf_iff_prefix).mp h
  rw [← List.getElem?_drop, ← hrest, List.getElem?_append_left hi]

theorem dispatch_ends {room : Nat} {array object : Parser Item}
    (harray : ∀ s : State, s.offset < content.length → (array s).Ends
      (fun item s' => Took content s item.owned s' ∧ Formed room item ∧ item.string = none)
      (fun s' => s'.live = s.live))
    (hobject : ReadsValue content (fun item => Formed room item ∧ item.string = none) object) :
    ReadsValue content (fun item => Formed room item ∧ item.string = none)
      (dispatch alloc content array object) := by
  intro s
  -- the three literals
  have plain : ∀ (literal : String) (n : Nat) (b : UInt8) (item : Item),
      (ascii literal).length = n + 1 → (ascii literal)[n]? = some b → b ≠ 0 → item.owned = 0 →
      Formed room item → item.string = none →
      startsWith content (ascii literal) s = true →
      ((do advance (n + 1); pure item : Parser Item) s).Ends
        (fun item s' => Took content s item.owned s' ∧ Formed room item ∧ item.string = none)
        (fun s' => s'.live = s.live) := by
    intro literal n b item hn hget hb howned hformed hkey hstarts
    have hlast := getElem?_of_startsWith (i := n) hstarts (by omega)
    refine ⟨⟨?_, ⟨b, ?_, hb⟩, ?_⟩, hformed, hkey⟩
    · simp only; omega
    · rw [← hget, ← hlast]
      rfl
    · simp only [howned]; omega
  unfold dispatch
  rw [get_bind]
  split
  · next h => exact plain "null" 3 108 _ rfl rfl (by decide) rfl .null rfl h
  split
  · next h => exact plain "false" 4 101 _ rfl rfl (by decide) rfl .false rfl h
  split
  · next h => exact plain "true" 3 101 _ rfl rfl (by decide) rfl .true rfl h
  split
  · next h =>
      apply (parseString_ends (lt_of_looksAt h)).bind
      rintro text s' ⟨hlt, hquote, hlive, htext⟩
      exact ⟨⟨hlt, ⟨34, hquote, by decide⟩, hlive⟩, .string htext, rfl⟩
  split
  · exact parseNumber_ends s
  split
  · next h => exact harray s (lt_of_looksAt h)
  split
  · exact hobject s
  · rfl

theorem parseValue_ends (hlast : content.getLast? ≠ some 44) (room : Nat) :
    ReadsValue content (fun item => Formed room item ∧ item.string = none)
      (parseValue alloc content room) := by
  induction room with
  | zero => exact dispatch_ends (fun s _ => rfl) (fun s => rfl)
  | succ room ih =>
      exact dispatch_ends (fun s hs => parseArray_ends ih hlast hs) (parseObject_ends ih hlast)

end

end Umicat.Json
