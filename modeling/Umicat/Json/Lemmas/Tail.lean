import Umicat.Json.Lemmas.RoundTrip

/-!
# What stands behind a text

Two texts that begin with the same bytes `f`. What the parser reads out of `f` in front of one tail
it reads in front of the other. A number must be followed by a byte of `f`: it would go on in a tail
that begins with a digit.
-/

namespace Umicat.Json

open Umicat.Base
open Umicat.Base.Program
open Umicat.Config (JsonType)

variable {alloc : Nat → Bool} {f t u : List UInt8} {s : State}

/-! ## The common part -/

theorem drop_transfer {o : Nat} {p rest : List UInt8} (h : (f ++ t).drop o = p ++ rest)
    (hle : o + p.length ≤ f.length) : ∃ rest', (f ++ u).drop o = p ++ rest' := by
  rw [List.drop_append_of_le_length (by omega)] at h ⊢
  have hlen : p.length ≤ (f.drop o).length := by rw [List.length_drop]; omega
  have hp : p = (f.drop o).take p.length := by
    have := congrArg (List.take p.length) h
    rwa [List.take_append_of_le_length hlen, List.take_left, eq_comm] at this
  refine ⟨(f.drop o).drop p.length ++ u, ?_⟩
  nth_rewrite 1 [hp]
  rw [← List.append_assoc, List.take_append_drop]

theorem readAt_transfer {i : Nat} (h : s.offset + i < f.length) :
    readAt (f ++ t) i s = readAt (f ++ u) i s := by
  simp only [readAt, List.getElem?_append_left h]

/-- A read leaves the state as it is. -/
theorem state_of_readAt {content : List UInt8} {i : Nat} {b : UInt8} {s' : State}
    (h : readAt content i s = .ok b s') : s' = s := by
  unfold readAt at h
  split at h
  · cases h; rfl
  · cases h

theorem parseHex4Loop_transfer (n i h : Nat) (hi : s.offset + i + n ≤ f.length) :
    parseHex4Loop (f ++ t) n i h s = parseHex4Loop (f ++ u) n i h s := by
  induction n generalizing i h with
  | zero => rfl
  | succ n ih =>
      apply bind_eq_bind (readAt_transfer (by omega))
      intro b s' hb
      obtain rfl := state_of_readAt hb
      cases hexValue b with
      | none => rfl
      | some d => exact ih (i + 1) _ (by omega)

theorem parseHex4_transfer {i : Nat} (hi : s.offset + i + 4 ≤ f.length) :
    parseHex4 (f ++ t) i s = parseHex4 (f ++ u) i s :=
  parseHex4Loop_transfer 4 i 0 hi

theorem state_of_parseHex4 {i v : Nat} {s' : State} (hi : s.offset + i + 4 ≤ f.length)
    (h : parseHex4 (f ++ t) i s = .ok v s') : s' = s := by
  have hends := parseHex4_ends (s := s) (i := i) (E := fun _ => True)
    (show s.offset + i + 4 ≤ (f ++ t).length by rw [List.length_append]; omega)
  exact (hends.of_ok h).1

theorem utf16LiteralToUtf8_transfer {stop : Nat} (hstop : stop ≤ f.length) :
    utf16LiteralToUtf8 (f ++ t) stop s = utf16LiteralToUtf8 (f ++ u) stop s := by
  unfold utf16LiteralToUtf8
  rw [get_bind, get_bind]
  split
  · rfl
  · apply bind_eq_bind (parseHex4_transfer (by omega))
    intro v s₁ h₁
    obtain rfl := state_of_parseHex4 (by omega) h₁
    split
    · rfl
    split
    · split
      · rfl
      · apply bind_eq_bind (readAt_transfer (by omega))
        intro b₀ s₂ h₂
        obtain rfl := state_of_readAt h₂
        split
        · rfl
        · apply bind_eq_bind (readAt_transfer (by omega))
          intro b₁ s₃ h₃
          obtain rfl := state_of_readAt h₃
          split
          · rfl
          · apply bind_eq_bind (parseHex4_transfer (by omega))
            exact fun _ _ _ => rfl
    · rfl

/-- The second pass reads nothing behind the closing quote. -/
theorem copyString_transfer {stop size : Nat} (hstop : stop < f.length) (fuel : Nat)
    (output : List UInt8) (s : State) :
    copyString (f ++ t) stop size fuel output s = copyString (f ++ u) stop size fuel output s := by
  induction fuel generalizing output s with
  | zero => rfl
  | succ fuel ih =>
      have hrest : ∀ (bs : List UInt8) (n : Nat) (s : State),
          (do
            let output ← emit size output bs
            advance n
            copyString (f ++ t) stop size fuel output : Parser (List UInt8)) s =
          (do
            let output ← emit size output bs
            advance n
            copyString (f ++ u) stop size fuel output : Parser (List UInt8)) s := by
        intro bs n s
        apply bind_eq_bind rfl
        intro out s₁ _
        exact bind_eq_bind rfl fun _ s₂ _ => ih out s₂
      rw [copyString, copyString, get_bind, get_bind]
      split
      · apply bind_eq_bind (readAt_transfer (by omega))
        intro b s₁ h₁
        obtain rfl := state_of_readAt h₁
        split
        · exact hrest [b] 1 s₁
        · apply bind_eq_bind (readAt_transfer (by omega))
          intro e s₂ h₂
          obtain rfl := state_of_readAt h₂
          cases unescape e with
          | some c => exact hrest [c] 2 s₂
          | none =>
              simp only
              split
              · apply bind_eq_bind (utf16LiteralToUtf8_transfer hstop.le)
                exact fun r s₃ _ => hrest r.2 r.1 s₃
              · rfl
      · rfl

/-- The first pass reads nothing behind the closing quote. -/
theorem scanString_transfer {l l' : List UInt8} {n k n' k' : Nat}
    (h : scanString l n k = some (n', k')) (hl : l'.take (n' - n + 1) = l.take (n' - n + 1)) :
    scanString l' n k = some (n', k') := by
  fun_induction scanString l n k generalizing l' with
  | case1 => cases h
  | case2 rest n k =>
      cases h
      rw [Nat.sub_self] at hl
      cases l' with
      | nil => simp at hl
      | cons b l' =>
          simp only [Nat.zero_add, List.take_succ_cons, List.take_zero, List.cons.injEq,
            and_true] at hl
          subst hl
          rfl
  | case3 => cases h
  | case4 b rest n k ih =>
      obtain ⟨m, hn, -⟩ := scanString_spec h
      rw [show n' - n + 1 = (n' - (n + 2) + 1) + 1 + 1 by omega] at hl
      rcases l' with - | ⟨b₀, - | ⟨b₁, l'⟩⟩
      · simp at hl
      · simp at hl
      · simp only [List.take_succ_cons, List.cons.injEq] at hl
        obtain ⟨rfl, rfl, htail⟩ := hl
        rw [scanString]
        exact ih h htail
  | case5 b rest n k hq hone htwo ih =>
      obtain ⟨m, hn, -⟩ := scanString_spec h
      have hb : b ≠ 92 := by
        rintro rfl
        cases rest with
        | nil => exact hone rfl rfl
        | cons c rest => exact htwo c rest rfl rfl
      rw [show n' - n + 1 = (n' - (n + 1) + 1) + 1 by omega] at hl
      rcases l' with - | ⟨b₀, l'⟩
      · simp at hl
      · simp only [List.take_succ_cons, List.cons.injEq] at hl
        obtain ⟨rfl, htail⟩ := hl
        rw [scanString_plain hq hb]
        exact ih h htail

theorem parseString_inv {content name : List UInt8} {s' : State}
    (h : parseString alloc content s = .ok name s') :
    ∃ n k, scanString (content.drop (s.offset + 1)) 0 0 = some (n, k) ∧
      s'.offset = s.offset + 1 + n + 1 := by
  unfold parseString at h
  rw [get_bind] at h
  obtain ⟨b, s₁, hb, h⟩ := of_bind_ok h
  obtain rfl := state_of_readAt hb
  simp only [advance, modify_bind] at h
  split at h
  · cases h
  · cases hscan : scanString (content.drop (s₁.offset + 1)) 0 0 with
    | none => rw [hscan] at h; cases h
    | some r =>
        obtain ⟨n, k⟩ := r
        rw [hscan] at h
        obtain ⟨-, s₂, -, h⟩ := of_bind_ok h
        obtain ⟨out, s₃, -, h⟩ := of_bind_ok h
        obtain ⟨out', s₄, -, h⟩ := of_bind_ok h
        rw [modify_bind] at h
        cases h
        exact ⟨n, k, rfl, rfl⟩

theorem parseString_transfer {name : List UInt8} {s' : State}
    (h : parseString alloc (f ++ t) s = .ok name s') (hle : s'.offset ≤ f.length) :
    parseString alloc (f ++ u) s = .ok name s' := by
  obtain ⟨n, k, hscan, hoff⟩ := parseString_inv h
  have hscan' : scanString ((f ++ u).drop (s.offset + 1)) 0 0 = some (n, k) := by
    apply scanString_transfer hscan
    have htake : ∀ t : List UInt8, ((f ++ t).drop (s.offset + 1)).take (n - 0 + 1) =
        (f.drop (s.offset + 1)).take (n + 1) := by
      intro t
      rw [List.drop_append_of_le_length (by omega),
        List.take_append_of_le_length (by rw [List.length_drop]; omega), Nat.sub_zero]
    rw [htake, htake]
  rw [← h]
  unfold parseString
  rw [get_bind, get_bind]
  apply bind_eq_bind (readAt_transfer (by omega)).symm
  intro b s₁ hb
  obtain rfl := state_of_readAt hb
  simp only [advance, modify_bind, hscan, hscan']
  split
  · rfl
  · apply bind_eq_bind rfl
    intro _ s₂ _
    apply bind_eq_bind
    · exact onFail_congr (copyString_transfer (by omega) _ _ _)
    · exact fun _ _ _ => rfl

/-! ## White space and numbers -/

/-- Where the white space ends in front of another byte. -/
theorem skipTo_inv {content : List UInt8} {o : Nat} (h : skipTo content o + 1 < content.length) :
    ∃ ws b rest, content.drop o = ws ++ b :: rest ∧ (∀ c ∈ ws, c ≤ 32) ∧ ¬b ≤ 32 ∧
      skipTo content o = o + ws.length := by
  have hle := le_skipTo content o
  have hlt : o < content.length := by omega
  have happ := List.takeWhile_append_dropWhile (p := fun b : UInt8 => b ≤ 32) (l := content.drop o)
  simp only [skipTo, hlt, ↓reduceIte] at h ⊢
  generalize hws : (content.drop o).takeWhile (fun b : UInt8 => decide (b ≤ 32)) = ws at *
  have hne : o + ws.length ≠ content.length := by
    intro heq
    rw [if_pos heq] at h
    omega
  have hlen := congrArg List.length happ
  rw [List.length_append, List.length_drop] at hlen
  rw [if_neg hne] at h ⊢
  have hdrop : (content.drop o).dropWhile (fun b : UInt8 => decide (b ≤ 32)) ≠ [] := by
    intro h0
    rw [h0, List.length_nil] at hlen
    omega
  have hhead := List.head_dropWhile_not (fun b : UInt8 => decide (b ≤ 32)) hdrop
  obtain ⟨b, rest, hrest⟩ := List.exists_cons_of_ne_nil hdrop
  simp only [hrest, List.head_cons, decide_eq_false_iff_not] at hhead
  refine ⟨ws, b, rest, by rw [← happ, hrest], ?_, hhead, rfl⟩
  intro c hc
  rw [← hws] at hc
  simpa using List.mem_takeWhile_imp hc

/-- The byte at the offset does not go on with a number. -/
def NonNumber (content : List UInt8) (o : Nat) : Prop :=
  ∃ b, content[o]? = some b ∧ isNumberByte b = false

theorem isNumberByte_of_le {b : UInt8} : b ≤ 32 → isNumberByte b = false :=
  forall_byte (P := fun b => b ≤ 32 → isNumberByte b = false) (by decide +kernel) b

theorem NonNumber.of_drop {content : List UInt8} {o : Nat} {b : UInt8} {l : List UInt8}
    (h : content.drop o = b :: l) (hb : isNumberByte b = false) : NonNumber content o := by
  refine ⟨b, ?_, hb⟩
  rw [← List.head?_drop, h]
  rfl

section

variable (ht : t ≠ [])

include ht

theorem skipTo_transfer {o : Nat} (h : skipTo (f ++ t) o < f.length) :
    skipTo (f ++ u) o = skipTo (f ++ t) o := by
  have hpos := List.length_pos_iff.mpr ht
  obtain ⟨ws, b, rest, hdrop, hws, hb, hskip⟩ := skipTo_inv (o := o)
    (show skipTo (f ++ t) o + 1 < (f ++ t).length by rw [List.length_append]; omega)
  have hsplit : (f ++ t).drop o = (ws ++ [b]) ++ rest := by
    rw [hdrop]
    simp
  obtain ⟨rest', hrest'⟩ := drop_transfer (u := u) hsplit
    (by rw [List.length_append, List.length_singleton]; omega)
  rw [hskip]
  refine skipTo_of_drop (b := b) (l := rest') ?_ hws hb
  rw [hrest']
  simp

/-- In front of white space and then no byte of a number, there is none either. -/
theorem NonNumber.of_skipTo {o : Nat} (h : skipTo (f ++ t) o < f.length)
    (hn : NonNumber (f ++ t) (skipTo (f ++ t) o)) : NonNumber (f ++ t) o := by
  have hpos := List.length_pos_iff.mpr ht
  obtain ⟨ws, b, rest, hdrop, hws, -, hskip⟩ := skipTo_inv (o := o)
    (show skipTo (f ++ t) o + 1 < (f ++ t).length by rw [List.length_append]; omega)
  cases ws with
  | nil =>
      rw [hskip] at hn
      exact hn
  | cons c ws => exact .of_drop hdrop (isNumberByte_of_le (hws c List.mem_cons_self))

end

theorem parseNumber_transfer {item : Item} {s' : State} (h : parseNumber (f ++ t) s = .ok item s')
    (hlt : s'.offset < f.length) (hn : NonNumber (f ++ t) s'.offset) :
    parseNumber (f ++ u) s = .ok item s' := by
  unfold parseNumber at h ⊢
  cases hstr : strtod ((((f ++ t).drop s.offset).take 63).takeWhile isNumberByte) with
  | none => rw [hstr] at h; cases h
  | some r =>
      obtain ⟨d, n⟩ := r
      rw [hstr] at h
      cases h
      simp only at hlt hn
      obtain ⟨b, hb, hnum⟩ := hn
      have hle := (strtod_length hstr).2
      have happ : (f ++ t).drop s.offset =
          (((f ++ t).drop s.offset).take 63).takeWhile isNumberByte ++
            ((((f ++ t).drop s.offset).take 63).dropWhile isNumberByte ++
              ((f ++ t).drop s.offset).drop 63) := by
        rw [← List.append_assoc, List.takeWhile_append_dropWhile, List.take_append_drop]
      have hbytes := fun c hc => List.mem_takeWhile_imp (p := isNumberByte)
        (l := ((f ++ t).drop s.offset).take 63) (x := c) hc
      have hmax := length_takeWhile_le isNumberByte (((f ++ t).drop s.offset).take 63)
      rw [List.length_take] at hmax
      rw [← List.getElem?_drop, happ] at hb
      generalize (((f ++ t).drop s.offset).take 63).takeWhile isNumberByte = copy at *
      generalize (((f ++ t).drop s.offset).take 63).dropWhile isNumberByte ++
        ((f ++ t).drop s.offset).drop 63 = rest at *
      -- the bytes that were copied end where the number ends
      have hn : n = copy.length := by
        rcases Nat.lt_or_eq_of_le hle with hlt' | heq
        · rw [List.getElem?_append_left hlt'] at hb
          have := hbytes b (List.mem_of_getElem? hb)
          rw [hnum] at this
          cases this
        · exact heq
      subst hn
      obtain ⟨rest, rfl⟩ : ∃ rest', rest = b :: rest' := by
        rw [List.getElem?_append_right le_rfl, Nat.sub_self] at hb
        exact List.head?_eq_some_iff.mp (by rw [List.head?_eq_getElem?]; exact hb)
      have hsplit : (f ++ t).drop s.offset = (copy ++ [b]) ++ rest := by
        rw [happ]
        simp
      obtain ⟨rest', hrest'⟩ := drop_transfer (u := u) hsplit
        (by rw [List.length_append, List.length_singleton]; omega)
      rw [List.append_assoc] at hrest'
      rw [hrest', List.singleton_append, takeWhile_isNumberByte hbytes (by omega) hnum, hstr]

/-! ## Values -/

/-- What the first parser reads out of `f` and ends in front of a byte of `f`, the second reads
too. -/
def Carries (f t : List UInt8) (m m' : Parser Item) : Prop :=
  ∀ s item s', m s = .ok item s' → s'.offset < f.length → NonNumber (f ++ t) s'.offset →
    m' s = .ok item s'

def Progress {α : Type} (m : Parser α) : Prop :=
  ∀ s a s', m s = .ok a s' → s.offset < s'.offset

theorem looksAt_transfer {b : UInt8} (h : s.offset < f.length) :
    looksAt (f ++ t) b s = looksAt (f ++ u) b s := by
  simp only [looksAt, List.getElem?_append_left h]

theorem offset_of_allocate {u : Unit} {s' : State} (h : allocate alloc s = .ok u s') :
    s'.offset = s.offset := by
  unfold allocate at h
  split at h
  · cases h; rfl
  · cases h

theorem parseElement_progress {content : List UInt8} {value : Parser Item}
    (hprogress : Progress value) : Progress (parseElement alloc content value) := by
  intro s item s' h
  obtain ⟨_, s₁, halloc, h⟩ := of_bind_ok h
  have hoff := offset_of_allocate halloc
  have hvalue := of_onFail_ok h
  simp only [advance, modify_bind, bufferSkipWhitespace_bind] at hvalue
  have hlt := hprogress _ _ _ hvalue
  have hle := le_skipTo content (s₁.offset + 1)
  simp only at hlt
  omega

theorem parseMember_progress {content : List UInt8} {value : Parser Item}
    (hprogress : Progress value) : Progress (parseMember alloc content value) := by
  intro s item s' h
  obtain ⟨_, s₁, halloc, h⟩ := of_bind_ok h
  obtain ⟨name, s₂, hname, h⟩ := of_bind_ok h
  have hoff := offset_of_allocate halloc
  have hname := of_onFail_ok hname
  have hmember := of_onFail_ok h
  simp only [advance, modify_bind, bufferSkipWhitespace_bind, get_bind] at hname hmember
  obtain ⟨n, k, -, hoff₂⟩ := parseString_inv hname
  split at hmember
  · simp only [modify_bind, bufferSkipWhitespace_bind] at hmember
    obtain ⟨item', s₃, hvalue, hitem⟩ := of_bind_ok hmember
    cases hitem
    have hlt := hprogress _ _ _ hvalue
    have h₁ := le_skipTo content (s₁.offset + 1)
    have h₂ := le_skipTo content s₂.offset
    have h₃ := le_skipTo content (skipTo content s₂.offset + 1)
    simp only at hlt hoff₂
    omega
  · cases hmember

theorem parseItems_inv {content : List UInt8} {round : Parser Item} {fuel : Nat}
    {items items' : List Item} {s' : State}
    (h : parseItems content round fuel items s = .ok items' s') :
    ∃ k item s₁, fuel = k + 1 ∧ round s = .ok item s₁ ∧
      ((looksAt content 44 { s₁ with offset := skipTo content s₁.offset } = true ∧
        parseItems content round k (items ++ [item])
          { s₁ with offset := skipTo content s₁.offset } = .ok items' s') ∨
      (looksAt content 44 { s₁ with offset := skipTo content s₁.offset } = false ∧
        items' = items ++ [item] ∧ s' = { s₁ with offset := skipTo content s₁.offset })) := by
  cases fuel with
  | zero => cases h
  | succ k =>
      rw [parseItems] at h
      obtain ⟨item, s₁, hround, h⟩ := of_bind_ok h
      simp only [bufferSkipWhitespace_bind, get_bind] at h
      refine ⟨k, item, s₁, rfl, of_onFail_ok hround, ?_⟩
      split at h
      · next hcomma => exact .inl ⟨hcomma, h⟩
      · next hcomma =>
          cases h
          exact .inr ⟨by simpa using hcomma, rfl, rfl⟩

theorem parseItems_progress {content : List UInt8} {round : Parser Item} (hround : Progress round)
    (fuel : Nat) (items : List Item) : Progress (parseItems content round fuel items) := by
  induction fuel generalizing items with
  | zero => intro s items' s' h; cases h
  | succ fuel ih =>
      intro s items' s' h
      obtain ⟨k, item, s₁, hk, hr, h⟩ := parseItems_inv h
      obtain rfl : fuel = k := by omega
      have hlt := hround _ _ _ hr
      have hle := le_skipTo content s₁.offset
      rcases h with ⟨-, h⟩ | ⟨-, -, rfl⟩
      · have := ih _ _ _ _ h
        simp only at this
        omega
      · simp only
        omega

theorem parseNested_progress {content : List UInt8} {type : JsonType} {closing : UInt8}
    {round : Parser Item} (hround : Progress round) :
    Progress (parseNested content type closing round) := by
  intro s item s' h
  unfold parseNested at h
  simp only [advance, modify_bind, bufferSkipWhitespace_bind, get_bind] at h
  have hskip := le_skipTo content (s.offset + 1)
  split at h
  · cases h
    simp only
    omega
  · rw [get_bind] at h
    split at h
    · cases h
    · simp only [stepBack, modify_bind] at h
      obtain ⟨items, s₁, hitems, h⟩ := of_bind_ok h
      have hlt := parseItems_progress hround _ _ _ _ _ hitems
      simp only at hlt
      rw [get_bind] at h
      split at h
      · cases h
        simp only
        omega
      · cases h

/-- A literal, or the failure of all tests. -/
theorem dispatch_of_literal_head {content l : List UInt8} {array object : Parser Item} {b : UInt8}
    (h : content.drop s.offset = b :: l) (hb : b = 110 ∨ b = 102 ∨ b = 116) {item : Item}
    {s' : State} (hok : dispatch alloc content array object s = .ok item s') :
    ∃ literal n rest, content.drop s.offset = literal ++ rest ∧
      (literal, n, item) ∈
        [(ascii "null", 4, Item.plain .null 0), (ascii "false", 5, Item.plain .false 0),
          (ascii "true", 4, Item.plain .true 1)] ∧
      s' = { s with offset := s.offset + n } := by
  have hget : content[s.offset]? = some b := by
    rw [← List.head?_drop, h]
    rfl
  have hlook : ∀ c, looksAt content c s = (b == c) := fun c => looksAt_of_drop h
  have hrest : ∀ {literal : List UInt8}, startsWith content literal s = true →
      ∃ rest, content.drop s.offset = literal ++ rest := by
    intro literal hstarts
    obtain ⟨rest, hrest⟩ := ( List.isPrefixOf_iff_prefix).mp hstarts
    exact ⟨rest, hrest.symm⟩
  rw [dispatch, get_bind] at hok
  split at hok
  · next hstarts =>
      obtain ⟨rest, hrest⟩ := hrest hstarts
      cases hok
      exact ⟨_, 4, rest, hrest, by simp, rfl⟩
  split at hok
  · next hstarts =>
      obtain ⟨rest, hrest⟩ := hrest hstarts
      cases hok
      exact ⟨_, 5, rest, hrest, by simp, rfl⟩
  split at hok
  · next hstarts =>
      obtain ⟨rest, hrest⟩ := hrest hstarts
      cases hok
      exact ⟨_, 4, rest, hrest, by simp, rfl⟩
  · simp only [hlook, hget, Option.any_some] at hok
    rcases hb with rfl | rfl | rfl <;> cases hok

/-- A value that ends in `f`; only a number needs another byte of `f` behind it. -/
theorem dispatch_transfer {array array' object object' : Parser Item} {item : Item} {s' : State}
    (harray : ∀ item s', array s = .ok item s' → s'.offset ≤ f.length → array' s = .ok item s')
    (hobject : ∀ item s', object s = .ok item s' → s'.offset ≤ f.length →
      object' s = .ok item s')
    (h : dispatch alloc (f ++ t) array object s = .ok item s') (hlt : s.offset < s'.offset)
    (hle : s'.offset ≤ f.length)
    (hnumber : item.type = .number → s'.offset < f.length ∧ NonNumber (f ++ t) s'.offset) :
    dispatch alloc (f ++ u) array' object' s = .ok item s' := by
  obtain ⟨b, rest, hb⟩ : ∃ b rest, (f ++ t).drop s.offset = b :: rest := by
    refine List.exists_cons_of_ne_nil ?_
    simp only [ne_eq, List.drop_eq_nil_iff, List.length_append]
    omega
  obtain ⟨rest', hb'⟩ := drop_transfer (u := u) (p := [b]) hb (by simp; omega)
  rw [List.singleton_append] at hb'
  by_cases hlit : b = 110 ∨ b = 102 ∨ b = 116
  · obtain ⟨literal, n, r, hr, hmem, hs'⟩ := dispatch_of_literal_head hb hlit h
    have hn : n = literal.length := by
      simp only [List.mem_cons, Prod.mk.injEq, List.not_mem_nil, or_false] at hmem
      rcases hmem with ⟨rfl, rfl, -⟩ | ⟨rfl, rfl, -⟩ | ⟨rfl, rfl, -⟩ <;> rfl
    subst hs'
    obtain ⟨r', hr'⟩ := drop_transfer (u := u) hr (by rw [← hn]; exact hle)
    simp only [List.mem_cons, Prod.mk.injEq, List.not_mem_nil, or_false] at hmem
    rcases hmem with ⟨rfl, rfl, rfl⟩ | ⟨rfl, rfl, rfl⟩ | ⟨rfl, rfl, rfl⟩
    · exact dispatch_null hr'
    · exact dispatch_false hr'
    · exact dispatch_true hr'
  · push Not at hlit
    obtain ⟨h₁, h₂, h₃⟩ := hlit
    rw [dispatch_of_head hb h₁ h₂ h₃] at h
    rw [dispatch_of_head hb' h₁ h₂ h₃]
    split at h
    · next h34 =>
        obtain ⟨text, s₁, htext, hitem⟩ := of_bind_ok h
        cases hitem
        rw [if_pos h34, bind_ok (parseString_transfer htext hle)]
        rfl
    · next h34 =>
        rw [if_neg h34]
        split at h
        · next hnum =>
            rw [if_pos hnum]
            have htype : item.type = .number := by
              unfold parseNumber at h
              split at h
              · cases h
              · cases h; rfl
            obtain ⟨hlt', hn⟩ := hnumber htype
            exact parseNumber_transfer h hlt' hn
        · next hnum =>
            rw [if_neg hnum]
            split at h
            · next h91 => rw [if_pos h91]; exact harray _ _ h hle
            · next h91 =>
                rw [if_neg h91]
                split at h
                · next h123 => rw [if_pos h123]; exact hobject _ _ h hle
                · cases h

section

variable (ht : t ≠ []) {value value' : Parser Item}

include ht

theorem parseElement_carries (hcarries : Carries f t value value') (hprogress : Progress value) :
    Carries f t (parseElement alloc (f ++ t) value) (parseElement alloc (f ++ u) value') := by
  intro s item s' h hlt hn
  unfold parseElement at h ⊢
  obtain ⟨_, s₁, halloc, h⟩ := of_bind_ok h
  have hvalue := of_onFail_ok h
  simp only [advance, modify_bind, bufferSkipWhitespace_bind] at hvalue
  have hoff := hprogress _ _ _ hvalue
  simp only at hoff
  rw [bind_ok halloc]
  apply onFail_ok
  simp only [advance, modify_bind, bufferSkipWhitespace_bind]
  rw [skipTo_transfer ht (by omega)]
  exact hcarries _ _ _ hvalue hlt hn

theorem parseMember_carries (hcarries : Carries f t value value') (hprogress : Progress value) :
    Carries f t (parseMember alloc (f ++ t) value) (parseMember alloc (f ++ u) value') := by
  intro s item s' h hlt hn
  unfold parseMember at h ⊢
  obtain ⟨_, s₁, halloc, h⟩ := of_bind_ok h
  obtain ⟨name, s₂, hname, h⟩ := of_bind_ok h
  have hname := of_onFail_ok hname
  have hmember := of_onFail_ok h
  simp only [advance, modify_bind, bufferSkipWhitespace_bind, get_bind] at hname hmember
  split at hmember
  · next hcolon =>
      simp only [modify_bind, bufferSkipWhitespace_bind] at hmember
      obtain ⟨item', s₃, hvalue, hitem⟩ := of_bind_ok hmember
      cases hitem
      have hoff := hprogress _ _ _ hvalue
      have h₁ := le_skipTo (f ++ t) s₂.offset
      have h₂ := le_skipTo (f ++ t) (skipTo (f ++ t) s₂.offset + 1)
      obtain ⟨n, k, -, hoff₂⟩ := parseString_inv hname
      simp only at hoff hoff₂
      rw [bind_ok halloc]
      have hname' : onFail (do
          advance 1
          bufferSkipWhitespace (f ++ u)
          parseString alloc (f ++ u)) (free 1) s₁ = .ok name s₂ := by
        apply onFail_ok
        simp only [advance, modify_bind, bufferSkipWhitespace_bind]
        rw [skipTo_transfer ht (by omega)]
        exact parseString_transfer hname (by omega)
      rw [bind_ok hname']
      apply onFail_ok
      have hlook : looksAt (f ++ u) 58 { s₂ with offset := skipTo (f ++ t) s₂.offset } = true := by
        unfold looksAt at hcolon ⊢
        simp only at hcolon ⊢
        rwa [List.getElem?_append_left (by omega)] at hcolon ⊢
      simp only [bufferSkipWhitespace_bind, get_bind]
      rw [skipTo_transfer ht (by omega), hlook, if_pos rfl]
      simp only [advance, modify_bind, bufferSkipWhitespace_bind]
      rw [skipTo_transfer ht (by omega), bind_ok (hcarries _ _ _ hvalue hlt hn)]
      rfl
  · cases hmember

/-- A loop that ends in front of a byte of `f`. -/
theorem parseItems_transfer {round round' : Parser Item} {fuel fuel' : Nat}
    {items items' : List Item} {s' : State} (hround : Carries f t round round')
    (hprogress : Progress round) (hfuel : fuel ≤ fuel')
    (h : parseItems (f ++ t) round fuel items s = .ok items' s') (hlt : s'.offset < f.length)
    (hn : NonNumber (f ++ t) s'.offset) :
    parseItems (f ++ u) round' fuel' items s = .ok items' s' := by
  induction fuel generalizing s items fuel' with
  | zero => cases h
  | succ fuel ih =>
      obtain ⟨k, item, s₁, hk, hr, h⟩ := parseItems_inv h
      obtain rfl : fuel = k := by omega
      obtain ⟨fuel', rfl⟩ := Nat.exists_eq_add_of_le' (Nat.zero_lt_of_lt hfuel)
      -- the byte behind the white space is a byte of `f` and none of a number
      have hstop : skipTo (f ++ t) s₁.offset < f.length ∧
          NonNumber (f ++ t) (skipTo (f ++ t) s₁.offset) := by
        rcases h with ⟨hcomma, h⟩ | ⟨-, -, rfl⟩
        · have := parseItems_progress hprogress _ _ _ _ _ h
          simp only at this
          exact ⟨by omega, 44, beq_iff_eq.mp hcomma, by decide⟩
        · exact ⟨hlt, hn⟩
      have hle := le_skipTo (f ++ t) s₁.offset
      have hround' := hround _ _ _ hr (by omega) (NonNumber.of_skipTo ht hstop.1 hstop.2)
      have hlook := looksAt_transfer (t := t) (u := u) (b := 44)
        (s := { s₁ with offset := skipTo (f ++ t) s₁.offset }) hstop.1
      rw [parseItems, bind_ok (onFail_ok hround')]
      simp only [bufferSkipWhitespace_bind, get_bind, skipTo_transfer (u := u) ht hstop.1]
      rcases h with ⟨hcomma, h⟩ | ⟨hcomma, rfl, rfl⟩
      · rw [← hlook, hcomma, if_pos rfl]
        exact ih (by omega) h
      · rw [← hlook, hcomma]
        rfl

theorem parseNested_transfer {type : JsonType} {closing : UInt8} {round round' : Parser Item}
    {item : Item} {s' : State} (hround : Carries f t round round') (hprogress : Progress round)
    (hclosing : isNumberByte closing = false) (hlen : t.length ≤ u.length)
    (h : parseNested (f ++ t) type closing round s = .ok item s') (hle : s'.offset ≤ f.length) :
    parseNested (f ++ u) type closing round' s = .ok item s' := by
  have hpos := List.length_pos_iff.mpr ht
  have hpos' : 0 < u.length := by omega
  unfold parseNested at h ⊢
  simp only [advance, modify_bind, bufferSkipWhitespace_bind, get_bind] at h ⊢
  have hskip := le_skipTo (f ++ t) (s.offset + 1)
  split at h
  · next hclose =>
      cases h
      simp only at hle
      rw [skipTo_transfer ht (by omega), ← looksAt_transfer (t := t) (by simp only; omega),
        if_pos hclose]
      rfl
  · next hopen =>
      rw [get_bind] at h
      split at h
      · cases h
      · simp only [stepBack, modify_bind] at h
        obtain ⟨items, s₁, hitems, h⟩ := of_bind_ok h
        have hlt := parseItems_progress hprogress _ _ _ _ _ hitems
        simp only at hlt
        rw [get_bind] at h
        split at h
        · next hclose =>
            cases h
            simp only at hle
            have hfuel : (f ++ t).length + 1 ≤ (f ++ u).length + 1 := by
              simp only [List.length_append]
              omega
            have hitems' : parseItems (f ++ u) round' ((f ++ u).length + 1) []
                { s with offset := skipTo (f ++ t) (s.offset + 1) - 1 } = .ok items s₁ :=
              parseItems_transfer ht hround hprogress hfuel hitems (by omega)
                ⟨closing, beq_iff_eq.mp hclose, hclosing⟩
            rw [skipTo_transfer ht (by omega), ← looksAt_transfer (t := t) (by simp only; omega),
              if_neg hopen, get_bind, if_neg (by simp only [List.length_append]; omega)]
            simp only [stepBack, modify_bind]
            rw [bind_ok hitems', get_bind, ← looksAt_transfer (t := t) (by omega), if_pos hclose]
            rfl
        · cases h

theorem parseArray_transfer {item : Item} {s' : State} (hcarries : Carries f t value value')
    (hprogress : Progress value) (hlen : t.length ≤ u.length)
    (h : parseArray alloc (f ++ t) value s = .ok item s') (hle : s'.offset ≤ f.length) :
    parseArray alloc (f ++ u) value' s = .ok item s' := by
  unfold parseArray at h ⊢
  obtain ⟨b, s₁, hb, hnested⟩ := of_bind_ok h
  obtain rfl := state_of_readAt hb
  split at hnested
  · cases hnested
  · next hopen =>
      have hlt := parseNested_progress (parseElement_progress hprogress) _ _ _ hnested
      rw [readAt_transfer (by omega)] at hb
      rw [bind_ok hb, if_neg hopen]
      exact parseNested_transfer ht (parseElement_carries ht hcarries hprogress)
        (parseElement_progress hprogress) (by decide) hlen hnested hle

theorem parseObject_transfer {item : Item} {s' : State} (hcarries : Carries f t value value')
    (hprogress : Progress value) (hlen : t.length ≤ u.length)
    (h : parseObject alloc (f ++ t) value s = .ok item s') (hle : s'.offset ≤ f.length) :
    parseObject alloc (f ++ u) value' s = .ok item s' := by
  unfold parseObject at h ⊢
  rw [get_bind] at h ⊢
  split at h
  · next hopen =>
      have hlt := parseNested_progress (parseMember_progress hprogress) _ _ _ h
      rw [looksAt_transfer (by omega)] at hopen
      rw [if_pos hopen]
      exact parseNested_transfer ht (parseMember_carries ht hcarries hprogress)
        (parseMember_progress hprogress) (by decide) hlen h hle
  · cases h

theorem parseValue_transfer (hlen : t.length ≤ u.length)
    (hlast : (f ++ t).getLast? ≠ some 44) (room : Nat) {item : Item} {s' : State}
    (h : parseValue alloc (f ++ t) room s = .ok item s') (hle : s'.offset ≤ f.length)
    (hnumber : item.type = .number → s'.offset < f.length ∧ NonNumber (f ++ t) s'.offset) :
    parseValue alloc (f ++ u) room s = .ok item s' := by
  have hprogress : ∀ room, Progress (parseValue alloc (f ++ t) room) := by
    intro room s item s' h
    exact ((parseValue_ends hlast room s).of_ok h).1.lt
  induction room generalizing s item s' with
  | zero =>
      exact dispatch_transfer (fun _ _ h _ => by cases h) (fun _ _ h _ => by cases h) h
        (hprogress _ _ _ _ h) hle hnumber
  | succ room ih =>
      have hcarries : Carries f t (parseValue alloc (f ++ t) room)
          (parseValue alloc (f ++ u) room) :=
        fun s item s' h hlt hn => ih h hlt.le fun _ => ⟨hlt, hn⟩
      refine dispatch_transfer ?_ ?_ h (hprogress _ _ _ _ h) hle hnumber
      · exact fun _ _ h hle => parseArray_transfer ht hcarries (hprogress room) hlen h hle
      · exact fun _ _ h hle => parseObject_transfer ht hcarries (hprogress room) hlen h hle

end

end Umicat.Json
