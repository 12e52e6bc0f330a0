import Mathlib.Data.Nat.Digits.Lemmas
import Umicat.Json.Lemmas.Values
import Umicat.Json.Render

/-!
# The print buffer

One lemma for each function of the printer: it writes in bounds, it leaves the text of its item, and
it fails only where the text and two more bytes have no room.
-/

namespace Umicat.Json

open Umicat.Base
open Umicat.Base.Program
open Umicat.Base.Outcome

variable {alloc : Nat → Bool} {noalloc format : Bool} {real : ℚ → List UInt8}

/-! ## Buffers -/

/-- `offset` is inside the buffer, and the buffer is no larger than an `int` tells. -/
structure PrintBuffer.Valid (p : PrintBuffer) : Prop where
  lt : p.length ≠ 0 → p.offset < p.length
  le : p.length ≤ maxSize

/-- The buffer has `n` bytes, or can be made to. -/
def Room (alloc : Nat → Bool) (noalloc : Bool) (p : PrintBuffer) (n : Nat) : Prop :=
  n ≤ p.length ∨ noalloc = false ∧ n ≤ maxSize ∧ ∀ k, alloc k = true

theorem Room.mono {p p' : PrintBuffer} {n n' : Nat} (h : Room alloc noalloc p n)
    (hp : p.length ≤ p'.length) (hn : n' ≤ n) : Room alloc noalloc p' n' := by
  rcases h with h | ⟨hna, hmax, halloc⟩
  · exact .inl (by omega)
  · exact .inr ⟨hna, by omega, halloc⟩

/-- The text `t` was written at the offset, and the offset is behind it. -/
structure Wrote (noalloc : Bool) (p : PrintBuffer) (t : List UInt8) (p' : PrintBuffer) : Prop where
  below : ∀ k < p.offset, p'.memory k = p.memory k
  text : load p'.memory p.offset t.length = t
  offset : p'.offset = p.offset + t.length
  depth : p'.depth = p.depth
  length : p.length ≤ p'.length
  fixed : noalloc = true → p'.length = p.length
  valid : p'.Valid

/-- The text `t` and a 0 were written at the offset, and the offset is somewhere in the text. -/
structure Printed (noalloc : Bool) (p : PrintBuffer) (t : List UInt8) (p' : PrintBuffer) :
    Prop where
  below : ∀ k < p.offset, p'.memory k = p.memory k
  text : load p'.memory p.offset t.length = t
  nul : p'.memory (p.offset + t.length) = 0
  le_offset : p.offset ≤ p'.offset
  offset_le : p'.offset ≤ p.offset + t.length
  fits : p.offset + t.length + 2 ≤ p'.length
  depth : p'.depth = p.depth
  length : p.length ≤ p'.length
  fixed : noalloc = true → p'.length = p.length
  le : p'.length ≤ maxSize

theorem Wrote.refl {p : PrintBuffer} (hp : p.Valid) : Wrote noalloc p [] p :=
  ⟨fun _ _ => rfl, rfl, rfl, rfl, le_rfl, fun _ => rfl, hp⟩

theorem Wrote.trans {p p' p'' : PrintBuffer} {t t' : List UInt8} (h : Wrote noalloc p t p')
    (h' : Wrote noalloc p' t' p'') : Wrote noalloc p (t ++ t') p'' where
  below k hk := by
    rw [h'.below k (by rw [h.offset]; omega), h.below k hk]
  text := by
    rw [List.length_append, load_add]
    congr 1
    · rw [← h.text, length_load]
      exact load_congr fun k hk => h'.below _ (by rw [h.offset]; omega)
    · rw [← h.offset, h'.text]
  offset := by rw [h'.offset, h.offset, List.length_append]; omega
  depth := by rw [h'.depth, h.depth]
  length := h.length.trans h'.length
  fixed hna := by rw [h'.fixed hna, h.fixed hna]
  valid := h'.valid

theorem Wrote.printed {p p' p'' : PrintBuffer} {t t' : List UInt8} (h : Wrote noalloc p t p')
    (h' : Printed noalloc p' t' p'') : Printed noalloc p (t ++ t') p'' := by
  have hoff := h.offset
  have hle := h'.le_offset
  have hle' := h'.offset_le
  have hfits := h'.fits
  refine ⟨?_, ?_, ?_, by omega, ?_, ?_, by rw [h'.depth, h.depth], h.length.trans h'.length,
    fun hna => by rw [h'.fixed hna, h.fixed hna], h'.le⟩
  · intro k hk
    rw [h'.below k (by omega), h.below k hk]
  · rw [List.length_append, load_add]
    congr 1
    · rw [← h.text, length_load]
      exact load_congr fun k hk => h'.below _ (by omega)
    · rw [← h.offset, h'.text]
  · rw [List.length_append, ← Nat.add_assoc, ← h.offset, h'.nul]
  · rw [List.length_append]; omega
  · rw [List.length_append]; omega

theorem Wrote.withDepth {p p' : PrintBuffer} {t : List UInt8} (h : Wrote noalloc p t p') (d : Nat) :
    Wrote noalloc { p with depth := d } t { p' with depth := d } where
  below := h.below
  text := h.text
  offset := h.offset
  depth := rfl
  length := h.length
  fixed := h.fixed
  valid := ⟨h.valid.lt, h.valid.le⟩

/-! ## Steps -/

theorem ensure_ends {p : PrintBuffer} {needed : Nat} (hp : p.Valid) :
    (ensure alloc noalloc needed p).Ends
      (fun _ p' => p' = { p with length := p'.length, allocs := p'.allocs } ∧
        p.length ≤ p'.length ∧ needed + p.offset + 1 ≤ p'.length ∧ p'.length ≤ maxSize ∧
        (noalloc = true → p'.length = p.length))
      (fun _ => ¬Room alloc noalloc p (needed + p.offset + 1)) := by
  have hlt := hp.lt
  have hle := hp.le
  unfold ensure
  split
  · omega
  split
  · rintro (h | ⟨-, h, -⟩) <;> omega
  split
  · exact ⟨rfl, le_rfl, by omega, hle, fun _ => rfl⟩
  split
  · next hna =>
      rintro (h | ⟨h, -⟩)
      · omega
      · rw [hna] at h
        cases h
  split
  · rintro (h | ⟨-, h, -⟩) <;> omega
  split
  · next hna _ _ =>
      refine ⟨rfl, ?_, ?_, ?_, fun h => absurd h hna⟩
      · simp only
        split <;> omega
      · simp only
        split <;> omega
      · simp only
        split
        · exact le_rfl
        · simp only [maxSize] at *
          omega
  · next halloc =>
      rintro (h | ⟨-, -, h⟩)
      · omega
      · exact halloc (h _)

theorem put_ends {p : PrintBuffer} {bs : List UInt8} {E : PrintBuffer → Prop}
    (h : p.offset + bs.length ≤ p.length) :
    (put bs p).Ends (fun _ p' => p' = { p with memory := store p.memory p.offset bs }) E := by
  simp only [put, h, ↓reduceIte]
  rfl

theorem write_ends {p : PrintBuffer} {needed : Nat} {w z : List UInt8} (hp : p.Valid)
    (hw : w.length ≤ needed) (hneeded : needed ≤ w.length + 1) (hz : z.length ≤ 1) :
    (write alloc noalloc needed w z p).Ends (fun _ p' => Wrote noalloc p w p')
      (fun _ => ¬Room alloc noalloc p (p.offset + w.length + 2)) := by
  unfold write
  apply ((ensure_ends hp).mono (fun _ _ h => h) ?_).bind
  · rintro - p₁ ⟨hp₁, hlen, hneed, hmax, hfixed⟩
    have hoff : p₁.offset = p.offset := by rw [hp₁]
    have hmem : p₁.memory = p.memory := by rw [hp₁]
    apply (put_ends (by rw [List.length_append, hoff]; omega)).bind
    rintro - p₂ rfl
    constructor
    · intro k hk
      simp only [hmem, hoff]
      exact store_of_lt _ _ hk
    · simp only [hmem, hoff]
      rw [← store_append, load_store_below _ _ _ le_rfl, load_store_self]
    · simp only [hoff]
    · rw [hp₁]
    · exact hlen
    · exact hfixed
    · exact ⟨fun _ => by simp only [hoff]; omega, hmax⟩
  · intro p' h
    exact fun hroom => h (hroom.mono le_rfl (by omega))

/-- A text and its 0 in a buffer that has been made large enough. -/
theorem Printed.of_store {p p₁ : PrintBuffer} {w : List UInt8}
    (hp₁ : p₁ = { p with length := p₁.length, allocs := p₁.allocs }) (hle : p.length ≤ p₁.length)
    (hfits : p.offset + w.length + 2 ≤ p₁.length) (hmax : p₁.length ≤ maxSize)
    (hfixed : noalloc = true → p₁.length = p.length) :
    Printed noalloc p w { p₁ with memory := store p.memory p.offset (w ++ [0]) } := by
  have hoff : p₁.offset = p.offset := by rw [hp₁]
  refine ⟨?_, ?_, ?_, ?_, ?_, hfits, by rw [hp₁], hle, hfixed, hmax⟩
  · exact fun k hk => store_of_lt _ _ hk
  · simp only
    rw [← store_append, load_store_below _ _ _ le_rfl, load_store_self]
  · simp only
    rw [← store_append, store_singleton, if_pos rfl]
  · simp only [hoff, le_refl]
  · simp only [hoff]
    omega

/-- Room is asked for, and a text is written with a 0 behind it. -/
theorem print_ends {p : PrintBuffer} {needed : Nat} {w : List UInt8} (hp : p.Valid)
    (hneeded : needed = w.length + 1) :
    ((do
      ensure alloc noalloc needed
      put (w ++ [0]) : Printer Unit) p).Ends
      (fun _ p' => Printed noalloc p w p' ∧ p'.offset = p.offset)
      (fun _ => ¬Room alloc noalloc p (p.offset + w.length + 2)) := by
  apply ((ensure_ends hp).mono (fun _ _ h => h) ?_).bind
  · rintro - p₁ ⟨hp₁, hlen, hneed, hmax, hfixed⟩
    have hoff : p₁.offset = p.offset := by rw [hp₁]
    have hmem : p₁.memory = p.memory := by rw [hp₁]
    apply (put_ends (by rw [List.length_append, hoff]; simp; omega)).mono
    · rintro - p₂ rfl
      have hprinted := Printed.of_store (w := w) hp₁ hlen (by omega) hmax hfixed
      rw [← hmem, ← hoff] at hprinted
      exact ⟨hprinted, hoff⟩
    · exact fun _ h => h
  · intro p' h
    exact fun hroom => h (hroom.mono le_rfl (by omega))

theorem load_get (m : Nat → UInt8) {o n k : Nat} (h : k < n) : (load m o n)[k]? = some (m (o + k)) := by
  simp [load, h]

/-- The 0 that is found is the one behind the text. -/
theorem updateOffset_ends {p p' : PrintBuffer} {t : List UInt8} {E : PrintBuffer → Prop}
    (h : Printed noalloc p t p') (ht : 0 ∉ t) :
    (updateOffset p').Ends (fun _ p'' => Wrote noalloc p t p'') E := by
  have hlo := h.le_offset
  have hhi := h.offset_le
  have hfits := h.fits
  have hfind : (load p'.memory p'.offset (p'.length - p'.offset)).findIdx? (· = 0) =
      some (p.offset + t.length - p'.offset) := by
    rw [List.findIdx?_eq_some_iff_getElem]
    refine ⟨by rw [length_load]; omega, ?_, ?_⟩
    · simp only [load, List.getElem_map, List.getElem_range, decide_eq_true_eq]
      rw [Nat.add_sub_cancel' hhi, h.nul]
    · intro k hk
      simp only [load, List.getElem_map, List.getElem_range, decide_eq_true_eq]
      intro h0
      -- the byte is one of the text
      have hk' : p'.offset - p.offset + k < t.length := by omega
      have hbyte := load_get p'.memory (o := p.offset) hk'
      rw [h.text, show p.offset + (p'.offset - p.offset + k) = p'.offset + k by omega, h0] at hbyte
      exact ht (List.mem_of_getElem? hbyte)
  simp only [updateOffset, hfind]
  exact ⟨h.below, h.text, by simp only; omega, h.depth, h.length, h.fixed,
    ⟨fun _ => by simp only; omega, h.le⟩⟩

/-! ## Strings and numbers -/

theorem length_escapeByte (b : UInt8) : (escapeByte b).length = 1 + escapeCharacters b :=
  forall_byte (P := fun b => (escapeByte b).length = 1 + escapeCharacters b) (by decide +kernel) b

theorem escapeByte_of_escapeCharacters (b : UInt8) : escapeCharacters b = 0 → escapeByte b = [b] :=
  forall_byte (P := fun b => escapeCharacters b = 0 → escapeByte b = [b]) (by decide +kernel) b

theorem not_mem_escapeByte (b : UInt8) : b ≠ 0 → 0 ∉ escapeByte b :=
  forall_byte (P := fun b => b ≠ 0 → 0 ∉ escapeByte b) (by decide +kernel) b

theorem length_flatMap_escapeByte (s : List UInt8) :
    (s.flatMap escapeByte).length = s.length + (s.map escapeCharacters).sum := by
  induction s with
  | nil => rfl
  | cons b s ih =>
      rw [List.flatMap_cons, List.length_append, ih, length_escapeByte, List.map_cons,
        List.sum_cons, List.length_cons]
      omega

theorem flatMap_escapeByte {s : List UInt8} (h : (s.map escapeCharacters).sum = 0) :
    s.flatMap escapeByte = s := by
  induction s with
  | nil => rfl
  | cons b s ih =>
      rw [List.map_cons, List.sum_cons, Nat.add_eq_zero_iff] at h
      rw [List.flatMap_cons, ih h.2, escapeByte_of_escapeCharacters b h.1]
      rfl

/-- The closing quote is written where the count of the first pass says, which is behind the text. -/
theorem printStringPtr_ends {p : PrintBuffer} (hp : p.Valid) (input : Option (List UInt8)) :
    (printStringPtr alloc noalloc input p).Ends
      (fun _ p' => Printed noalloc p (quoted input) p')
      (fun _ => ¬Room alloc noalloc p (p.offset + (quoted input).length + 2)) := by
  cases input with
  | none => exact (print_ends (w := [34, 34]) hp rfl).mono (fun _ _ h => h.1) (fun _ h => h)
  | some s =>
      have hlen := length_flatMap_escapeByte s
      have hneeded : s.length + (s.map escapeCharacters).sum + 3 = (quoted (some s)).length + 1 := by
        simp only [quoted, List.length_append, List.length_cons, List.length_nil, hlen]
      unfold printStringPtr
      by_cases h0 : (s.map escapeCharacters).sum = 0
      · have hquoted : 34 :: s ++ [34, 0] = quoted (some s) ++ [0] := by
          simp [quoted, flatMap_escapeByte h0]
        simp only [h0, ↓reduceIte, hquoted]
        rw [h0] at hneeded
        exact (print_ends hp hneeded).mono (fun _ _ h => h.1) (fun _ h => h)
      · simp only [h0, ↓reduceIte]
        apply ((ensure_ends hp).mono (fun _ _ h => h) ?_).bind
        · rintro - p₁ ⟨hp₁, hle, hneed, hmax, hfixed⟩
          have hoff : p₁.offset = p.offset := by rw [hp₁]
          have hmem : p₁.memory = p.memory := by rw [hp₁]
          apply (put_ends (by rw [List.length_cons, hlen, hoff]; omega)).bind
          rintro - p₂ rfl
          simp only [get_bind, modify_bind]
          apply (put_ends (by simp only [hoff]; simp; omega)).bind
          rintro - p₃ rfl
          have hstore : store (store p₁.memory p₁.offset (34 :: s.flatMap escapeByte))
              (p₁.offset + (s.length + (s.map escapeCharacters).sum) + 1) [34, 0] =
              store p.memory p.offset (quoted (some s) ++ [0]) := by
            have happ := store_append p.memory p.offset (34 :: s.flatMap escapeByte) [34, 0]
            rw [List.length_cons, hlen] at happ
            rw [hmem, hoff, Nat.add_assoc, happ]
            simp [quoted]
          have hprinted : Printed noalloc p (quoted (some s)) _ :=
            .of_store hp₁ hle (by omega) hmax hfixed
          rw [← hstore] at hprinted
          exact hprinted
        · exact fun p' h hroom => h (hroom.mono le_rfl (by omega))

/-- What `sprintf` promises for a double: no more than 25 characters, and no 0 in front of the last
one. -/
structure RealText (real : ℚ → List UInt8) : Prop where
  nul_free : ∀ q, 0 ∉ real q
  length_le : ∀ q, (real q).length ≤ 25

theorem decimal_digits (n : Nat) : ∀ b ∈ decimal n, isDigit b = true := by
  intro b hb
  unfold decimal at hb
  split at hb
  · rw [List.mem_singleton.mp hb]
    rfl
  · obtain ⟨d, hd, rfl⟩ := List.mem_map.mp hb
    have hlt := Nat.digits_lt_base (by decide) (List.mem_reverse.mp hd)
    have all : ∀ d < 10, isDigit (UInt8.ofNat (48 + d)) = true := by decide
    exact all d hlt

theorem length_decimal_le {n k : Nat} (h : n < 10 ^ (k + 1)) : (decimal n).length ≤ k + 1 := by
  unfold decimal
  split
  · simp
  · rw [List.length_map, List.length_reverse]
    exact (Nat.digits_length_le_iff (by decide) _).mpr h

theorem natAbs_toInt_le (n : Int32) : n.toInt.natAbs ≤ 2 ^ 31 := by
  have hlt := n.toInt_lt
  have hle := n.le_toInt
  omega

theorem length_sprintfD_le (n : Int32) : (sprintfD n).length ≤ 11 := by
  have hle := length_decimal_le (n := n.toInt.natAbs) (k := 9)
    (lt_of_le_of_lt (natAbs_toInt_le n) (by norm_num))
  unfold sprintfD
  split
  · simp only [List.length_cons]
    omega
  · omega

theorem not_mem_decimal (n : Nat) : 0 ∉ decimal n := by
  intro h
  exact absurd (decimal_digits n 0 h) (by decide)

theorem numberText_spec (hreal : RealText real) (n : Int32) (d : Double) :
    0 ∉ numberText real n d ∧ (numberText real n d).length ≤ 25 := by
  cases d with
  | infinite neg =>
      have hnull : 0 ∉ ascii "null" ∧ (ascii "null").length ≤ 25 := by decide
      exact hnull
  | finite q =>
      simp only [numberText]
      split
      · refine ⟨?_, (length_sprintfD_le n).trans (by omega)⟩
        unfold sprintfD
        split
        · simp [not_mem_decimal]
        · exact not_mem_decimal _
      · exact ⟨hreal.nul_free q, hreal.length_le q⟩

/-! ## Values -/

/-- The printer leaves the text of the item at the depth of the buffer. -/
def Prints (alloc : Nat → Bool) (noalloc format : Bool) (real : ℚ → List UInt8) (item : Item) :
    Prop :=
  ∀ p : PrintBuffer, p.Valid →
    (printValue alloc noalloc format real item p).Ends
      (fun _ p' => Printed noalloc p (render format real p.depth item) p')
      (fun _ => ¬Room alloc noalloc p
        (p.offset + (render format real p.depth item).length + 2))

theorem printLiteral_ends {p : PrintBuffer} (hp : p.Valid) (s : List UInt8) :
    (printLiteral alloc noalloc s p).Ends (fun _ p' => Printed noalloc p s p')
      (fun _ => ¬Room alloc noalloc p (p.offset + s.length + 2)) :=
  (print_ends hp rfl).mono (fun _ _ h => h.1) (fun _ h => h)

theorem printNumber_ends {p : PrintBuffer} (hp : p.Valid) (hreal : RealText real) (n : Int32)
    (d : Double) :
    (printNumber alloc noalloc real n d p).Ends
      (fun _ p' => Printed noalloc p (numberText real n d) p')
      (fun _ => ¬Room alloc noalloc p (p.offset + (numberText real n d).length + 2)) := by
  have hlen := (numberText_spec hreal n d).2
  unfold printNumber
  simp only [show ¬25 < (numberText real n d).length by omega, ↓reduceIte]
  rw [← andThen_assoc]
  apply (print_ends hp rfl).bind
  rintro - p' ⟨h, hoff⟩
  exact ⟨h.below, h.text, h.nul, by simp only; omega, by simp only; omega, h.fits, h.depth, h.length,
    h.fixed, h.le⟩

theorem Wrote.not_room {p p' : PrintBuffer} {t : List UInt8} {n m : Nat}
    (h : Wrote noalloc p t p') (hn : ¬Room alloc noalloc p' n) (hm : n ≤ m) :
    ¬Room alloc noalloc p m :=
  fun hroom => hn (hroom.mono h.length hm)

/-- What is written behind a text: both parts count for the room. -/
theorem Wrote.ends {β : Type} {p p' : PrintBuffer} {t t' : List UInt8} {m : Printer β} {n : Nat}
    (h : Wrote noalloc p t p')
    (hm : (m p').Ends (fun _ p'' => Wrote noalloc p' t' p'')
      (fun _ => ¬Room alloc noalloc p' (p'.offset + t'.length + 2)))
    (hn : p.offset + (t ++ t').length + 2 ≤ n) :
    (m p').Ends (fun _ p'' => Wrote noalloc p (t ++ t') p'')
      (fun _ => ¬Room alloc noalloc p n) := by
  apply hm.mono
  · exact fun _ p'' h' => h.trans h'
  · intro p'' h'
    have hoff := h.offset
    rw [List.length_append] at hn
    exact h.not_room h' (by omega)

/-- A value with the offset behind it. -/
theorem Prints.wrote {item : Item} {p : PrintBuffer} (h : Prints alloc noalloc format real item)
    (hp : p.Valid) (hnul : 0 ∉ render format real p.depth item) :
    ((do
      printValue alloc noalloc format real item
      updateOffset : Printer Unit) p).Ends
      (fun _ p' => Wrote noalloc p (render format real p.depth item) p')
      (fun _ => ¬Room alloc noalloc p
        (p.offset + (render format real p.depth item).length + 2)) := by
  apply (h p hp).bind
  rintro - p₁ hprinted
  exact updateOffset_ends hprinted hnul

theorem printElements_ends {cs : List Item} (h : ∀ c ∈ cs, Prints alloc noalloc format real c)
    (hnul : ∀ c ∈ cs, ∀ depth, 0 ∉ render format real depth c) {p : PrintBuffer} (hp : p.Valid) :
    (printElements alloc noalloc format real cs p).Ends
      (fun _ p' => Wrote noalloc p (renderElements format real p.depth cs) p')
      (fun _ => ¬Room alloc noalloc p
        (p.offset + (renderElements format real p.depth cs).length + 2)) := by
  induction cs generalizing p with
  | nil =>
      rw [printElements, renderElements]
      exact Wrote.refl hp
  | cons c cs ih =>
      have hcs := fun p hp => @ih (fun c' hc' => h c' (List.mem_cons_of_mem _ hc'))
        (fun c' hc' => hnul c' (List.mem_cons_of_mem _ hc')) p hp
      rw [printElements, renderElements, ← andThen_assoc]
      generalize hafter : renderElements format real p.depth cs = after at *
      have hlast : ∀ {p' t n}, Wrote noalloc p t p' → p.offset + (t ++ after).length + 2 ≤ n →
          (printElements alloc noalloc format real cs p').Ends
            (fun _ p'' => Wrote noalloc p (t ++ after) p'')
            (fun _ => ¬Room alloc noalloc p n) := by
        intro p' t n ht hn
        have hp' := hcs p' ht.valid
        rw [ht.depth, hafter] at hp'
        exact ht.ends hp' hn
      apply (((h c List.mem_cons_self).wrote hp (hnul c List.mem_cons_self _)).mono
        (fun _ _ h => h) ?_).bind
      · rintro - p₁ h₁
        split
        · rw [List.append_nil]
          exact hlast h₁ le_rfl
        · have hcomma : (if format then [44, 32] else [44]) = comma format := rfl
          have hlen : (if format then 3 else 2) = (comma format).length + 1 := by
            cases format <;> rfl
          rw [hcomma, hlen]
          have hwrite : (write alloc noalloc ((comma format).length + 1) (comma format) [0] p₁).Ends
              (fun _ p' => Wrote noalloc p₁ (comma format) p')
              (fun _ => ¬Room alloc noalloc p₁ (p₁.offset + (comma format).length + 2)) :=
            write_ends h₁.valid (by omega) le_rfl le_rfl
          apply (h₁.ends hwrite (by simp only [List.length_append]; omega)).bind
          rintro - p₂ h₂
          exact hlast h₂ le_rfl
      · exact fun p' h hroom => h (hroom.mono le_rfl (by simp only [List.length_append]; omega))

theorem not_mem_quoted {s : Option (List UInt8)} (h : ∀ t, s = some t → 0 ∉ t) : 0 ∉ quoted s := by
  cases s with
  | none => decide
  | some t =>
      have ht := h t rfl
      simp only [quoted, List.cons_append, List.mem_cons, List.mem_append, List.mem_flatMap,
        List.not_mem_nil, or_false, not_or, not_exists, not_and]
      refine ⟨by decide, fun b hb => ?_, by decide⟩
      exact not_mem_escapeByte b fun h0 => ht (h0 ▸ hb)

theorem printIndent_ends {p : PrintBuffer} (hp : p.Valid) :
    (printIndent alloc noalloc format p).Ends
      (fun _ p' => Wrote noalloc p (tabs format p.depth) p')
      (fun _ => ¬Room alloc noalloc p (p.offset + (tabs format p.depth).length + 2)) := by
  unfold printIndent tabs
  rw [get_bind]
  cases format with
  | false => exact Wrote.refl hp
  | true => exact write_ends hp (by simp) (by simp) (by simp)

theorem printStringPtr_wrote {p : PrintBuffer} {key : Option (List UInt8)} (hp : p.Valid)
    (hkey : ∀ t, key = some t → 0 ∉ t) :
    ((do
      printStringPtr alloc noalloc key
      updateOffset : Printer Unit) p).Ends
      (fun _ p' => Wrote noalloc p (quoted key) p')
      (fun _ => ¬Room alloc noalloc p (p.offset + (quoted key).length + 2)) := by
  apply (printStringPtr_ends hp key).bind
  rintro - p₁ hprinted
  exact updateOffset_ends hprinted (not_mem_quoted hkey)

theorem printMembers_ends {cs : List Item} (h : ∀ c ∈ cs, Prints alloc noalloc format real c)
    (hnul : ∀ c ∈ cs, ∀ depth, 0 ∉ render format real depth c)
    (hkeys : ∀ c ∈ cs, ∀ t, c.string = some t → 0 ∉ t) {p : PrintBuffer} (hp : p.Valid) :
    (printMembers alloc noalloc format real cs p).Ends
      (fun _ p' => Wrote noalloc p (renderMembers format real p.depth cs) p')
      (fun _ => ¬Room alloc noalloc p
        (p.offset + (renderMembers format real p.depth cs).length + 2)) := by
  induction cs generalizing p with
  | nil =>
      rw [printMembers, renderMembers]
      exact Wrote.refl hp
  | cons c cs ih =>
      have hcs := fun p hp => @ih (fun c' hc' => h c' (List.mem_cons_of_mem _ hc'))
        (fun c' hc' => hnul c' (List.mem_cons_of_mem _ hc'))
        (fun c' hc' => hkeys c' (List.mem_cons_of_mem _ hc')) p hp
      have hcolon : (if format then [58, 9] else [58]) = colon format := rfl
      have hcolonLen : (if format then 2 else 1) = (colon format).length := by
        cases format <;> rfl
      have hend : (if format then [10] else []) = lineEnd format := rfl
      have hendLen : (if format then 1 else 0) + (if cs.isEmpty then 0 else 1) + 1 =
          ((if cs.isEmpty then [] else [44]) ++ lineEnd format).length + 1 := by
        cases format <;> cases cs.isEmpty <;> rfl
      rw [printMembers, renderMembers, hcolon, hcolonLen, hend, hendLen]
      simp only [List.append_assoc (_ ++ _ ++ _ ++ _) _ (lineEnd format)]
      generalize (if cs.isEmpty then [] else [44]) ++ lineEnd format = sep
      apply ((printIndent_ends hp).mono (fun _ _ h => h) ?_).bind
      · rintro - p₁ h₁
        rw [← andThen_assoc]
        apply (h₁.ends (printStringPtr_wrote h₁.valid (hkeys c List.mem_cons_self)) ?_).bind
        · rintro - p₂ h₂
          apply (h₂.ends (write_ends h₂.valid le_rfl (by omega) (by simp)) ?_).bind
          · rintro - p₃ h₃
            rw [← andThen_assoc]
            have hvalue := (h c List.mem_cons_self).wrote h₃.valid (hnul c List.mem_cons_self _)
            rw [h₃.depth] at hvalue
            apply (h₃.ends hvalue ?_).bind
            · rintro - p₄ h₄
              apply (h₄.ends (write_ends h₄.valid (by omega) le_rfl le_rfl) ?_).bind
              · rintro - p₅ h₅
                have hrest := hcs p₅ h₅.valid
                rw [h₅.depth] at hrest
                exact h₅.ends hrest le_rfl
              · simp only [List.length_append]; omega
            · simp only [List.length_append]; omega
          · simp only [List.length_append]; omega
        · simp only [List.length_append]; omega
      · exact fun p' h hroom => h (hroom.mono le_rfl (by simp only [List.length_append]; omega))

theorem Printed.withDepth {p p' : PrintBuffer} {t : List UInt8} (h : Printed noalloc p t p')
    (d : Nat) : Printed noalloc { p with depth := d } t { p' with depth := d } :=
  ⟨h.below, h.text, h.nul, h.le_offset, h.offset_le, h.fits, rfl, h.length, h.fixed, h.le⟩

/-- What an array and an object have in common: the opening, the items one level deeper, and the
closing back on the level of the value. -/
theorem nested_ends {p : PrintBuffer} {needed : Nat} (opening : List UInt8)
    {body closing : List UInt8} {items last : Printer Unit} (hp : p.Valid)
    (hopen : opening.length ≤ needed)
    (hopen' : needed ≤ opening.length + 1)
    (hitems : ∀ p' : PrintBuffer, p'.Valid → p'.depth = p.depth + 1 →
      (items p').Ends (fun _ p'' => Wrote noalloc p' body p'')
        (fun _ => ¬Room alloc noalloc p' (p'.offset + body.length + 2)))
    (hlast : ∀ p' : PrintBuffer, p'.Valid → p'.depth = p.depth + 1 →
      (last p').Ends (fun _ p'' => Printed noalloc p' closing p'')
        (fun _ => ¬Room alloc noalloc p' (p'.offset + closing.length + 2))) :
    ((do
      write alloc noalloc needed opening []
      deeper
      items
      last
      shallower : Printer Unit) p).Ends
      (fun _ p' => Printed noalloc p (opening ++ body ++ closing) p')
      (fun _ => ¬Room alloc noalloc p (p.offset + (opening ++ body ++ closing).length + 2)) := by
  have hlen : (opening ++ body ++ closing).length =
      opening.length + body.length + closing.length := by
    simp only [List.length_append]
  rw [hlen]
  apply ((write_ends hp hopen hopen' (by simp)).mono (fun _ _ h => h) ?_).bind
  · rintro - p₁ h₁
    have hoff₁ := h₁.offset
    have h₁' := h₁.withDepth (p.depth + 1)
    simp only [deeper, modify_bind]
    rw [h₁.depth]
    apply ((hitems _ h₁'.valid rfl).mono (fun _ _ h => h) ?_).bind
    · rintro - p₂ h₂
      have hoff₂ := h₂.offset
      have h₁₂ := h₁'.trans h₂
      apply ((hlast p₂ h₂.valid h₂.depth).mono (fun _ _ h => h) ?_).bind
      · rintro - p₃ h₃
        have hprinted := (h₁₂.printed h₃).withDepth p.depth
        have hdepth : p₃.depth - 1 = p.depth := by
          rw [h₃.depth, h₂.depth]
          rfl
        simp only [shallower, modify_apply, hdepth]
        exact hprinted
      · intro p' h hroom
        simp only at hoff₂
        exact h (hroom.mono h₁₂.length (by omega))
    · intro p' h hroom
      exact h (hroom.mono h₁'.length (by simp only; omega))
  · exact fun p' h hroom => h (hroom.mono le_rfl (by omega))

theorem printBrace_ends (alloc : Nat → Bool) (noalloc format : Bool) {p : PrintBuffer}
    (hp : p.Valid) (hdepth : 0 < p.depth) :
    (printBrace alloc noalloc format p).Ends
      (fun _ p' => Printed noalloc p (tabs format (p.depth - 1) ++ [125]) p')
      (fun _ => ¬Room alloc noalloc p
        (p.offset + (tabs format (p.depth - 1) ++ [125]).length + 2)) := by
  have hneeded : (if format then p.depth + 1 else 2) =
      (tabs format (p.depth - 1) ++ [125]).length + 1 := by
    cases format with
    | false => rfl
    | true => simp [tabs]; omega
  have hput : (if format then List.replicate (p.depth - 1) 9 else []) ++ [125, 0] =
      tabs format (p.depth - 1) ++ [125] ++ [0] := by
    simp [tabs]
  unfold printBrace
  rw [get_bind]
  simp only [hneeded, hput]
  exact (print_ends hp rfl).mono (fun _ _ h => h.1) (fun _ h => h)

/-- Nothing that is printed holds a 0, so that each 0 of the buffer ends a text. -/
theorem Formed.not_mem_render (hreal : RealText real) {room : Nat} {item : Item}
    (h : Formed room item) (depth : Nat) : 0 ∉ render format real depth item := by
  induction h generalizing depth with
  | null => rw [render]; decide
  | false => rw [render]; decide
  | true => rw [render]; decide
  | number => rw [render]; exact (numberText_spec hreal _ _).1
  | string hs =>
      rw [render]
      exact not_mem_quoted fun t ht => by cases ht; exact hs
  | @array room k cs hcs hkeys ih =>
      have helems : 0 ∉ renderElements format real (depth + 1) cs := by
        clear hcs hkeys
        induction cs with
        | nil => simp [renderElements]
        | cons c cs ihcs =>
            have hc := ih c List.mem_cons_self (depth + 1)
            have hrest := ihcs fun c' hc' => ih c' (List.mem_cons_of_mem _ hc')
            have hcomma : 0 ∉ (if cs.isEmpty then [] else comma format) := by
              cases cs.isEmpty <;> cases format <;> decide
            simp only [renderElements, List.mem_append, not_or]
            exact ⟨⟨hc, hcomma⟩, hrest⟩
      rw [render]
      simp [helems]
  | @object room k cs hcs hkeys ih =>
      have htabs : ∀ n, 0 ∉ tabs format n := by
        intro n h0
        unfold tabs at h0
        split at h0
        · simp at h0
        · simp at h0
      have hend : 0 ∉ lineEnd format := by cases format <;> decide
      have hmembers : 0 ∉ renderMembers format real (depth + 1) cs := by
        clear hcs
        induction cs with
        | nil => simp [renderMembers]
        | cons c cs ihcs =>
            have hc := ih c List.mem_cons_self (depth + 1)
            have hrest := ihcs (fun c' hc' => hkeys c' (List.mem_cons_of_mem _ hc'))
              fun c' hc' => ih c' (List.mem_cons_of_mem _ hc')
            have hkey : 0 ∉ quoted c.string := by
              obtain ⟨name, hname, h0⟩ := hkeys c List.mem_cons_self
              rw [hname]
              exact not_mem_quoted fun t ht => by cases ht; exact h0
            have hcolon : 0 ∉ colon format := by cases format <;> decide
            have hsep : 0 ∉ (if cs.isEmpty then [] else [(44 : UInt8)]) := by
              cases cs.isEmpty <;> decide
            simp only [renderMembers, List.mem_append, not_or]
            exact ⟨⟨⟨⟨⟨⟨htabs _, hkey⟩, hcolon⟩, hc⟩, hsep⟩, hend⟩, hrest⟩
      rw [render]
      simp [hmembers, htabs, hend]

/-- The printer is right about every well-formed item. -/
theorem Formed.prints (alloc : Nat → Bool) (noalloc format : Bool) (hreal : RealText real)
    {room : Nat} {item : Item} (h : Formed room item) :
    Prints alloc noalloc format real item := by
  induction h with
  | null => exact fun p hp => printLiteral_ends hp _
  | false => exact fun p hp => printLiteral_ends hp _
  | true => exact fun p hp => printLiteral_ends hp _
  | number => exact fun p hp => printNumber_ends hp hreal _ _
  | @string room k s hs => exact fun p hp => printStringPtr_ends hp (some s)
  | array hcs hkeys ih =>
      intro p hp
      rw [printValue, render]
      apply nested_ends [91] hp (by simp) (by simp)
      · intro p' hp' hdepth
        rw [← hdepth]
        exact printElements_ends ih (fun c hc d => (hcs c hc).not_mem_render hreal d) hp'
      · exact fun p' hp' _ => printLiteral_ends hp' _
  | object hcs hkeys ih =>
      intro p hp
      have hopening : (if format then [123, 10] else [123]) = 123 :: lineEnd format := by
        cases format <;> rfl
      have hneeded : (if format then 3 else 2) = (123 :: lineEnd format).length + 1 := by
        cases format <;> rfl
      rw [printValue, render, hopening, hneeded, List.append_assoc]
      apply nested_ends _ hp (by omega) le_rfl
      · intro p' hp' hdepth
        rw [← hdepth]
        refine printMembers_ends ih (fun c hc d => (hcs c hc).not_mem_render hreal d) ?_ hp'
        intro c hc t ht
        obtain ⟨name, hname, h0⟩ := hkeys c hc
        rw [hname] at ht
        cases ht
        exact h0
      · intro p' hp' hdepth
        have hbrace := printBrace_ends alloc noalloc format hp'
          (by omega)
        rwa [hdepth, Nat.add_sub_cancel] at hbrace

end Umicat.Json
