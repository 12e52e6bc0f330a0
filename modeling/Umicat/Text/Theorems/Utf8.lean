import Umicat.Base.Word
import Umicat.Text.Utf8

/-!
# What the decoder takes for UTF-8

Well formed is what `String.utf8EncodeChar` writes for the characters of Lean: Unicode scalar values
in their shortest form.
-/

namespace Umicat.Text

open String (utf8EncodeChar)

/-! ## Sequences of two and more bytes -/

/-- The sequences that the decoder takes, by their bytes. Only the low bits of the first byte and of
its followers count. -/
def Taken : List UInt8 → Prop
  | [a, b] => 0xc2 ≤ a.toNat ∧ a.toNat < 0xe0 ∧ 0x80 ≤ b.toNat
  | [a, b, c] =>
      0xe0 ≤ a.toNat ∧ a.toNat < 0xf0 ∧ 0x80 ≤ b.toNat ∧ 0x80 ≤ c.toNat ∧
        (a.toNat = 0xe0 → 0x20 ≤ b.toNat % 64)
  | [a, b, c, d] =>
      0xf0 ≤ a.toNat ∧ 0x80 ≤ b.toNat ∧ 0x80 ≤ c.toNat ∧ 0x80 ≤ d.toNat ∧
        (a.toNat % 8 = 0 → 0x10 ≤ b.toNat % 64) ∧ a.toNat % 8 ≤ 4 ∧
        (a.toNat % 8 = 4 → b.toNat % 64 < 0x10)
  | _ => False

/-- The value of a sequence. -/
def value : List UInt8 → Nat
  | [a, b] => a.toNat % 32 * 64 + b.toNat % 64
  | [a, b, c] => (a.toNat % 16 * 64 + b.toNat % 64) * 64 + c.toNat % 64
  | [a, b, c, d] =>
      ((a.toNat % 8 * 64 + b.toNat % 64) * 64 + c.toNat % 64) * 64 + d.toNat % 64
  | _ => 0

/-- A first byte from F8 on, a follower from C0 on, or a surrogate. -/
def Irregular : List UInt8 → Prop
  | [] => False
  | a :: bs => 0xf8 ≤ a.toNat ∨ (∃ b ∈ bs, 0xc0 ≤ b.toNat) ∨
      (a.toNat = 0xed ∧ ∃ b, bs.head? = some b ∧ 0x20 ≤ b.toNat % 64)

theorem Taken.cases {bs : List UInt8} (h : Taken bs) :
    (∃ a b, bs = [a, b]) ∨ (∃ a b c, bs = [a, b, c]) ∨ ∃ a b c d, bs = [a, b, c, d] := by
  match bs, h with
  | [a, b], _ => exact Or.inl ⟨a, b, rfl⟩
  | [a, b, c], _ => exact Or.inr (Or.inl ⟨a, b, c, rfl⟩)
  | [a, b, c, d], _ => exact Or.inr (Or.inr ⟨a, b, c, d, rfl⟩)

theorem Taken.value_range {bs : List UInt8} (h : Taken bs) :
    0x80 ≤ value bs ∧ value bs ≤ 0x10ffff := by
  rcases h.cases with ⟨a, b, rfl⟩ | ⟨a, b, c, rfl⟩ | ⟨a, b, c, d, rfl⟩
  · have ha := a.toNat_lt
    simp only [Taken, value] at h ⊢
    omega
  · have ha := a.toNat_lt
    simp only [Taken, value] at h ⊢
    omega
  · have ha := a.toNat_lt
    simp only [Taken, value] at h ⊢
    omega

/-! ## What the decoder computes -/

theorem shift_toNat {u : UInt32} (i : UInt8) (h : u.toNat < 2 ^ 26) :
    (u <<< 6 ||| (i.toUInt32 &&& 0x3f)).toNat = u.toNat * 64 + i.toNat % 64 := by
  have hlow : i.toNat &&& 63 = i.toNat % 64 := Nat.and_two_pow_sub_one_eq_mod i.toNat 6
  have hshift : u.toNat <<< 6 % 2 ^ 32 = u.toNat <<< 6 := by
    rw [Nat.shiftLeft_eq]
    omega
  have hor := Nat.shiftLeft_add_eq_or_of_lt (Nat.mod_lt i.toNat (by decide : 0 < 2 ^ 6)) u.toNat
  simp only [UInt32.toNat_or, UInt32.toNat_shiftLeft, UInt32.toNat_and, UInt8.toNat_toUInt32,
    UInt32.reduceToNat, Nat.reduceMod, hlow, hshift]
  rw [Nat.shiftLeft_eq] at hor ⊢
  exact hor.symm

/-- The value of the bits `u` of a first byte with followers. -/
def follow (u : Nat) (fs : List UInt8) : Nat := fs.foldl (fun u i => u * 64 + i.toNat % 64) u

theorem utf8Loop_followers {fs : List UInt8} (hfs : ∀ i ∈ fs, 0x80 ≤ i.toNat) (rest : List UInt8)
    {u : UInt32} (k : Nat) (hu : (u.toNat + 1) * 64 ^ fs.length ≤ 2 ^ 32) :
    ∃ v, utf8Loop fs.length u (fs ++ rest) k = (some v, k + fs.length) ∧
      v.toNat = follow u.toNat fs := by
  induction fs generalizing u k with
  | nil => exact ⟨u, rfl, rfl⟩
  | cons i fs ih =>
      have hi : ¬i < 0x80 := by
        have := hfs i List.mem_cons_self
        simp only [UInt8.lt_iff_toNat_lt, UInt8.reduceToNat]
        omega
      have hpow : 64 ^ (i :: fs).length = 64 * 64 ^ fs.length := Nat.pow_succ'
      rw [hpow, ← Nat.mul_assoc] at hu
      have hone : (u.toNat + 1) * 64 ≤ 2 ^ 32 :=
        Nat.le_trans (Nat.le_mul_of_pos_right _ (Nat.pow_pos (by decide))) hu
      have hstep := shift_toNat i (u := u) (by omega)
      have hnext : (u.toNat * 64 + i.toNat % 64 + 1) * 64 ^ fs.length ≤ 2 ^ 32 :=
        Nat.le_trans (Nat.mul_le_mul_right _ (by omega)) hu
      obtain ⟨v, hv, hval⟩ := ih (fun j hj => hfs j (List.mem_cons_of_mem _ hj)) (k + 1)
        (u := u <<< 6 ||| (i.toUInt32 &&& 0x3f)) (by rw [hstep]; exact hnext)
      refine ⟨v, ?_, ?_⟩
      · rw [List.length_cons, List.cons_append, utf8Loop, if_neg hi, hv]
        simp only [Prod.mk.injEq, true_and]
        omega
      · rw [hval, hstep]
        rfl

theorem utf8Loop_some {len : Nat} {u v : UInt32} {p : List UInt8} {k k' : Nat}
    (h : utf8Loop len u p k = (some v, k')) :
    ∃ fs rest, p = fs ++ rest ∧ fs.length = len ∧ ∀ i ∈ fs, 0x80 ≤ i.toNat := by
  fun_induction utf8Loop len u p k with
  | case1 => exact ⟨[], _, rfl, rfl, by simp⟩
  | case2 => cases h
  | case3 => cases h
  | case4 len u i p k hi ih =>
      obtain ⟨fs, rest, rfl, hlen, hfs⟩ := ih h
      refine ⟨i :: fs, rest, rfl, by rw [List.length_cons, hlen], ?_⟩
      rw [List.forall_mem_cons]
      refine ⟨?_, hfs⟩
      simp only [UInt8.lt_iff_toNat_lt, UInt8.reduceToNat] at hi
      omega

theorem utf8Tail_followers {fs : List UInt8} (hfs : ∀ i ∈ fs, 0x80 ≤ i.toNat) (rest : List UInt8)
    (u valid : UInt32) (hu : (u.toNat + 1) * 64 ^ fs.length ≤ 2 ^ 32) :
    utf8Tail u valid fs.length (fs ++ rest) =
      (if valid.toNat < follow u.toNat fs then UInt32.ofNat (follow u.toNat fs) else 0xffffffff,
        fs.length + 1) := by
  obtain ⟨v, hv, hval⟩ := utf8Loop_followers hfs rest 1 hu
  have hlen : ¬(fs ++ rest).length < fs.length := by simp
  rw [utf8Tail, if_neg hlen, hv, ← hval, UInt32.ofNat_toNat, Nat.add_comm]
  simp only [GT.gt, UInt32.lt_iff_toNat_lt]
  split <;> rfl

theorem utf8Tail_some {u valid : UInt32} {len : Nat} {p : List UInt8}
    (hu : (u.toNat + 1) * 64 ^ len ≤ 2 ^ 32) (h : (utf8Tail u valid len p).1.toNat ≤ 0x10ffff) :
    ∃ fs rest, p = fs ++ rest ∧ fs.length = len ∧ (∀ i ∈ fs, 0x80 ≤ i.toNat) ∧
      valid.toNat < follow u.toNat fs ∧ follow u.toNat fs ≤ 0x10ffff := by
  have hsplit : ∃ fs rest, p = fs ++ rest ∧ fs.length = len ∧ ∀ i ∈ fs, 0x80 ≤ i.toNat := by
    unfold utf8Tail at h
    split at h
    · exact absurd h (by decide)
    · split at h
      · next v k hv => exact utf8Loop_some hv
      · exact absurd h (by simp)
  obtain ⟨fs, rest, rfl, rfl, hfs⟩ := hsplit
  refine ⟨fs, rest, rfl, rfl, hfs, ?_⟩
  obtain ⟨v, -, hval⟩ := utf8Loop_followers hfs rest 1 hu
  rw [utf8Tail_followers hfs rest u valid hu, ← hval] at h
  split at h
  · next hvalid =>
      rw [UInt32.ofNat_toNat] at h
      exact ⟨hval ▸ hvalid, hval ▸ h⟩
  · exact absurd h (by simp)

theorem lead_toNat (c : UInt8) :
    (c.toUInt32 &&& 0x07).toNat = c.toNat % 8 ∧ (c.toUInt32 &&& 0x0f).toNat = c.toNat % 16 ∧
      (c.toUInt32 &&& 0x1f).toNat = c.toNat % 32 := by
  simp only [UInt32.toNat_and, UInt8.toNat_toUInt32, UInt32.reduceToNat]
  exact ⟨Nat.and_two_pow_sub_one_eq_mod _ 3, Nat.and_two_pow_sub_one_eq_mod _ 4,
    Nat.and_two_pow_sub_one_eq_mod _ 5⟩

theorem utf8Decode_four {c : UInt8} (h : 0xf0 ≤ c.toNat) (p : List UInt8) :
    utf8Decode c p = utf8Tail (c.toUInt32 &&& 0x07) 0xffff 3 p := by
  simp only [utf8Decode, ge_iff_le, UInt32.le_iff_toNat_le, UInt8.toNat_toUInt32,
    UInt32.reduceToNat]
  rw [if_pos h]

theorem utf8Decode_three {c : UInt8} (h : 0xe0 ≤ c.toNat) (h' : c.toNat < 0xf0) (p : List UInt8) :
    utf8Decode c p = utf8Tail (c.toUInt32 &&& 0x0f) 0x7ff 2 p := by
  simp only [utf8Decode, ge_iff_le, UInt32.le_iff_toNat_le, UInt8.toNat_toUInt32,
    UInt32.reduceToNat]
  rw [if_neg (by omega), if_pos h]

theorem utf8Decode_two {c : UInt8} (h : 0xc2 ≤ c.toNat) (h' : c.toNat < 0xe0) (p : List UInt8) :
    utf8Decode c p = utf8Tail (c.toUInt32 &&& 0x1f) 0x7f 1 p := by
  simp only [utf8Decode, ge_iff_le, UInt32.le_iff_toNat_le, UInt8.toNat_toUInt32,
    UInt32.reduceToNat]
  rw [if_neg (by omega), if_neg (by omega), if_pos h]

theorem utf8Decode_other {c : UInt8} (h : c.toNat < 0xc2) (p : List UInt8) :
    utf8Decode c p = (0xffffffff, 1) := by
  simp only [utf8Decode, ge_iff_le, UInt32.le_iff_toNat_le, UInt8.toNat_toUInt32,
    UInt32.reduceToNat]
  rw [if_neg (by omega), if_neg (by omega), if_neg (by omega)]

theorem utf8Decode_taken {c : UInt8} {fs : List UInt8} (h : Taken (c :: fs)) (rest : List UInt8) :
    utf8Decode c (fs ++ rest) = (UInt32.ofNat (value (c :: fs)), fs.length + 1) := by
  obtain ⟨h8, h16, h32⟩ := lead_toNat c
  rcases h.cases with ⟨a, b₁, heq⟩ | ⟨a, b₁, b₂, heq⟩ | ⟨a, b₁, b₂, b₃, heq⟩
  · cases heq
    simp only [Taken] at h
    have hfs : ∀ i ∈ [b₁], 0x80 ≤ i.toNat := by simpa using h.2.2
    have htail := utf8Tail_followers hfs rest (c.toUInt32 &&& 0x1f) 0x7f
      (by rw [h32]; simp; omega)
    rw [utf8Decode_two h.1 h.2.1]
    refine htail.trans ?_
    rw [h32, if_pos (by simp [follow]; omega)]
    rfl
  · cases heq
    simp only [Taken] at h
    obtain ⟨ha, ha', hb₁, hb₂, hmin⟩ := h
    have hfs : ∀ i ∈ [b₁, b₂], 0x80 ≤ i.toNat := by simpa using ⟨hb₁, hb₂⟩
    have htail := utf8Tail_followers hfs rest (c.toUInt32 &&& 0x0f) 0x7ff
      (by rw [h16]; simp; omega)
    rw [utf8Decode_three ha ha']
    refine htail.trans ?_
    rw [h16, if_pos (by simp [follow]; omega)]
    rfl
  · cases heq
    simp only [Taken] at h
    obtain ⟨ha, hb₁, hb₂, hb₃, hmin, -, -⟩ := h
    have hfs : ∀ i ∈ [b₁, b₂, b₃], 0x80 ≤ i.toNat := by simpa using ⟨hb₁, hb₂, hb₃⟩
    have htail := utf8Tail_followers hfs rest (c.toUInt32 &&& 0x07) 0xffff
      (by rw [h8]; simp; omega)
    rw [utf8Decode_four ha]
    refine htail.trans ?_
    rw [h8, if_pos (by simp [follow]; omega)]
    rfl

theorem utf8Decode_some {c : UInt8} {p : List UInt8}
    (h : (utf8Decode c p).1.toNat ≤ 0x10ffff) :
    ∃ fs rest, p = fs ++ rest ∧ Taken (c :: fs) := by
  obtain ⟨h8, h16, h32⟩ := lead_toNat c
  have hc := c.toNat_lt
  rcases Nat.lt_or_ge c.toNat 0xc2 with h2 | h2
  · rw [utf8Decode_other h2] at h
    exact absurd h (by decide)
  rcases Nat.lt_or_ge c.toNat 0xe0 with h3 | h3
  · rw [utf8Decode_two h2 h3] at h
    obtain ⟨fs, rest, rfl, hlen, hfs, hmin, hmax⟩ := utf8Tail_some (by rw [h32]; omega) h
    obtain ⟨b₁, rfl⟩ := List.length_eq_one_iff.mp hlen
    exact ⟨_, rest, rfl, h2, h3, by simpa using hfs⟩
  rcases Nat.lt_or_ge c.toNat 0xf0 with h4 | h4
  · rw [utf8Decode_three h3 h4] at h
    obtain ⟨fs, rest, rfl, hlen, hfs, hmin, hmax⟩ := utf8Tail_some (by rw [h16]; omega) h
    obtain ⟨b₁, b₂, rfl⟩ := List.length_eq_two.mp hlen
    simp only [h16, follow, List.foldl_cons, List.foldl_nil, UInt32.reduceToNat] at hmin hmax
    simp only [List.forall_mem_cons] at hfs
    refine ⟨_, rest, rfl, h3, h4, hfs.1, hfs.2.1, ?_⟩
    omega
  · rw [utf8Decode_four h4] at h
    obtain ⟨fs, rest, rfl, hlen, hfs, hmin, hmax⟩ := utf8Tail_some (by rw [h8]; omega) h
    obtain ⟨b₁, b₂, b₃, rfl⟩ := List.length_eq_three.mp hlen
    simp only [h8, follow, List.foldl_cons, List.foldl_nil, UInt32.reduceToNat] at hmin hmax
    simp only [List.forall_mem_cons] at hfs
    refine ⟨_, rest, rfl, h4, hfs.1, hfs.2.1, hfs.2.2.1, ?_⟩
    omega

/-! ## Well-formed sequences -/

theorem taken_encode (ch : Char) (h : 0x80 ≤ ch.val.toNat) :
    Taken (utf8EncodeChar ch) ∧ ¬Irregular (utf8EncodeChar ch) ∧
      value (utf8EncodeChar ch) = ch.val.toNat := by
  have hvalid : ch.val.toNat < 0xd800 ∨ 0xdfff < ch.val.toNat ∧ ch.val.toNat < 0x110000 := ch.valid
  unfold utf8EncodeChar
  generalize ch.val.toNat = v at h hvalid
  rw [if_neg (by omega)]
  rcases Nat.lt_or_ge 0x7ff v with h3 | h2
  · rw [if_neg (by omega)]
    rcases Nat.lt_or_ge 0xffff v with h4 | h3'
    · rw [if_neg (by omega)]
      simp only [Taken, Irregular, value, UInt8.toNat_ofNat', List.mem_cons, List.not_mem_nil,
        or_false, exists_eq_or_imp, exists_eq_left, List.head?_cons, Option.some.injEq,
        exists_eq_left']
      omega
    · rw [if_pos h3']
      simp only [Taken, Irregular, value, UInt8.toNat_ofNat', List.mem_cons, List.not_mem_nil,
        or_false, exists_eq_or_imp, exists_eq_left, List.head?_cons, Option.some.injEq,
        exists_eq_left']
      omega
  · rw [if_pos h2]
    simp only [Taken, Irregular, value, UInt8.toNat_ofNat', List.mem_cons, List.not_mem_nil,
      or_false, exists_eq_left, List.head?_cons, Option.some.injEq, exists_eq_left']
    omega

theorem exists_char {v : Nat} (h : v < 0xd800 ∨ 0xdfff < v ∧ v < 0x110000) :
    ∃ ch : Char, ch.val.toNat = v := ⟨Char.ofNatAux v h, rfl⟩

theorem encode_of_taken {bs : List UInt8} (h : Taken bs) (hr : ¬Irregular bs) :
    ∃ ch : Char, ch.val.toNat = value bs ∧ utf8EncodeChar ch = bs := by
  rcases h.cases with ⟨a, b₁, rfl⟩ | ⟨a, b₁, b₂, rfl⟩ | ⟨a, b₁, b₂, b₃, rfl⟩
  · simp only [Taken, Irregular, value, List.mem_cons, List.not_mem_nil, or_false, exists_eq_left,
      List.head?_cons, Option.some.injEq, exists_eq_left'] at h hr ⊢
    obtain ⟨ch, hv⟩ := exists_char (v := a.toNat % 32 * 64 + b₁.toNat % 64) (by omega)
    refine ⟨ch, hv, ?_⟩
    unfold utf8EncodeChar
    rw [hv, if_neg (by omega), if_pos (by omega)]
    simp only [List.cons.injEq, and_true, ← UInt8.toNat_inj, UInt8.toNat_ofNat']
    omega
  · simp only [Taken, Irregular, value, List.mem_cons, List.not_mem_nil, or_false,
      exists_eq_or_imp, exists_eq_left, List.head?_cons, Option.some.injEq,
      exists_eq_left'] at h hr ⊢
    obtain ⟨ch, hv⟩ := exists_char
      (v := (a.toNat % 16 * 64 + b₁.toNat % 64) * 64 + b₂.toNat % 64) (by omega)
    refine ⟨ch, hv, ?_⟩
    unfold utf8EncodeChar
    rw [hv, if_neg (by omega), if_neg (by omega), if_pos (by omega)]
    simp only [List.cons.injEq, and_true, ← UInt8.toNat_inj, UInt8.toNat_ofNat']
    omega
  · simp only [Taken, Irregular, value, List.mem_cons, List.not_mem_nil, or_false,
      exists_eq_or_imp, exists_eq_left, List.head?_cons, Option.some.injEq,
      exists_eq_left'] at h hr ⊢
    obtain ⟨ch, hv⟩ := exists_char
      (v := ((a.toNat % 8 * 64 + b₁.toNat % 64) * 64 + b₂.toNat % 64) * 64 + b₃.toNat % 64)
      (by omega)
    refine ⟨ch, hv, ?_⟩
    unfold utf8EncodeChar
    rw [hv, if_neg (by omega), if_neg (by omega), if_neg (by omega)]
    simp only [List.cons.injEq, and_true, ← UInt8.toNat_inj, UInt8.toNat_ofNat']
    omega

/-! ## Single characters -/

/-- A value from 80 to 10FFFF is returned if and only if the text starts with the encoding of that
character, and then the pointer stands behind the encoding. -/
def DecodesWellFormed (c : UInt8) (p : List UInt8) : Prop :=
  ∀ v : UInt32, 0x80 ≤ v → v ≤ 0x10ffff →
    ((utf8Decode c p).1 = v ↔ ∃ ch : Char, ch.val = v ∧ utf8EncodeChar ch <+: c :: p) ∧
    ∀ ch : Char, ch.val = v → utf8EncodeChar ch <+: c :: p →
      (utf8Decode c p).2 = (utf8EncodeChar ch).length

/-- The text starts with a sequence that is taken and not regular. -/
def Slips (s : List UInt8) : Prop := ∃ bs, bs <+: s ∧ Taken bs ∧ Irregular bs

theorem utf8Decode_of_taken {c : UInt8} {p bs : List UInt8} (h : Taken bs) (hp : bs <+: c :: p) :
    utf8Decode c p = (UInt32.ofNat (value bs), bs.length) := by
  obtain ⟨rest, hrest⟩ := hp
  cases bs with
  | nil => exact absurd h (by simp [Taken])
  | cons a fs =>
      cases hrest
      exact utf8Decode_taken h rest

theorem taken_unique {c : UInt8} {p bs bs' : List UInt8} (h : Taken bs) (hp : bs <+: c :: p)
    (h' : Taken bs') (hp' : bs' <+: c :: p) : bs = bs' := by
  have hlen : bs.length = bs'.length :=
    congrArg Prod.snd ((utf8Decode_of_taken h hp).symm.trans (utf8Decode_of_taken h' hp'))
  rw [List.prefix_iff_eq_take.mp hp, List.prefix_iff_eq_take.mp hp', hlen]

theorem value_toNat {bs : List UInt8} (h : Taken bs) :
    (UInt32.ofNat (value bs)).toNat = value bs :=
  UInt32.toNat_ofNat_of_lt (Nat.lt_of_le_of_lt h.value_range.2 (by decide))

theorem decodes_iff (c : UInt8) (p : List UInt8) : DecodesWellFormed c p ↔ ¬Slips (c :: p) := by
  constructor
  · rintro h ⟨bs, hp, htaken, hirr⟩
    obtain ⟨hmin, hmax⟩ := htaken.value_range
    have hv := value_toNat htaken
    obtain ⟨hiff, -⟩ := h (UInt32.ofNat (value bs))
      (UInt32.le_iff_toNat_le.mpr (by rw [hv]; exact hmin))
      (UInt32.le_iff_toNat_le.mpr (by rw [hv]; exact hmax))
    obtain ⟨ch, hch, hp'⟩ := hiff.mp (by rw [utf8Decode_of_taken htaken hp])
    obtain ⟨htaken', hregular, -⟩ := taken_encode ch (by rw [hch, hv]; exact hmin)
    rw [taken_unique htaken hp htaken' hp'] at hirr
    exact hregular hirr
  · intro hslip v hmin hmax
    have hmin := UInt32.le_iff_toNat_le.mp hmin
    have hmax := UInt32.le_iff_toNat_le.mp hmax
    have hencoded (ch : Char) (hch : ch.val = v) (hp : utf8EncodeChar ch <+: c :: p) :
        utf8Decode c p = (v, (utf8EncodeChar ch).length) := by
      obtain ⟨htaken, -, hvalue⟩ := taken_encode ch (by rw [hch]; exact hmin)
      rw [utf8Decode_of_taken htaken hp, hvalue, hch, UInt32.ofNat_toNat]
    refine ⟨⟨fun hv => ?_, ?_⟩, fun ch hch hp => by rw [hencoded ch hch hp]⟩
    · obtain ⟨fs, rest, rfl, htaken⟩ := utf8Decode_some (by rw [hv]; exact hmax)
      have hp : c :: fs <+: c :: (fs ++ rest) := ⟨rest, rfl⟩
      obtain ⟨ch, hch, heq⟩ := encode_of_taken htaken fun hirr => hslip ⟨_, hp, htaken, hirr⟩
      rw [utf8Decode_of_taken htaken hp] at hv
      refine ⟨ch, UInt32.toNat_inj.mp ?_, heq ▸ hp⟩
      rw [hch, ← hv, value_toNat htaken]
    · rintro ⟨ch, hch, hp⟩
      rw [hencoded ch hch hp]

/-! ## Texts -/

/-- A text of `k` ASCII bytes and sequences that the decoder takes. -/
inductive Pieces : List UInt8 → Nat → Prop
  | nil : Pieces [] 0
  | ascii {c p k} : c.toNat < 0x80 → Pieces p k → Pieces (c :: p) (k + 1)
  | seq {bs p k} : Taken bs → Pieces p k → Pieces (bs ++ p) (k + 1)

def WellFormed (x : List UInt8) : Prop := ∃ cs : List Char, x = cs.flatMap utf8EncodeChar

theorem encode_ascii {ch : Char} (h : ch.val.toNat < 0x80) :
    utf8EncodeChar ch = [UInt8.ofNat ch.val.toNat] := by
  unfold utf8EncodeChar
  exact if_pos (by omega)

theorem Taken.two_le {bs : List UInt8} (h : Taken bs) : 2 ≤ bs.length := by
  rcases h.cases with ⟨a, b, rfl⟩ | ⟨a, b, c, rfl⟩ | ⟨a, b, c, d, rfl⟩ <;> simp

theorem Taken.head {c : UInt8} {fs : List UInt8} (h : Taken (c :: fs)) : 0xc2 ≤ c.toNat := by
  rcases h.cases with ⟨a, b, heq⟩ | ⟨a, b, d, heq⟩ | ⟨a, b, d, e, heq⟩
  · cases heq
    exact h.1
  · cases heq
    exact Nat.le_trans (by decide) h.1
  · cases heq
    exact Nat.le_trans (by decide) h.1

theorem pieces_encode (cs : List Char) : Pieces (cs.flatMap utf8EncodeChar) cs.length := by
  induction cs with
  | nil => exact .nil
  | cons ch cs ih =>
      rw [List.flatMap_cons, List.length_cons]
      rcases Nat.lt_or_ge ch.val.toNat 0x80 with h | h
      · rw [encode_ascii h]
        exact .ascii (by rw [UInt8.toNat_ofNat']; omega) ih
      · exact .seq (taken_encode _ h).1 ih

theorem wellFormed_cons {c : UInt8} {p : List UInt8} (hc : c.toNat < 0x80) :
    WellFormed (c :: p) ↔ WellFormed p := by
  constructor
  · rintro ⟨cs, hcs⟩
    cases cs with
    | nil => cases hcs
    | cons ch cs =>
        rw [List.flatMap_cons] at hcs
        rcases Nat.lt_or_ge ch.val.toNat 0x80 with h | h
        · rw [encode_ascii h] at hcs
          exact ⟨cs, (List.cons.inj hcs).2⟩
        · -- the encoding of another character does not begin with an ASCII byte
          have htaken := (taken_encode ch h).1
          cases henc : utf8EncodeChar ch with
          | nil => exact absurd (henc ▸ htaken) (by simp [Taken])
          | cons c' fs =>
              rw [henc] at htaken hcs
              have hhead := htaken.head
              rw [← (List.cons.inj hcs).1] at hhead
              omega
  · rintro ⟨cs, rfl⟩
    obtain ⟨ch, hch⟩ := exists_char (v := c.toNat) (by omega)
    refine ⟨ch :: cs, ?_⟩
    rw [List.flatMap_cons, encode_ascii (by omega), hch, UInt8.ofNat_toNat]
    rfl

theorem wellFormed_append {bs p : List UInt8} (hbs : Taken bs) :
    WellFormed (bs ++ p) ↔ ¬Irregular bs ∧ WellFormed p := by
  constructor
  · rintro ⟨cs, hcs⟩
    cases bs with
    | nil => exact absurd hbs (by simp [Taken])
    | cons c fs =>
        cases cs with
        | nil => cases hcs
        | cons ch cs =>
            rw [List.flatMap_cons] at hcs
            rcases Nat.lt_or_ge ch.val.toNat 0x80 with h | h
            · have hhead := hbs.head
              rw [encode_ascii h] at hcs
              rw [(List.cons.inj hcs).1, UInt8.toNat_ofNat'] at hhead
              omega
            · obtain ⟨htaken, hregular, -⟩ := taken_encode ch h
              have heq : c :: fs = utf8EncodeChar ch :=
                taken_unique hbs ⟨p, rfl⟩ htaken ⟨_, hcs.symm⟩
              rw [heq] at hcs ⊢
              exact ⟨hregular, cs, List.append_cancel_left hcs⟩
  · rintro ⟨hregular, cs, rfl⟩
    obtain ⟨ch, -, hch⟩ := encode_of_taken hbs hregular
    exact ⟨ch :: cs, by rw [List.flatMap_cons, hch]⟩

theorem Pieces.le_length {x : List UInt8} {k : Nat} (h : Pieces x k) :
    k ≤ x.length ∧ (k = x.length → WellFormed x) := by
  induction h with
  | nil => exact ⟨Nat.le_refl _, fun _ => ⟨[], rfl⟩⟩
  | ascii hc _ ih =>
      refine ⟨Nat.succ_le_succ ih.1, fun hk => ?_⟩
      exact (wellFormed_cons hc).mpr (ih.2 (Nat.succ_inj.mp hk))
  | seq hbs _ ih =>
      have h2 := hbs.two_le
      rw [List.length_append]
      exact ⟨by omega, fun hk => by omega⟩

theorem loop_pieces {p : List UInt8} {k : Nat} (h : Pieces p k) (n : Nat) {fuel : Nat} (len : Nat)
    (hf : p.length < fuel) : utf8LengthLoop n fuel p len = some (len + k) := by
  induction h generalizing fuel len with
  | nil =>
      obtain ⟨fuel, rfl⟩ := Nat.exists_eq_succ_of_ne_zero (Nat.ne_of_gt hf)
      rfl
  | @ascii c p k hc _ ih =>
      obtain ⟨fuel, rfl⟩ := Nat.exists_eq_succ_of_ne_zero (Nat.ne_of_gt (Nat.zero_lt_of_lt hf))
      have hlt : c < 0x80 := UInt8.lt_iff_toNat_lt.mpr hc
      rw [utf8LengthLoop, if_pos hlt, ih (len + 1) (Nat.lt_of_succ_lt_succ hf)]
      exact congrArg some (by omega)
  | @seq bs p k hbs _ ih =>
      obtain ⟨fuel, rfl⟩ := Nat.exists_eq_succ_of_ne_zero (Nat.ne_of_gt (Nat.zero_lt_of_lt hf))
      cases bs with
      | nil => exact absurd hbs (by simp [Taken])
      | cons c fs =>
          have hc := hbs.head
          have hge : ¬c < 0x80 := by
            simp only [UInt8.lt_iff_toNat_lt, UInt8.reduceToNat]
            omega
          have hok : ¬(UInt32.ofNat (value (c :: fs))) > 0x10ffff := by
            simp only [GT.gt, UInt32.lt_iff_toNat_lt, value_toNat hbs, UInt32.reduceToNat]
            have := hbs.value_range.2
            omega
          rw [List.cons_append, utf8LengthLoop, if_neg hge, utf8Decode_taken hbs, if_neg hok,
            List.drop_succ_cons, List.drop_left, ih (len + 1) (by simp at hf; omega)]
          exact congrArg some (by omega)

theorem loop_not_pieces {p : List UInt8} (h : ∀ k, ¬Pieces p k) (n : Nat) {fuel : Nat} (len : Nat)
    (hf : p.length < fuel) : utf8LengthLoop n fuel p len = some n := by
  induction fuel generalizing p len with
  | zero => exact absurd hf (Nat.not_lt_zero _)
  | succ fuel ih =>
      cases p with
      | nil => exact absurd .nil (h 0)
      | cons c p =>
          rw [utf8LengthLoop]
          by_cases hc : c < 0x80
          · rw [if_pos hc]
            exact ih (fun k hk => h (k + 1) (.ascii (UInt8.lt_iff_toNat_lt.mp hc) hk)) (len + 1)
              (Nat.lt_of_succ_lt_succ hf)
          · rw [if_neg hc]
            by_cases hbad : (utf8Decode c p).1 > 0x10ffff
            · rw [if_pos hbad]
            · have hrange : (utf8Decode c p).1.toNat ≤ 0x10ffff :=
                UInt32.le_iff_toNat_le.mp (UInt32.not_lt.mp hbad)
              obtain ⟨fs, rest, rfl, htaken⟩ := utf8Decode_some hrange
              rw [if_neg hbad, utf8Decode_taken htaken, List.drop_succ_cons, List.drop_left]
              exact ih (fun k hk => h (k + 1) (.seq htaken hk)) (len + 1) (by simp at hf; omega)

/-- The number of characters of a well-formed text, and the number of bytes of any other. -/
def CountsWellFormed (x : List UInt8) : Prop :=
  (∀ cs : List Char, x = cs.flatMap utf8EncodeChar → utf8Length x = some cs.length) ∧
    (¬WellFormed x → utf8Length x = some x.length)

/-- A text of ASCII bytes and sequences that are taken, one of which at least is not regular. -/
inductive Slipped : List UInt8 → Prop
  | here {bs p k} : Taken bs → Irregular bs → Pieces p k → Slipped (bs ++ p)
  | ascii {c p} : c.toNat < 0x80 → Slipped p → Slipped (c :: p)
  | seq {bs p} : Taken bs → Slipped p → Slipped (bs ++ p)

theorem Slipped.pieces {x : List UInt8} (h : Slipped x) : ∃ k, Pieces x k := by
  induction h with
  | here hbs _ hp => exact ⟨_, .seq hbs hp⟩
  | ascii hc _ ih => exact ih.imp' _ fun _ => .ascii hc
  | seq hbs _ ih => exact ih.imp' _ fun _ => .seq hbs

theorem Slipped.not_wellFormed {x : List UInt8} (h : Slipped x) : ¬WellFormed x := by
  induction h with
  | here hbs hirr _ => exact fun hx => ((wellFormed_append hbs).mp hx).1 hirr
  | ascii hc _ ih => exact fun hx => ih ((wellFormed_cons hc).mp hx)
  | seq hbs _ ih => exact fun hx => ih ((wellFormed_append hbs).mp hx).2

theorem Pieces.wellFormed_or {x : List UInt8} {k : Nat} (h : Pieces x k) :
    WellFormed x ∨ Slipped x := by
  induction h with
  | nil => exact Or.inl ⟨[], rfl⟩
  | ascii hc _ ih => exact ih.imp (wellFormed_cons hc).mpr (.ascii hc)
  | @seq bs p k hbs hp ih =>
      by_cases hirr : Irregular bs
      · exact Or.inr (.here hbs hirr hp)
      · exact ih.imp (fun h => (wellFormed_append hbs).mpr ⟨hirr, h⟩) (.seq hbs)

theorem counts_iff (x : List UInt8) : CountsWellFormed x ↔ ¬Slipped x := by
  have hpieces {k : Nat} (h : Pieces x k) : utf8Length x = some k := by
    rw [utf8Length, loop_pieces h x.length 0 (Nat.lt_succ_self _), Nat.zero_add]
  constructor
  · rintro ⟨-, hill⟩ hslipped
    obtain ⟨k, hk⟩ := hslipped.pieces
    have hx := hslipped.not_wellFormed
    have heq : k = x.length := Option.some.inj ((hpieces hk).symm.trans (hill hx))
    exact hx (hk.le_length.2 heq)
  · intro h
    refine ⟨fun cs hx => hpieces (hx ▸ pieces_encode cs), fun hx => ?_⟩
    refine loop_not_pieces (fun k hk => ?_) x.length 0 (Nat.lt_succ_self _)
    exact hk.wellFormed_or.elim hx h

/-- The decoder is right exactly where it does not slip, and the length exactly where the text does
not consist of ASCII bytes and sequences that are taken and not all regular. -/
theorem utf8_wellFormed_iff (c : UInt8) (p x : List UInt8) :
    (DecodesWellFormed c p ↔ ¬Slips (c :: p)) ∧ (CountsWellFormed x ↔ ¬Slipped x) :=
  ⟨decodes_iff c p, counts_iff x⟩

/-- The first byte F8 is read as F0. -/
theorem utf8_lead_f8 :
    utf8Decode 0xf8 [0x90, 0x80, 0x80] = (0x10000, 4) ∧
    ¬DecodesWellFormed 0xf8 [0x90, 0x80, 0x80] ∧
    utf8Length [0xf8, 0x90, 0x80, 0x80] = some 1 ∧ ¬CountsWellFormed [0xf8, 0x90, 0x80, 0x80] := by
  have htaken : Taken [0xf8, 0x90, 0x80, 0x80] := by simp [Taken]
  have hirr : Irregular [0xf8, 0x90, 0x80, 0x80] := Or.inl (by decide)
  refine ⟨by decide, ?_, by decide, ?_⟩
  · rw [decodes_iff, not_not]
    exact ⟨_, List.prefix_rfl, htaken, hirr⟩
  · rw [counts_iff, not_not]
    exact .here htaken hirr .nil

end Umicat.Text
