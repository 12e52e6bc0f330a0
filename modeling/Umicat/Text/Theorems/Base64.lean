import Umicat.Text.Base64

/-!
# Encoding and decoding

The decoder undoes the encoder, and accepts exactly the texts that an encoder can have written, up to
the bits that a last group leaves over.
-/

namespace Umicat.Text

open Umicat.Base

/-! ## Bits of a byte -/

theorem eq_of_bits {a b : UInt8}
    (h : ∀ i ∈ [0, 1, 2, 3, 4, 5, 6, 7], a.toBitVec.getLsbD i = b.toBitVec.getLsbD i) : a = b := by
  apply UInt8.toBitVec_inj.mp
  apply BitVec.eq_of_getLsbD_eq
  intro i hi
  apply h
  simp only [List.mem_cons, List.not_mem_nil, or_false]
  omega

/-- A number of six bits. -/
def Sextet (v : UInt8) : Prop := v &&& 0x3f = v

theorem Sextet.lt {v : UInt8} (h : Sextet v) : v.toNat < 64 := by
  have hle : v.toNat &&& 63 ≤ 63 := Nat.and_le_right
  have hv : v.toNat &&& 63 = v.toNat := by simpa using congrArg UInt8.toNat h
  omega

variable (a b c : UInt8)

theorem sextet_first : Sextet (a >>> 2 &&& 0x3f) := eq_of_bits (by simp)

theorem sextet_second : Sextet ((a &&& 3) <<< 4 ||| b >>> 4) := eq_of_bits (by simp)

theorem sextet_third : Sextet ((b &&& 0x0f) <<< 2 ||| c >>> 6) := eq_of_bits (by simp)

theorem sextet_fourth : Sextet (c &&& 0x3f) := eq_of_bits (by simp)

theorem sextet_second_last : Sextet ((a &&& 3) <<< 4) := eq_of_bits (by simp)

theorem sextet_third_last : Sextet ((b &&& 0x0f) <<< 2) := eq_of_bits (by simp)

theorem first_byte : (a >>> 2 &&& 0x3f) <<< 2 ||| ((a &&& 3) <<< 4 ||| b >>> 4) >>> 4 = a :=
  eq_of_bits (by simp)

theorem second_byte :
    ((a &&& 3) <<< 4 ||| b >>> 4) <<< 4 ||| ((b &&& 0x0f) <<< 2 ||| c >>> 6) >>> 2 = b :=
  eq_of_bits (by simp)

theorem third_byte : ((b &&& 0x0f) <<< 2 ||| c >>> 6) <<< 6 ||| (c &&& 0x3f) = c :=
  eq_of_bits (by simp)

theorem first_byte_last : (a >>> 2 &&& 0x3f) <<< 2 ||| ((a &&& 3) <<< 4) >>> 4 = a :=
  eq_of_bits (by simp)

theorem second_byte_last :
    ((a &&& 3) <<< 4 ||| b >>> 4) <<< 4 ||| ((b &&& 0x0f) <<< 2) >>> 2 = b :=
  eq_of_bits (by simp)

/-! ## Alphabets -/

/-- The table of values inverts the alphabet and marks every other character. -/
structure Inverse (basis values : List UInt8) : Prop where
  value : ∀ v, Sextet v → byteAt values (byteAt basis v) = v
  ne_pad : ∀ v, Sextet v → byteAt basis v ≠ 61
  marked : ∀ c, byteAt values c = 77 ↔ c ∉ basis

theorem Inverse.ofTables {basis values : List UInt8} (hlen : basis.length = 64)
    (hsize : values.length = 256)
    (hvalue : ∀ n < 64, byteAt values (basis.getD n 0) = UInt8.ofNat n ∧ basis.getD n 0 ≠ 61)
    (hother : ∀ p ∈ values.zipIdx,
      p.1 = 77 ∨ p.1 < 64 ∧ basis.getD p.1.toNat 0 = UInt8.ofNat p.2) :
    Inverse basis values where
  value v hv := by
    have h := (hvalue v.toNat hv.lt).1
    rwa [UInt8.ofNat_toNat] at h
  ne_pad v hv := (hvalue v.toNat hv.lt).2
  marked c := by
    constructor
    · intro hc hmem
      obtain ⟨n, hn, rfl⟩ := List.mem_iff_getElem.mp hmem
      have h := (hvalue n (by omega)).1
      rw [List.getD_eq_getElem?_getD, List.getElem?_eq_getElem hn, Option.getD_some, hc] at h
      have h77 : 77 = n % 256 := by simpa using congrArg UInt8.toNat h
      omega
    · intro hc
      have hn : c.toNat < values.length := hsize ▸ c.toNat_lt
      have hbyte : byteAt values c = values[c.toNat] := by
        rw [byteAt, List.getD_eq_getElem?_getD, List.getElem?_eq_getElem hn]
        rfl
      rcases hother (values[c.toNat], c.toNat) (List.mk_mem_zipIdx_iff_getElem?.mpr
        (List.getElem?_eq_getElem hn)) with h | ⟨hlt, h⟩
      · exact hbyte.trans h
      · have hlt := UInt8.lt_iff_toNat_lt.mp hlt
        rw [UInt8.ofNat_toNat, List.getD_eq_getElem?_getD,
          List.getElem?_eq_getElem (by rw [hlen]; exact hlt), Option.getD_some] at h
        exact absurd (h ▸ List.getElem_mem _) hc

theorem basis64_eq : basis64 =
    (List.range' 65 26 ++ List.range' 97 26 ++ List.range' 48 10 ++ [43, 47]).map UInt8.ofNat := by
  decide +kernel

theorem basis64url_eq : basis64url =
    (List.range' 65 26 ++ List.range' 97 26 ++ List.range' 48 10 ++ [45, 95]).map UInt8.ofNat := by
  decide +kernel

theorem inverse_basis64 : Inverse basis64 values64 := by
  rw [basis64_eq]
  exact .ofTables (by decide) (by decide +kernel) (by decide +kernel) (by decide +kernel)

theorem inverse_basis64url : Inverse basis64url values64url := by
  rw [basis64url_eq]
  exact .ofTables (by decide) (by decide +kernel) (by decide +kernel) (by decide +kernel)

/-! ## Scanning -/

variable {basis values : List UInt8}

/-- The part of a text in front of its first `=`. -/
def unpadded (s : List UInt8) : List UInt8 := s.takeWhile (· ≠ 61)

/-- No byte of `s` has the mark of a byte outside the alphabet. -/
def Valid (values s : List UInt8) : Prop := ∀ c ∈ s, byteAt values c ≠ 77

instance (values s : List UInt8) : Decidable (Valid values s) := List.decidableBAll _ s

@[simp] theorem valid_nil (values : List UInt8) : Valid values [] := nofun

@[simp] theorem valid_cons {values : List UInt8} {c : UInt8} {s : List UInt8} :
    Valid values (c :: s) ↔ byteAt values c ≠ 77 ∧ Valid values s := List.forall_mem_cons

theorem scanBase64_eq (s : List UInt8) :
    scanBase64 values s =
      if Valid values (unpadded s) then some (unpadded s) else none := by
  induction s with
  | nil => simp [scanBase64, unpadded]
  | cons c s ih =>
      rw [scanBase64]
      by_cases hpad : c = 61
      · simp [unpadded, hpad]
      · have hcons : unpadded (c :: s) = c :: unpadded s := List.takeWhile_cons_of_pos (by simpa using hpad)
        rw [if_neg hpad, hcons]
        by_cases hc : byteAt values c = 77
        · rw [if_pos hc, if_neg (fun h => h c List.mem_cons_self hc)]
        · rw [if_neg hc, ih]
          by_cases hs : Valid values (unpadded s)
          · rw [if_pos hs, if_pos (by simpa using ⟨hc, hs⟩)]
            rfl
          · rw [if_neg hs, if_neg (fun h => hs fun c hc => h c (List.mem_cons_of_mem _ hc))]
            rfl

theorem decodeBase64Internal_eq (s : List UInt8) :
    decodeBase64Internal values s =
      if Valid values (unpadded s) ∧ (unpadded s).length % 4 ≠ 1 then
        (.ok, decodeGroups values (unpadded s)) else (.error, []) := by
  rw [decodeBase64Internal, scanBase64_eq]
  by_cases hc : Valid values (unpadded s)
  · rw [if_pos hc]
    by_cases hlen : (unpadded s).length % 4 = 1
    · simp [hlen]
    · rw [if_pos ⟨hc, hlen⟩]
      simp [hlen]
  · rw [if_neg hc, if_neg (fun h => hc h.1)]

/-! ## Round trip -/

theorem unpadded_encode (h : Inverse basis values) (padding : Bool) (x : List UInt8) :
    unpadded (encodeBase64Internal basis padding x) = encodeBase64Internal basis false x := by
  fun_induction encodeBase64Internal basis padding x with
  | case1 a b c x ih =>
      simpa [encodeBase64Internal, unpadded, h.ne_pad _ (sextet_first a),
        h.ne_pad _ (sextet_second a b), h.ne_pad _ (sextet_third b c),
        h.ne_pad _ (sextet_fourth c)] using ih
  | case2 a b =>
      cases padding <;>
        simp [encodeBase64Internal, unpadded, h.ne_pad _ (sextet_first a),
          h.ne_pad _ (sextet_second a b), h.ne_pad _ (sextet_third_last b)]
  | case3 a =>
      cases padding <;>
        simp [encodeBase64Internal, unpadded, h.ne_pad _ (sextet_first a),
          h.ne_pad _ (sextet_second_last a)]
  | case4 => rfl

theorem valid_encode (h : Inverse basis values) (x : List UInt8) :
    Valid values (encodeBase64Internal basis false x) := by
  have hvalid (v : UInt8) (hv : Sextet v) : byteAt values (byteAt basis v) ≠ 77 := by
    rw [h.value v hv]
    intro h77
    have hlt := hv.lt
    rw [h77] at hlt
    exact absurd hlt (by decide)
  fun_induction encodeBase64Internal basis false x with
  | case1 a b c x ih =>
      simp only [valid_cons]
      exact ⟨hvalid _ (sextet_first a), hvalid _ (sextet_second a b), hvalid _ (sextet_third b c),
        hvalid _ (sextet_fourth c), ih⟩
  | case2 a b =>
      simpa using ⟨hvalid _ (sextet_first a), hvalid _ (sextet_second a b),
        hvalid _ (sextet_third_last b)⟩
  | case3 a => simpa using ⟨hvalid _ (sextet_first a), hvalid _ (sextet_second_last a)⟩
  | case4 => simp

theorem length_encode_mod (x : List UInt8) : (encodeBase64Internal basis false x).length % 4 ≠ 1 := by
  fun_induction encodeBase64Internal basis false x with
  | case1 a b c x ih =>
      simp only [List.length_cons]
      omega
  | case2 a b => simp
  | case3 a => simp
  | case4 => simp

theorem decode_encode (h : Inverse basis values) (x : List UInt8) :
    decodeGroups values (encodeBase64Internal basis false x) = x := by
  fun_induction encodeBase64Internal basis false x with
  | case1 a b c x ih =>
      simp only [decodeGroups, ih, h.value _ (sextet_first a), h.value _ (sextet_second a b),
        h.value _ (sextet_third b c), h.value _ (sextet_fourth c), first_byte, second_byte,
        third_byte]
  | case2 a b =>
      simp [decodeGroups, h.value _ (sextet_first a), h.value _ (sextet_second a b),
        h.value _ (sextet_third_last b), first_byte, second_byte_last]
  | case3 a =>
      simp [decodeGroups, h.value _ (sextet_first a), h.value _ (sextet_second_last a),
        first_byte_last]
  | case4 => rfl

theorem decodeBase64Internal_encode (h : Inverse basis values) (padding : Bool) (x : List UInt8) :
    decodeBase64Internal values (encodeBase64Internal basis padding x) = (.ok, x) := by
  rw [decodeBase64Internal_eq, unpadded_encode h, if_pos ⟨valid_encode h x, length_encode_mod x⟩,
    decode_encode h]

/-! ## Lengths -/

theorem length_encode_le (padding : Bool) (x : List UInt8) :
    (encodeBase64Internal basis padding x).length ≤ base64EncodedLength x.length := by
  unfold base64EncodedLength
  fun_induction encodeBase64Internal basis padding x with
  | case1 a b c x ih =>
      simp only [List.length_cons]
      omega
  | case2 a b => cases padding <;> simp
  | case3 a => cases padding <;> simp
  | case4 => simp

theorem length_decodeGroups_le (s : List UInt8) :
    (decodeGroups values s).length ≤ base64DecodedLength s.length := by
  unfold base64DecodedLength
  fun_induction decodeGroups values s with
  | case1 a b c d s ih =>
      simp only [List.length_cons]
      omega
  | case2 a b c => simp
  | case3 a b => simp
  | case4 s => simp

theorem length_decode_le (s : List UInt8) :
    (decodeBase64Internal values s).2.length ≤ base64DecodedLength s.length := by
  have hprefix : (unpadded s).length ≤ s.length := (List.takeWhile_prefix _).length_le
  have hgroups : (decodeGroups values (unpadded s)).length ≤ _ := length_decodeGroups_le (unpadded s)
  rw [decodeBase64Internal_eq]
  unfold base64DecodedLength at *
  split
  · dsimp only
    omega
  · exact Nat.zero_le _

/-! ## Both variants -/

/-- The contract of an encoder and a decoder over an alphabet. -/
structure Codec (encode : List UInt8 → List UInt8) (decode : List UInt8 → Status × List UInt8)
    (alphabet : List UInt8) : Prop where
  round_trip : ∀ x, decode (encode x) = (.ok, x)
  encoded_length : ∀ x, (encode x).length ≤ base64EncodedLength x.length
  decoded_length : ∀ s, (decode s).2.length ≤ base64DecodedLength s.length
  accepts_iff : ∀ s, (decode s).1 = .ok ↔
    (∀ c ∈ unpadded s, c ∈ alphabet) ∧ (unpadded s).length % 4 ≠ 1
  rejects : ∀ s, (decode s).1 ≠ .ok → decode s = (.error, [])

theorem Inverse.codec (h : Inverse basis values) (padding : Bool) :
    Codec (encodeBase64Internal basis padding) (decodeBase64Internal values) basis where
  round_trip := decodeBase64Internal_encode h padding
  encoded_length := length_encode_le padding
  decoded_length := length_decode_le
  accepts_iff s := by
    have hvalid (c : UInt8) : byteAt values c ≠ 77 ↔ c ∈ basis := by simp [h.marked]
    simp only [decodeBase64Internal_eq, Valid, hvalid]
    split
    · next hok => exact ⟨fun _ => hok, fun _ => rfl⟩
    · next hbad => exact ⟨fun h => (by cases h), fun h => absurd h hbad⟩
  rejects s hs := by
    rw [decodeBase64Internal_eq] at hs ⊢
    split
    · next hok => exact absurd (by rw [if_pos hok]) hs
    · rfl

/-- Both variants meet the contract. -/
theorem base64_codec :
    Codec encodeBase64 decodeBase64 basis64 ∧ Codec encodeBase64url decodeBase64url basis64url :=
  ⟨inverse_basis64.codec true, inverse_basis64url.codec false⟩

example : encodeBase64url [0xfb, 0xff] = ascii "-_8" := by decide +kernel

end Umicat.Text
