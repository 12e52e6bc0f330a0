import Umicat.Base.Buffer

/-!
# Base64

`uct_encode_base64`, `uct_decode_base64` and their URL variants (`uct_string.c`). A text is the list of
its bytes; what a function writes to `dst` is a list too.
-/

namespace Umicat.Text

open Umicat.Base

/-- `uct_base64_encoded_length(len)`. -/
def base64EncodedLength (len : Nat) : Nat := (len + 2) / 3 * 4

/-- `uct_base64_decoded_length(len)`. -/
def base64DecodedLength (len : Nat) : Nat := (len + 3) / 4 * 3

/-- An array of bytes that is indexed by a byte. -/
def byteAt (basis : List UInt8) (i : UInt8) : UInt8 := basis.getD i.toNat 0

/-! ## Encoding -/

/-- `uct_encode_base64_internal(dst, src, basis, padding)`. -/
def encodeBase64Internal (basis : List UInt8) (padding : Bool) : List UInt8 → List UInt8
  | s₀ :: s₁ :: s₂ :: s =>
      byteAt basis (s₀ >>> 2 &&& 0x3f) ::
      byteAt basis ((s₀ &&& 3) <<< 4 ||| s₁ >>> 4) ::
      byteAt basis ((s₁ &&& 0x0f) <<< 2 ||| s₂ >>> 6) ::
      byteAt basis (s₂ &&& 0x3f) ::
      encodeBase64Internal basis padding s
  | [s₀, s₁] =>
      [byteAt basis (s₀ >>> 2 &&& 0x3f),
        byteAt basis ((s₀ &&& 3) <<< 4 ||| s₁ >>> 4),
        byteAt basis ((s₁ &&& 0x0f) <<< 2)] ++
      if padding then [61] else []
  | [s₀] =>
      [byteAt basis (s₀ >>> 2 &&& 0x3f),
        byteAt basis ((s₀ &&& 3) <<< 4)] ++
      (if padding then [61] else []) ++ if padding then [61] else []
  | [] => []

/-- `basis64` of `uct_encode_base64`. -/
def basis64 : List UInt8 :=
  ascii "ABCDEFGHIJKLMNOPQRSTUVWXYZabcdefghijklmnopqrstuvwxyz0123456789+/"

/-- `basis64` of `uct_encode_base64url`. -/
def basis64url : List UInt8 :=
  ascii "ABCDEFGHIJKLMNOPQRSTUVWXYZabcdefghijklmnopqrstuvwxyz0123456789-_"

def encodeBase64 (src : List UInt8) : List UInt8 := encodeBase64Internal basis64 true src

def encodeBase64url (src : List UInt8) : List UInt8 := encodeBase64Internal basis64url false src

/-! ## Decoding -/

inductive Status
  | ok
  | error
deriving Repr, DecidableEq

/-- The first loop of `uct_decode_base64_internal`: the characters in front of `=`, or nothing when
one of them is not in the alphabet. -/
def scanBase64 (basis : List UInt8) : List UInt8 → Option (List UInt8)
  | [] => some []
  | c :: src =>
      if c = 61 then some []
      else if byteAt basis c = 77 then none
      else (scanBase64 basis src).map (c :: ·)

/-- The `while` loop and the two tests behind it. -/
def decodeGroups (basis : List UInt8) : List UInt8 → List UInt8
  | s₀ :: s₁ :: s₂ :: s₃ :: s =>
      (byteAt basis s₀ <<< 2 ||| byteAt basis s₁ >>> 4) ::
      (byteAt basis s₁ <<< 4 ||| byteAt basis s₂ >>> 2) ::
      (byteAt basis s₂ <<< 6 ||| byteAt basis s₃) ::
      decodeGroups basis s
  | [s₀, s₁, s₂] =>
      [byteAt basis s₀ <<< 2 ||| byteAt basis s₁ >>> 4,
        byteAt basis s₁ <<< 4 ||| byteAt basis s₂ >>> 2]
  | [s₀, s₁] => [byteAt basis s₀ <<< 2 ||| byteAt basis s₁ >>> 4]
  | _ => []

/-- `uct_decode_base64_internal`: what it returns and what it wrote to `dst`. -/
def decodeBase64Internal (basis : List UInt8) (src : List UInt8) : Status × List UInt8 :=
  match scanBase64 basis src with
  | none => (.error, [])
  | some s => if s.length % 4 = 1 then (.error, []) else (.ok, decodeGroups basis s)

/-- `basis64` of `uct_decode_base64`. -/
def values64 : List UInt8 := [
    77, 77, 77, 77, 77, 77, 77, 77, 77, 77, 77, 77, 77, 77, 77, 77,
    77, 77, 77, 77, 77, 77, 77, 77, 77, 77, 77, 77, 77, 77, 77, 77,
    77, 77, 77, 77, 77, 77, 77, 77, 77, 77, 77, 62, 77, 77, 77, 63,
    52, 53, 54, 55, 56, 57, 58, 59, 60, 61, 77, 77, 77, 77, 77, 77,
    77, 0, 1, 2, 3, 4, 5, 6, 7, 8, 9, 10, 11, 12, 13, 14,
    15, 16, 17, 18, 19, 20, 21, 22, 23, 24, 25, 77, 77, 77, 77, 77,
    77, 26, 27, 28, 29, 30, 31, 32, 33, 34, 35, 36, 37, 38, 39, 40,
    41, 42, 43, 44, 45, 46, 47, 48, 49, 50, 51, 77, 77, 77, 77, 77] ++
  List.replicate 128 77

/-- `basis64` of `uct_decode_base64url`. -/
def values64url : List UInt8 := [
    77, 77, 77, 77, 77, 77, 77, 77, 77, 77, 77, 77, 77, 77, 77, 77,
    77, 77, 77, 77, 77, 77, 77, 77, 77, 77, 77, 77, 77, 77, 77, 77,
    77, 77, 77, 77, 77, 77, 77, 77, 77, 77, 77, 77, 77, 62, 77, 77,
    52, 53, 54, 55, 56, 57, 58, 59, 60, 61, 77, 77, 77, 77, 77, 77,
    77, 0, 1, 2, 3, 4, 5, 6, 7, 8, 9, 10, 11, 12, 13, 14,
    15, 16, 17, 18, 19, 20, 21, 22, 23, 24, 25, 77, 77, 77, 77, 63,
    77, 26, 27, 28, 29, 30, 31, 32, 33, 34, 35, 36, 37, 38, 39, 40,
    41, 42, 43, 44, 45, 46, 47, 48, 49, 50, 51, 77, 77, 77, 77, 77] ++
  List.replicate 128 77

def decodeBase64 (src : List UInt8) : Status × List UInt8 := decodeBase64Internal values64 src

def decodeBase64url (src : List UInt8) : Status × List UInt8 :=
  decodeBase64Internal values64url src

end Umicat.Text
