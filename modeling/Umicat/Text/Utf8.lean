import Umicat.Base.Buffer

/-!
# UTF-8

`uct_utf8_decode` and `uct_utf8_length` (`uct_string.c`). The text behind a pointer is the list of
its bytes; a result comes with the number of bytes that the pointer was advanced by.
-/

namespace Umicat.Text

/-- The `while` loop of `uct_utf8_decode` for `len` more bytes, `k` bytes behind the start. -/
def utf8Loop : Nat → UInt32 → List UInt8 → Nat → Option UInt32 × Nat
  | 0, u, _, k => (some u, k)
  | _ + 1, _, [], k => (none, k)
  | len + 1, u, i :: p, k =>
      if i < 0x80 then (none, k + 1)
      else utf8Loop len (u <<< 6 ||| (i.toUInt32 &&& 0x3f)) p (k + 1)

/-- The part of `uct_utf8_decode` behind the tests of the first byte. -/
def utf8Tail (u valid : UInt32) (len : Nat) (p : List UInt8) : UInt32 × Nat :=
  if p.length < len then (0xfffffffe, 0)
  else
    match utf8Loop len u p 1 with
    | (some u, k) => if u > valid then (u, k) else (0xffffffff, k)
    | (none, k) => (0xffffffff, k)

/-- `uct_utf8_decode` at the byte `c` with the bytes `p` behind it. -/
def utf8Decode (c : UInt8) (p : List UInt8) : UInt32 × Nat :=
  let u := c.toUInt32
  if u ≥ 0xf0 then utf8Tail (u &&& 0x07) 0xffff 3 p
  else if u ≥ 0xe0 then utf8Tail (u &&& 0x0f) 0x7ff 2 p
  else if u ≥ 0xc2 then utf8Tail (u &&& 0x1f) 0x7f 1 p
  else (0xffffffff, 1)

/-- The loop of `uct_utf8_length` for a text of `n` bytes. It runs for as many rounds as `fuel`
allows. -/
def utf8LengthLoop (n : Nat) : Nat → List UInt8 → Nat → Option Nat
  | 0, _, _ => none
  | _ + 1, [], len => some len
  | fuel + 1, c :: p, len =>
      if c < 0x80 then utf8LengthLoop n fuel p (len + 1)
      else if (utf8Decode c p).1 > 0x10ffff then some n
      else utf8LengthLoop n fuel ((c :: p).drop (utf8Decode c p).2) (len + 1)

/-- `uct_utf8_length`. Every round takes a byte or more. -/
def utf8Length (p : List UInt8) : Option Nat := utf8LengthLoop p.length (p.length + 1) p 0

end Umicat.Text
