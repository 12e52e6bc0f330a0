import Umicat.Base.Buffer
import Umicat.Base.Word

/-!
# Numbers in texts

`uct_itoa` and `uct_atoi` (`uct_string.c`). A missing result is a loop that does not end, or an
operation of signed numbers that overflows.
-/

namespace Umicat.Text

open Umicat.Base

/-- `index[]`. -/
def index : List UInt8 := ascii "0123456789ABCDEFGHIJKLMNOPQRSTUVWXYZ"

def digit (d : Nat) : UInt8 := index.getD d 0

/-- The `do` loop of `uct_itoa`: the buffer and the number of characters in it. It runs for as many
rounds as `fuel` allows. -/
def putDigits (radix : Nat) : Nat → (Nat → UInt8) → Nat → Nat → Option ((Nat → UInt8) × Nat)
  | 0, _, _, _ => none
  | fuel + 1, str, i, unum =>
      let str := store str i [digit (unum % radix)]
      if unum / radix = 0 then some (str, i + 1)
      else putDigits radix fuel str (i + 1) (unum / radix)

/-- `unum`: the negation of an `int` wraps around. -/
def unum (num : Int32) (radix : Nat) : Nat :=
  if radix = 10 ∧ num < 0 then (-num).toUInt32.toNat else num.toUInt32.toNat

/-- `uct_itoa`. Every round of the first loop divides an unsigned number of 32 bits by two or more,
so 32 rounds leave nothing of it. -/
def itoa (num : Int32) (str : Nat → UInt8) (radix : Nat) : Option (Nat → UInt8) := do
  let (str, i) := if radix = 10 ∧ num < 0 then (store str 0 [45], 1) else (str, 0)
  let (str, i) ← putDigits radix 32 str i (unum num radix)
  let str := store str i [0]
  let k := if str 0 = 45 then 1 else 0
  some ((List.range' k ((i - 1) / 2 + 1 - k)).foldl
    (fun str j => swap str j (i - 1 + k - j)) str)

/-- A result of type `uct_int_t`, which is missing when it overflows. -/
def int64 (n : Int) : Option Int := if -2 ^ 63 ≤ n ∧ n < 2 ^ 63 then some n else none

/-- `UCT_MAX_SIZE_T_VALUE`. -/
def maxSizeTValue : Int := 9223372036854775807

def uctError : Int := -1

def atoiLoop : List UInt8 → Int → Option Int
  | [], value => some value
  | c :: line, value =>
      if c < 48 ∨ 57 < c then some uctError
      else if value ≥ maxSizeTValue / 10 ∧
          (value > maxSizeTValue / 10 ∨ (c.toNat : Int) - 48 > maxSizeTValue % 10) then
        some uctError
      else do
        let value ← int64 (value * 10)
        let value ← int64 (value + (c.toNat - 48))
        atoiLoop line value

/-- `uct_atoi`. -/
def atoi (line : List UInt8) : Option Int :=
  if line = [] then some uctError else atoiLoop line 0

end Umicat.Text
