import Umicat.Base.Buffer
import Umicat.Base.Word

/-!
# MD5

`md5_init`, `md5_append` and `md5_finish` (`uct_md5.c`), and the hash of a string for the ring
(`md5_digest` and `md5_hash` of `uct_upstream.c`). A block is read as 16 words with the low byte
first, which is what both branches of `md5_process` on the byte order do.
-/

namespace Umicat.Digest

open Umicat.Base

/-- The digest buffer `abcd`, and the registers of `md5_process`. -/
structure Regs where
  a : UInt32
  b : UInt32
  c : UInt32
  d : UInt32
deriving Repr, DecidableEq

/-! ## One block -/

def tMask : UInt32 := 0xffffffff

/-- `T1` to `T64`. -/
def tTable : List UInt32 :=
  [tMask ^^^ 0x28955b87, tMask ^^^ 0x173848a9, 0x242070db, tMask ^^^ 0x3e423111,
   tMask ^^^ 0x0a83f050, 0x4787c62a, tMask ^^^ 0x57cfb9ec, tMask ^^^ 0x02b96afe, 0x698098d8,
   tMask ^^^ 0x74bb0850, tMask ^^^ 0x0000a44e, tMask ^^^ 0x76a32841, 0x6b901122,
   tMask ^^^ 0x02678e6c, tMask ^^^ 0x5986bc71, 0x49b40821, tMask ^^^ 0x09e1da9d,
   tMask ^^^ 0x3fbf4cbf, 0x265e5a51, tMask ^^^ 0x16493855, tMask ^^^ 0x29d0efa2, 0x02441453,
   tMask ^^^ 0x275e197e, tMask ^^^ 0x182c0437, 0x21e1cde6, tMask ^^^ 0x3cc8f829,
   tMask ^^^ 0x0b2af278, 0x455a14ed, tMask ^^^ 0x561c16fa, tMask ^^^ 0x03105c07, 0x676f02d9,
   tMask ^^^ 0x72d5b375, tMask ^^^ 0x0005c6bd, tMask ^^^ 0x788e097e, 0x6d9d6122,
   tMask ^^^ 0x021ac7f3, tMask ^^^ 0x5b4115bb, 0x4bdecfa9, tMask ^^^ 0x0944b49f,
   tMask ^^^ 0x4140438f, 0x289b7ec6, tMask ^^^ 0x155ed805, tMask ^^^ 0x2b10cf7a, 0x04881d05,
   tMask ^^^ 0x262b2fc6, tMask ^^^ 0x1924661a, 0x1fa27cf8, tMask ^^^ 0x3b53a99a,
   tMask ^^^ 0x0bd6ddbb, 0x432aff97, tMask ^^^ 0x546bdc58, tMask ^^^ 0x036c5fc6, 0x655b59c3,
   tMask ^^^ 0x70f3336d, tMask ^^^ 0x00100b82, tMask ^^^ 0x7a7ba22e, 0x6fa87e4f,
   tMask ^^^ 0x01d3191f, tMask ^^^ 0x5cfebceb, 0x4e0811a1, tMask ^^^ 0x08ac817d,
   tMask ^^^ 0x42c50dca, 0x2ad7d2bb, tMask ^^^ 0x14792c6e]

/-- `T` with the number `i`. -/
def ti (i : Nat) : UInt32 := tTable.getD (i - 1) 0

/-- `ROTATE_LEFT`. -/
def rotateLeft (x n : UInt32) : UInt32 := (x <<< n) ||| (x >>> (32 - n))

def auxF (x y z : UInt32) : UInt32 := (x &&& y) ||| (~~~x &&& z)

def auxG (x y z : UInt32) : UInt32 := (x &&& z) ||| (y &&& ~~~z)

def auxH (x y z : UInt32) : UInt32 := x ^^^ y ^^^ z

def auxI (x y z : UInt32) : UInt32 := y ^^^ (x ||| ~~~z)

/-- `SET`: the new value of its first argument. -/
def set (fn : UInt32 → UInt32 → UInt32 → UInt32) (a b c d x s t : UInt32) : UInt32 :=
  rotateLeft (a + fn b c d + x + t) s + b

/-- `SET(a, b, c, d, k, s, Ti)`, and the same with the registers moved on. -/
def Regs.setA (fn : UInt32 → UInt32 → UInt32 → UInt32) (x s t : UInt32) (r : Regs) : Regs :=
  { r with a := set fn r.a r.b r.c r.d x s t }

def Regs.setD (fn : UInt32 → UInt32 → UInt32 → UInt32) (x s t : UInt32) (r : Regs) : Regs :=
  { r with d := set fn r.d r.a r.b r.c x s t }

def Regs.setC (fn : UInt32 → UInt32 → UInt32 → UInt32) (x s t : UInt32) (r : Regs) : Regs :=
  { r with c := set fn r.c r.d r.a r.b x s t }

def Regs.setB (fn : UInt32 → UInt32 → UInt32 → UInt32) (x s t : UInt32) (r : Regs) : Regs :=
  { r with b := set fn r.b r.c r.d r.a x s t }

def round1 (x : Nat → UInt32) (r : Regs) : Regs :=
  let r := r.setA auxF (x 0) 7 (ti 1)
  let r := r.setD auxF (x 1) 12 (ti 2)
  let r := r.setC auxF (x 2) 17 (ti 3)
  let r := r.setB auxF (x 3) 22 (ti 4)
  let r := r.setA auxF (x 4) 7 (ti 5)
  let r := r.setD auxF (x 5) 12 (ti 6)
  let r := r.setC auxF (x 6) 17 (ti 7)
  let r := r.setB auxF (x 7) 22 (ti 8)
  let r := r.setA auxF (x 8) 7 (ti 9)
  let r := r.setD auxF (x 9) 12 (ti 10)
  let r := r.setC auxF (x 10) 17 (ti 11)
  let r := r.setB auxF (x 11) 22 (ti 12)
  let r := r.setA auxF (x 12) 7 (ti 13)
  let r := r.setD auxF (x 13) 12 (ti 14)
  let r := r.setC auxF (x 14) 17 (ti 15)
  let r := r.setB auxF (x 15) 22 (ti 16)
  r

def round2 (x : Nat → UInt32) (r : Regs) : Regs :=
  let r := r.setA auxG (x 1) 5 (ti 17)
  let r := r.setD auxG (x 6) 9 (ti 18)
  let r := r.setC auxG (x 11) 14 (ti 19)
  let r := r.setB auxG (x 0) 20 (ti 20)
  let r := r.setA auxG (x 5) 5 (ti 21)
  let r := r.setD auxG (x 10) 9 (ti 22)
  let r := r.setC auxG (x 15) 14 (ti 23)
  let r := r.setB auxG (x 4) 20 (ti 24)
  let r := r.setA auxG (x 9) 5 (ti 25)
  let r := r.setD auxG (x 14) 9 (ti 26)
  let r := r.setC auxG (x 3) 14 (ti 27)
  let r := r.setB auxG (x 8) 20 (ti 28)
  let r := r.setA auxG (x 13) 5 (ti 29)
  let r := r.setD auxG (x 2) 9 (ti 30)
  let r := r.setC auxG (x 7) 14 (ti 31)
  let r := r.setB auxG (x 12) 20 (ti 32)
  r

def round3 (x : Nat → UInt32) (r : Regs) : Regs :=
  let r := r.setA auxH (x 5) 4 (ti 33)
  let r := r.setD auxH (x 8) 11 (ti 34)
  let r := r.setC auxH (x 11) 16 (ti 35)
  let r := r.setB auxH (x 14) 23 (ti 36)
  let r := r.setA auxH (x 1) 4 (ti 37)
  let r := r.setD auxH (x 4) 11 (ti 38)
  let r := r.setC auxH (x 7) 16 (ti 39)
  let r := r.setB auxH (x 10) 23 (ti 40)
  let r := r.setA auxH (x 13) 4 (ti 41)
  let r := r.setD auxH (x 0) 11 (ti 42)
  let r := r.setC auxH (x 3) 16 (ti 43)
  let r := r.setB auxH (x 6) 23 (ti 44)
  let r := r.setA auxH (x 9) 4 (ti 45)
  let r := r.setD auxH (x 12) 11 (ti 46)
  let r := r.setC auxH (x 15) 16 (ti 47)
  let r := r.setB auxH (x 2) 23 (ti 48)
  r

def round4 (x : Nat → UInt32) (r : Regs) : Regs :=
  let r := r.setA auxI (x 0) 6 (ti 49)
  let r := r.setD auxI (x 7) 10 (ti 50)
  let r := r.setC auxI (x 14) 15 (ti 51)
  let r := r.setB auxI (x 5) 21 (ti 52)
  let r := r.setA auxI (x 12) 6 (ti 53)
  let r := r.setD auxI (x 3) 10 (ti 54)
  let r := r.setC auxI (x 10) 15 (ti 55)
  let r := r.setB auxI (x 1) 21 (ti 56)
  let r := r.setA auxI (x 8) 6 (ti 57)
  let r := r.setD auxI (x 15) 10 (ti 58)
  let r := r.setC auxI (x 6) 15 (ti 59)
  let r := r.setB auxI (x 13) 21 (ti 60)
  let r := r.setA auxI (x 4) 6 (ti 61)
  let r := r.setD auxI (x 11) 10 (ti 62)
  let r := r.setC auxI (x 2) 15 (ti 63)
  let r := r.setB auxI (x 9) 21 (ti 64)
  r

/-- The word at `4 * k` of a block. -/
def word (block : List UInt8) (k : Nat) : UInt32 :=
  let xp (j : Nat) : UInt32 := (block.getD (4 * k + j) 0).toUInt32
  xp 0 + (xp 1 <<< 8) + (xp 2 <<< 16) + (xp 3 <<< 24)

def md5Process (abcd : Regs) (block : List UInt8) : Regs :=
  let r := round4 (word block) (round3 (word block) (round2 (word block) (round1 (word block) abcd)))
  ⟨abcd.a + r.a, abcd.b + r.b, abcd.c + r.c, abcd.d + r.d⟩

/-! ## The state -/

/-- `md5_state_t`. `count` is the length in bits, the low word first. -/
structure State where
  count0 : UInt32
  count1 : UInt32
  abcd : Regs
  buf : Nat → UInt8

/-- `md5_init`. The block buffer keeps what it holds. -/
def md5Init (buf : Nat → UInt8) : State where
  count0 := 0
  count1 := 0
  abcd := ⟨0x67452301, tMask ^^^ 0x10325476, tMask ^^^ 0x67452301, 0x10325476⟩
  buf := buf

/-- The loop over full blocks, and the final partial block. -/
def processBlocks (st : State) : Nat → List UInt8 → State
  | fuel + 1, p =>
      if 64 ≤ p.length then
        processBlocks { st with abcd := md5Process st.abcd (p.take 64) } fuel (p.drop 64)
      else { st with buf := store st.buf 0 p }
  | 0, p => { st with buf := store st.buf 0 p }

/-- The update of the message length. -/
def addCount (st : State) (nbytes : Nat) : State :=
  let nbits := UInt32.ofNat (nbytes <<< 3)
  let count1 := st.count1 + UInt32.ofNat (nbytes >>> 29)
  let count0 := st.count0 + nbits
  { st with count0 := count0, count1 := if count0 < nbits then count1 + 1 else count1 }

/-- `md5_append`. -/
def md5Append (st : State) (data : List UInt8) : State :=
  let offset := ((st.count0 >>> 3) &&& 63).toNat
  if data.length = 0 then st
  else
    let st := addCount st data.length
    if offset ≠ 0 then
      let copy := if offset + data.length > 64 then 64 - offset else data.length
      let st := { st with buf := store st.buf offset (data.take copy) }
      if offset + copy < 64 then st
      else
        let st := { st with abcd := md5Process st.abcd (load st.buf 0 64) }
        processBlocks st (data.length - copy) (data.drop copy)
    else processBlocks st data.length data

/-- Byte `j` of two or more words, the low byte of each word first. -/
def byteOf (w : Nat → UInt32) (j : Nat) : UInt8 :=
  (w (j >>> 2) >>> UInt32.ofNat ((j &&& 3) <<< 3)).toUInt8

def pad : List UInt8 := 0x80 :: List.replicate 63 0

def Regs.word (r : Regs) : Nat → UInt32
  | 0 => r.a
  | 1 => r.b
  | 2 => r.c
  | _ => r.d

/-- `md5_finish`. -/
def md5Finish (st : State) : List UInt8 :=
  let count (j : Nat) : UInt32 := if j = 0 then st.count0 else st.count1
  let data := (List.range 8).map (byteOf count)
  let n := (((55 : UInt32) - (st.count0 >>> 3)) &&& 63) + 1
  let st := md5Append st (pad.take n.toNat)
  let st := md5Append st data
  (List.range 16).map (byteOf st.abcd.word)

/-! ## The hash of a string -/

/-- `md5_digest`. The state is an uninitialised local variable. -/
def md5Digest (buf : Nat → UInt8) (inString : List UInt8) : List UInt8 :=
  md5Finish (md5Append (md5Init buf) inString)

/-- `md5_hash`: the first four bytes of the digest as an `int`, which is then widened to the unsigned
64 bits of `uct_uint_t`. -/
def md5Hash (buf : Nat → UInt8) (inString : List UInt8) : UInt64 :=
  let digest (j : Nat) : UInt32 := ((md5Digest buf inString).getD j 0).toUInt32
  (digest 3 <<< 24 ||| digest 2 <<< 16 ||| digest 1 <<< 8 ||| digest 0).toInt32.toInt64.toUInt64

end Umicat.Digest
