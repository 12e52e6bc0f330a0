import Umicat.Base.Blocks
import Umicat.Digest.Md5

/-!
# MD5 as RFC 1321 defines it

The message is padded as a whole, cut into blocks of 64 bytes, and folded with one function of the
digest and a block. This is what the streaming code is compared with.
-/

namespace Umicat.Digest.Rfc1321

open Umicat.Base

/-- The auxiliary function of round `r`. -/
def aux : Nat → UInt32 → UInt32 → UInt32 → UInt32
  | 0, x, y, z => (x &&& y) ||| (~~~x &&& z)
  | 1, x, y, z => (x &&& z) ||| (y &&& ~~~z)
  | 2, x, y, z => x ^^^ y ^^^ z
  | _, x, y, z => y ^^^ (x ||| ~~~z)

/-- Which word of the block operation `j` of round `r` takes. -/
def index : Nat → Nat → Nat
  | 0, j => j
  | 1, j => (5 * j + 1) % 16
  | 2, j => (3 * j + 5) % 16
  | _, j => 7 * j % 16

def shifts : Nat → List UInt32
  | 0 => [7, 12, 17, 22]
  | 1 => [5, 9, 14, 20]
  | 2 => [4, 11, 16, 23]
  | _ => [6, 10, 15, 21]

/-- The table of `4294967296 * abs(sin(j))`. -/
def table : List UInt32 :=
  [0xd76aa478, 0xe8c7b756, 0x242070db, 0xc1bdceee, 0xf57c0faf, 0x4787c62a, 0xa8304613, 0xfd469501,
   0x698098d8, 0x8b44f7af, 0xffff5bb1, 0x895cd7be, 0x6b901122, 0xfd987193, 0xa679438e, 0x49b40821,
   0xf61e2562, 0xc040b340, 0x265e5a51, 0xe9b6c7aa, 0xd62f105d, 0x02441453, 0xd8a1e681, 0xe7d3fbc8,
   0x21e1cde6, 0xc33707d6, 0xf4d50d87, 0x455a14ed, 0xa9e3e905, 0xfcefa3f8, 0x676f02d9, 0x8d2a4c8a,
   0xfffa3942, 0x8771f681, 0x6d9d6122, 0xfde5380c, 0xa4beea44, 0x4bdecfa9, 0xf6bb4b60, 0xbebfbc70,
   0x289b7ec6, 0xeaa127fa, 0xd4ef3085, 0x04881d05, 0xd9d4d039, 0xe6db99e5, 0x1fa27cf8, 0xc4ac5665,
   0xf4292244, 0x432aff97, 0xab9423a7, 0xfc93a039, 0x655b59c3, 0x8f0ccc92, 0xffeff47d, 0x85845dd1,
   0x6fa87e4f, 0xfe2ce6e0, 0xa3014314, 0x4e0811a1, 0xf7537e82, 0xbd3af235, 0x2ad7d2bb, 0xeb86d391]

/-- Operation `j` of round `r`, after which the registers have moved by one place. -/
def step (x : Nat → UInt32) (r : Nat) (v : Regs) (j : Nat) : Regs :=
  let sum := v.a + aux r v.b v.c v.d + x (index r j) + table.getD (16 * r + j) 0
  ⟨v.d, v.b + rotateLeft sum ((shifts r).getD (j % 4) 0), v.b, v.c⟩

def round (x : Nat → UInt32) (v : Regs) (r : Nat) : Regs := (List.range 16).foldl (step x r) v

def compress (abcd : Regs) (block : List UInt8) : Regs :=
  let r := (List.range 4).foldl (round (word block)) abcd
  ⟨abcd.a + r.a, abcd.b + r.b, abcd.c + r.c, abcd.d + r.d⟩

def start : Regs := ⟨0x67452301, 0xefcdab89, 0x98badcfe, 0x10325476⟩

/-- The low byte first. -/
def littleEndian (n : Nat) : Nat → List UInt8
  | 0 => []
  | k + 1 => UInt8.ofNat n :: littleEndian (n / 256) k

/-- A 1 bit, 0 bits up to 56 bytes modulo 64, and the length in bits modulo `2 ^ 64`. -/
def padding (length : Nat) : List UInt8 :=
  0x80 :: List.replicate ((119 - length % 64) % 64) 0 ++ littleEndian (8 * length) 8

def digest (message : List UInt8) : List UInt8 :=
  let r := (blocks 64 (message ++ padding message.length)).foldl compress start
  littleEndian r.a.toNat 4 ++ littleEndian r.b.toNat 4 ++ littleEndian r.c.toNat 4 ++
    littleEndian r.d.toNat 4

end Umicat.Digest.Rfc1321
