import Umicat.Digest.Theorems.Md5
import Umicat.Upstream.Lemmas.HashRing

/-!
# Where the hashes of strings lie

`md5_hash` widens an `int` to 64 bits, so that the points of the ring stand at the two ends of the
range only.
-/

namespace Umicat.Digest

open Umicat.Base
open Umicat.Upstream

theorem or_bytes {b₃ b₂ b₁ b₀ : Nat} (h₂ : b₂ < 256) (h₁ : b₁ < 256) (h₀ : b₀ < 256) :
    b₃ <<< 24 ||| b₂ <<< 16 ||| b₁ <<< 8 ||| b₀ = ((b₃ * 256 + b₂) * 256 + b₁) * 256 + b₀ := by
  have hsecond : b₂ <<< 16 < 2 ^ 24 := by rw [Nat.shiftLeft_eq]; omega
  have hthird : b₁ <<< 8 < 2 ^ 16 := by rw [Nat.shiftLeft_eq]; omega
  have htwo : b₃ <<< 24 + b₂ <<< 16 = (b₃ * 256 + b₂) <<< 16 := by
    simp only [Nat.shiftLeft_eq]
    omega
  have hthree : (b₃ * 256 + b₂) <<< 16 + b₁ <<< 8 = ((b₃ * 256 + b₂) * 256 + b₁) <<< 8 := by
    simp only [Nat.shiftLeft_eq]
    omega
  rw [← Nat.shiftLeft_add_eq_or_of_lt hsecond, htwo, ← Nat.shiftLeft_add_eq_or_of_lt hthird, hthree,
    ← Nat.shiftLeft_add_eq_or_of_lt (i := 8) h₀, Nat.shiftLeft_eq]

theorem toNat_byte_shiftLeft (b : UInt8) {s : UInt32} (hs : s.toNat ≤ 24) :
    (b.toUInt32 <<< s).toNat = b.toNat <<< s.toNat := by
  have hb : b.toNat <<< s.toNat < 2 ^ 32 := by
    rw [Nat.shiftLeft_eq]
    calc b.toNat * 2 ^ s.toNat ≤ 255 * 2 ^ 24 :=
          Nat.mul_le_mul (Nat.le_of_lt_succ b.toNat_lt) (Nat.pow_le_pow_right (by decide) hs)
      _ < 2 ^ 32 := by decide
  rw [UInt32.toNat_shiftLeft, UInt8.toNat_toUInt32, Nat.mod_eq_of_lt (by omega : s.toNat < 32),
    Nat.mod_eq_of_lt hb]

/-- `md5_hash` puts four bytes together as `md5_process` reads a word. -/
theorem or_eq_word (l : List UInt8) :
    (l.getD 3 0).toUInt32 <<< 24 ||| (l.getD 2 0).toUInt32 <<< 16 ||| (l.getD 1 0).toUInt32 <<< 8 |||
      (l.getD 0 0).toUInt32 = word l 0 := by
  have h₃ := (l.getD 3 0).toNat_lt
  have h₂ := (l.getD 2 0).toNat_lt
  have h₁ := (l.getD 1 0).toNat_lt
  have h₀ := (l.getD 0 0).toNat_lt
  simp only [word, Nat.mul_zero, Nat.zero_add]
  rw [← UInt32.toNat_inj, UInt32.toNat_or, UInt32.toNat_or, UInt32.toNat_or, UInt32.toNat_add,
    UInt32.toNat_add, UInt32.toNat_add, toNat_byte_shiftLeft _ (s := 24) (by decide),
    toNat_byte_shiftLeft _ (s := 16) (by decide), toNat_byte_shiftLeft _ (s := 8) (by decide),
    UInt8.toNat_toUInt32]
  simp only [UInt32.toNat_ofNat, Nat.reducePow, Nat.reduceMod]
  rw [or_bytes h₂ h₁ h₀]
  simp only [Nat.shiftLeft_eq]
  omega

/-- The sign of an `int` fills the upper half of a word of 64 bits. -/
theorem toNat_widened (w : UInt32) : w.toInt32.toInt64.toUInt64.toNat =
    if w.toNat < 2 ^ 31 then w.toNat else 2 ^ 64 - 2 ^ 32 + w.toNat := by
  have hw := w.toNat_lt
  have hextend : w.toInt32.toInt64.toUInt64.toNat = (w.toBitVec.signExtend 64).toNat := rfl
  rw [hextend, BitVec.toNat_signExtend, BitVec.msb_eq_decide, BitVec.toNat_setWidth,
    UInt32.toNat_toBitVec, Nat.mod_eq_of_lt (by omega)]
  simp only [decide_eq_true_eq]
  by_cases hlt : w.toNat < 2 ^ 31
  · rw [if_pos hlt, if_neg (by omega), Nat.add_zero]
  · rw [if_neg hlt, if_pos (by omega), Nat.add_comm]

/-- A hash at one of the two ends of the range of 64-bit words. -/
def AtEnds (hash : UInt64) : Prop := hash.toNat < 2 ^ 31 ∨ 2 ^ 64 - 2 ^ 31 ≤ hash.toNat

theorem md5Hash_atEnds (buf : Nat → UInt8) (inString : List UInt8) :
    AtEnds (md5Hash buf inString) := by
  unfold AtEnds md5Hash
  dsimp only
  rw [toNat_widened]
  split
  · next hlt => exact Or.inl hlt
  · next hge => exact Or.inr (by omega)

/-- `md5_hash` is the first word of the MD5 digest, widened with its sign, and every point of a ring
lies at one of the two ends of the range, whatever the memory `mem` of a call holds. -/
theorem md5Hash_spec (mem : List UInt8 → Nat → UInt8) :
    (∀ inString : List UInt8, inString.length < 2 ^ 28 →
      (md5Hash (mem inString) inString).toNat =
        if (word (Rfc1321.digest inString) 0).toNat < 2 ^ 31
        then (word (Rfc1321.digest inString) 0).toNat
        else 2 ^ 64 - 2 ^ 32 + (word (Rfc1321.digest inString) 0).toNat) ∧
    ∀ (srvs : List Srv) (ring : List Point),
      upstreamInitHashRing (fun key => md5Hash (mem key) key) srvs = some ring →
      ∀ p ∈ ring, AtEnds p.hash := by
  constructor
  · intro inString h
    have hdigest : md5Digest (mem inString) inString = Rfc1321.digest inString :=
      md5Finish_eq ((holds_init (mem inString)).append h)
    unfold md5Hash
    dsimp only
    rw [or_eq_word, hdigest, toNat_widened]
  · intro srvs ring h p hp
    obtain ⟨s, j, hhash⟩ := hash_of_mem_ring h hp
    rw [hhash]
    exact md5Hash_atEnds _ _

/-- The hash of an address, and the ring of one server of weight 1. -/
theorem md5Hash_spec_localhost :
    let srv : Srv :=
      { (default : Srv) with upstreamIp := ascii "127.0.0.1", upstreamPort := 80, weight := 1 }
    (md5Hash (fun _ => 7) (ascii "127.0.0.1")).toNat =
        (if (word (Rfc1321.digest (ascii "127.0.0.1")) 0).toNat < 2 ^ 31
          then (word (Rfc1321.digest (ascii "127.0.0.1")) 0).toNat
          else 2 ^ 64 - 2 ^ 32 + (word (Rfc1321.digest (ascii "127.0.0.1")) 0).toNat) ∧
      ∃ ring, upstreamInitHashRing (md5Hash fun _ => 7) [srv] = some ring ∧ ring.length = 160 ∧
        ∀ p ∈ ring, AtEnds p.hash := by
  intro srv
  obtain ⟨hword, hring⟩ := md5Hash_spec fun _ _ => 7
  have hpoints : ([srv].map npoints).sum = 160 := by decide
  have hinit : upstreamInitHashRing (md5Hash fun _ => 7) [srv] =
      some (bubbleSort Point.hash (pushPoints (md5Hash fun _ => 7) [srv])) := by
    rw [upstreamInitHashRing, if_pos (by rw [hpoints]; decide)]
  refine ⟨hword _ (by decide), _, hinit, ?_, hring _ _ hinit⟩
  rw [(bubbleSort_perm _).length_eq, length_pushPoints, hpoints]

end Umicat.Digest
