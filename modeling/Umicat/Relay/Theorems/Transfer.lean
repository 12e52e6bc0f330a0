import Mathlib.Algebra.Order.Ring.Nat
import Umicat.Relay.Lemmas.Calls

/-!
# Each byte once and in order

What a call of `uct_readn` leaves in the buffer is what its calls of `read()` reported, and what
`uct_writen` passed to `write()` is the buffer up to where it stopped.
-/

namespace Umicat.Relay

open Umicat.Base

variable {β : Type}

/-- The return value has type `ssize_t`. -/
def ssize (k : Int) : Int := k.bmod (2 ^ 64)

theorem ssize_eq {k : Int} (h : -1 ≤ k) (h' : k < 2 ^ 63) : ssize k = k :=
  Int.bmod_eq_of_le (by omega) (by omega)

/-! ## Reads -/

variable {kind : Kind} {os : List (ReadOutcome β)} {buf : Nat → β} {off n nleft : Nat}

/-- A call that stopped short says why. -/
theorem readn_short (h : (readn kind os buf off nleft).placed.length < nleft)
    (hp : (readn kind os buf off nleft).exit ≠ .pending)
    (he : (readn kind os buf off nleft).exit ≠ .error) :
    (readn kind os buf off nleft).exit = .eagain ∨ (readn kind os buf off nleft).exit = .eof := by
  fun_induction readn kind os buf off nleft with
  | case1 => exact absurd h (Nat.not_lt_zero _)
  | case2 => exact absurd rfl hp
  | case3 os buf off nleft ih => exact ih h hp he
  | case4 => exact Or.inl rfl
  | case5 => exact Or.inr rfl
  | case6 => exact absurd rfl he
  | case7 => exact Or.inr rfl
  | case8 b bs os buf off nleft hlt ih =>
      simp only [Readn.cons, List.length_append, List.length_cons] at h
      exact ih (by omega) hp he
  | case9 b bs os buf off nleft hlt =>
      simp only [List.length_cons, List.length_take] at h
      omega

/-! ## Writes -/

variable {outs : List WriteOutcome}

/-- The accepted chunks are the first bytes of the buffer: all of them, or fewer before a hard
error. -/
theorem writen_accepted {k : Int} (h : (writen buf n outs off nleft).ret = some k) :
    k = n ∧ (writen buf n outs off nleft).sent.flatten = load buf off nleft ∨
      k = -1 ∧ ∃ m < nleft, (writen buf n outs off nleft).sent.flatten = load buf off m := by
  fun_induction writen buf n outs off nleft with
  | case1 =>
      cases h
      exact Or.inl ⟨rfl, rfl⟩
  | case2 => cases h
  | case3 outs off nleft =>
      cases h
      exact Or.inl ⟨rfl, by simp⟩
  | case4 c outs off nleft ih =>
      simp only [Writen.cons, List.flatten_cons] at h ⊢
      rcases ih h with ⟨hk, hsent⟩ | ⟨hk, m, hm, hsent⟩
      · refine Or.inl ⟨hk, ?_⟩
        rw [hsent, ← load_add]
        exact congrArg _ (by omega)
      · refine Or.inr ⟨hk, min (c + 1) (nleft + 1) + m, by omega, ?_⟩
        rw [hsent, ← load_add]
  | case5 outs off nleft ih => exact ih h
  | case6 outs off nleft ih => exact ih h
  | case7 outs off nleft =>
      cases h
      exact Or.inr ⟨rfl, 0, Nat.succ_pos _, rfl⟩

theorem load_ne_of_lt {m : Nat} (h : m < n) : load buf off m ≠ load buf off n := by
  intro heq
  have hlen := congrArg List.length heq
  simp only [length_load] at hlen
  omega

/-! ## Both -/

/-- Calls of `uct_readn` and `uct_writen` for `n` bytes that return. -/
theorem readn_writen_exact (kind : Kind) (os : List (ReadOutcome β)) (outs : List WriteOutcome)
    (buf : Nat → β) (n : Nat) (hn : n < 2 ^ 63) :
    (∀ k, (readn kind os buf 0 n).ret.map ssize = some k → 0 ≤ k →
      k ≤ n ∧ ∃ rs, ReadCalls kind n os rs (readn kind os buf 0 n).rest ∧
        load (readn kind os buf 0 n).buf 0 k.toNat = received rs ∧
        (k < n → rs.getLast? = some .eagain ∨ rs.getLast? = some .eof)) ∧
    ∀ k, (writen buf n outs 0 n).ret.map ssize = some k →
      (k = n ↔ (writen buf n outs 0 n).sent.flatten = load buf 0 n) ∧
      (k = -1 → ∃ m < n, (writen buf n outs 0 n).sent.flatten = load buf 0 m) ∧
      (k = n ∨ k = -1) ∧
      ∃ ws, WriteCalls (load buf 0 n) outs ws (writen buf n outs 0 n).rest ∧
        (writen buf n outs 0 n).sent.flatten = accepted ws ∧ Settled (load buf 0 n) ws ∧
        (k = -1 → ws.getLast? = some .error) := by
  constructor
  · intro k hk hpos
    obtain ⟨k', hret, rfl⟩ := Option.map_eq_some_iff.mp hk
    have hlen := readn_length kind os buf 0 n
    rcases Readn.ret_cases hret with ⟨-, rfl⟩ | ⟨he, hp, rfl⟩
    · exact absurd hpos (by decide)
    · rw [ssize_eq (by omega) (by omega)]
      obtain ⟨rs, hrs, hbytes, hlast⟩ := readn_calls kind os buf 0 n he
      refine ⟨by omega, rs, hrs, ?_, fun hlt => ?_⟩
      · rw [Int.toNat_natCast, readn_load_zero, hbytes]
      · rcases readn_short (by omega) hp he with hexit | hexit
        · exact Or.inl (hlast _ (by rw [hexit]; rfl))
        · exact Or.inr (hlast _ (by rw [hexit]; rfl))
  · intro k hk
    obtain ⟨k', hret, rfl⟩ := Option.map_eq_some_iff.mp hk
    obtain ⟨ws, hws, haccepted, hend⟩ := writen_calls buf n outs 0 n
    rw [hret] at hend
    rcases writen_accepted hret with ⟨rfl, hsent⟩ | ⟨rfl, m, hm, hsent⟩
    · rw [ssize_eq (by omega) (by omega)]
      exact ⟨⟨fun _ => hsent, fun _ => rfl⟩, fun h => by omega, Or.inl rfl, ws, hws,
        haccepted.symm, Or.inl (haccepted.trans hsent), fun h => by omega⟩
    · have hm1 : ssize (-1) = -1 := by decide
      have hlast : ws.getLast? = some .error := by
        obtain ⟨hn, -⟩ | ⟨-, hlast⟩ | ⟨hnone, -⟩ := hend
        · have := Option.some.inj hn
          omega
        · exact hlast
        · cases hnone
      rw [hm1]
      refine ⟨⟨fun h => by omega, fun h => ?_⟩, fun _ => ⟨m, hm, hsent⟩, Or.inr rfl, ws, hws,
        haccepted.symm, Or.inr hlast, fun _ => hlast⟩
      rw [hsent] at h
      exact absurd h (load_ne_of_lt hm)

/-- A short read up to EAGAIN, and a write that fails behind its first chunk. -/
theorem readn_writen_exact_short :
    let r := readn (β := UInt8) .stream [.data [1, 2], .eintr, .eagain] (fun _ => 0) 0 5
    let w := writen (fun k => UInt8.ofNat k) 5 [.part 1, .eagain, .error] 0 5
    r.ret.map ssize = some 2 ∧ w.ret.map ssize = some (-1) ∧
      (∃ rs, load r.buf 0 2 = received rs ∧ (rs.getLast? = some .eagain ∨ rs.getLast? = some .eof)) ∧
      (∃ m < 5, w.sent.flatten = load (fun k => UInt8.ofNat k) 0 m) ∧
      ∃ ws, w.sent.flatten = accepted ws ∧ ws.getLast? = some .error := by
  intro r w
  have hr : r.ret.map ssize = some 2 := by decide
  have hw : w.ret.map ssize = some (-1) := by decide
  obtain ⟨-, rs, -, hload, hlast⟩ := (readn_writen_exact .stream
    [.data [1, 2], .eintr, .eagain] [] (fun _ => (0 : UInt8)) 5 (by decide)).1 2 hr (by decide)
  obtain ⟨-, hshort, -, ws, -, haccepted, -, herror⟩ := (readn_writen_exact .stream []
    [.part 1, .eagain, .error] (fun k => UInt8.ofNat k) 5 (by decide)).2 (-1) hw
  exact ⟨hr, hw, ⟨rs, hload, hlast (by decide)⟩, hshort rfl, ws, haccepted, herror rfl⟩

end Umicat.Relay
