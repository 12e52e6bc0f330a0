import Umicat.Relay.Socket

/-!
# What a full read and a full write do
-/

namespace Umicat.Relay

open Umicat.Base

variable {β : Type} {kind : Kind} {os : List (ReadOutcome β)} {buf : Nat → β} {off nleft : Nat}

/-! ## Reads -/

theorem readn_length (kind : Kind) (os : List (ReadOutcome β)) (buf : Nat → β) (off nleft : Nat) :
    (readn kind os buf off nleft).placed.length ≤ nleft := by
  fun_induction readn kind os buf off nleft with
  | case3 os buf off nleft ih => exact ih
  | case8 b bs os buf off nleft h ih =>
      simp only [Readn.cons, List.length_append, List.length_cons]
      omega
  | case9 b bs os buf off nleft h =>
      simp only [List.length_cons, List.length_take]
      omega
  | _ => exact Nat.zero_le _

theorem readn_load (kind : Kind) (os : List (ReadOutcome β)) (buf : Nat → β) (off nleft : Nat) :
    load (readn kind os buf off nleft).buf 0 (off + (readn kind os buf off nleft).placed.length) =
      load buf 0 off ++ (readn kind os buf off nleft).placed := by
  fun_induction readn kind os buf off nleft with
  | case3 os buf off nleft ih => exact ih
  | case8 b bs os buf off nleft h ih =>
      have hstore : load (store buf off (b :: bs)) 0 (off + (bs.length + 1)) =
          load buf 0 off ++ b :: bs := by
        rw [load_add, Nat.zero_add, load_store_below buf off _ (by omega)]
        exact congrArg _ (load_store_self buf off (b :: bs))
      simp only [Readn.cons, List.length_append, List.length_cons]
      rw [Nat.add_assoc] at ih
      rw [ih, hstore, List.append_assoc]
  | case9 b bs os buf off nleft h =>
      rw [load_add, Nat.zero_add, load_store_below buf off _ (by omega), load_store_self]
  | _ => simp

theorem readn_pending (h : (readn kind os buf off nleft).exit = .pending) :
    (readn kind os buf off nleft).rest = [] := by
  fun_induction readn kind os buf off nleft with
  | case2 => rfl
  | case3 os buf off nleft ih => exact ih h
  | case8 b bs os buf off nleft hlt ih => exact ih h
  | _ => cases h

theorem error_not_mem_leftover (kind : Kind) (bs : List β) : .error ∉ kind.leftover bs := by
  cases kind with
  | dgram => simp [Kind.leftover]
  | stream => cases bs <;> simp [Kind.leftover]

theorem error_mem_iff (hn : 0 < nleft) :
    .error ∈ os ↔ (readn kind os buf off nleft).exit = .error ∨
      .error ∈ (readn kind os buf off nleft).rest := by
  fun_induction readn kind os buf off nleft with
  | case1 => omega
  | case3 os buf off nleft ih => simpa using ih hn
  | case8 b bs os buf off nleft hlt ih => simpa [Readn.cons] using ih (by omega)
  | case9 b bs os buf off nleft hlt => simp [error_not_mem_leftover]
  | _ => simp

theorem Readn.ret_cases {r : Readn β} {k : Int} (h : r.ret = some k) :
    r.exit = .error ∧ k = -1 ∨
      r.exit ≠ .error ∧ r.exit ≠ .pending ∧ k = r.placed.length := by
  unfold Readn.ret at h
  split at h
  · cases h
  · next he =>
      cases h
      exact Or.inl ⟨he, rfl⟩
  · next h₁ h₂ =>
      cases h
      exact Or.inr ⟨h₂, h₁, rfl⟩

theorem Readn.ret_none {r : Readn β} (h : r.ret = none) : r.exit = .pending := by
  unfold Readn.ret at h
  split at h
  · assumption
  · cases h
  · cases h

/-! ## Writes -/

variable {n : Nat} {outs : List WriteOutcome}

def WriteOutcome.accepts : WriteOutcome → Bool
  | .all => true
  | .part _ => true
  | _ => false

def Silent (outs : List WriteOutcome) : Prop := ∀ o ∈ outs, o.accepts = false

/-- After a hard error no write is accepted. -/
def FailStop (outs : List WriteOutcome) : Prop :=
  outs.Pairwise fun o o' => o = .error → o'.accepts = false

theorem writen_rest_suffix (buf : Nat → β) (n : Nat) (outs : List WriteOutcome) (off nleft : Nat) :
    (writen buf n outs off nleft).rest <:+ outs := by
  fun_induction writen buf n outs off nleft with
  | case1 => exact List.suffix_rfl
  | case2 => exact List.suffix_rfl
  | case3 => exact List.suffix_cons _ _
  | case4 k outs off nleft ih => exact ih.trans (List.suffix_cons _ _)
  | case5 outs off nleft ih => exact ih.trans (List.suffix_cons _ _)
  | case6 outs off nleft ih => exact ih.trans (List.suffix_cons _ _)
  | case7 => exact List.suffix_cons _ _

theorem writen_silent (h : Silent outs) : (writen buf n outs off nleft).sent = [] := by
  fun_induction writen buf n outs off nleft with
  | case3 => exact absurd (h _ List.mem_cons_self) (by simp [WriteOutcome.accepts])
  | case4 => exact absurd (h _ List.mem_cons_self) (by simp [WriteOutcome.accepts])
  | case5 outs off nleft ih => exact ih fun o ho => h o (List.mem_cons_of_mem _ ho)
  | case6 outs off nleft ih => exact ih fun o ho => h o (List.mem_cons_of_mem _ ho)
  | _ => rfl

/-- The accepted bytes are the first bytes of the buffer; they are all of them, or the writes to
come are silent. -/
theorem writen_sent (buf : Nat → β) (n off nleft : Nat) (hf : FailStop outs) :
    ∃ m ≤ nleft, (writen buf n outs off nleft).sent.flatten = load buf off m ∧
      (m = nleft ∨ Silent (writen buf n outs off nleft).rest) := by
  fun_induction writen buf n outs off nleft with
  | case1 => exact ⟨0, Nat.le_refl _, rfl, Or.inl rfl⟩
  | case2 off nleft => exact ⟨0, Nat.zero_le _, rfl, Or.inr (by simp [Silent])⟩
  | case3 outs off nleft => exact ⟨_, Nat.le_refl _, by simp, Or.inl rfl⟩
  | case4 k outs off nleft ih =>
      obtain ⟨m, hm, hsent, hrest⟩ := ih (List.pairwise_cons.mp hf).2
      refine ⟨min (k + 1) (nleft + 1) + m, by omega, ?_, ?_⟩
      · simp only [Writen.cons, List.flatten_cons, hsent, load_add]
      · rcases hrest with rfl | hs
        · exact Or.inl (by omega)
        · exact Or.inr hs
  | case5 outs off nleft ih => exact ih (List.pairwise_cons.mp hf).2
  | case6 outs off nleft ih => exact ih (List.pairwise_cons.mp hf).2
  | case7 outs off nleft =>
      exact ⟨0, Nat.zero_le _, rfl, Or.inr fun o ho => (List.pairwise_cons.mp hf).1 o ho rfl⟩

theorem writen_prefix {bs : List β} (hb : load buf 0 bs.length = bs) (hf : FailStop outs) :
    (writen buf n outs 0 bs.length).sent.flatten <+: bs ∧
      ((writen buf n outs 0 bs.length).sent.flatten = bs ∨
        Silent (writen buf n outs 0 bs.length).rest) := by
  obtain ⟨m, hm, hsent, hrest⟩ := writen_sent buf n 0 bs.length hf
  rw [hsent]
  constructor
  · obtain ⟨d, hd⟩ := Nat.exists_eq_add_of_le hm
    exact ⟨load buf (0 + m) d, by rw [← load_add, ← hd, hb]⟩
  · rcases hrest with rfl | hs
    · exact Or.inl hb
    · exact Or.inr hs

theorem readn_load_zero (kind : Kind) (os : List (ReadOutcome β)) (buf : Nat → β) (nleft : Nat) :
    load (readn kind os buf 0 nleft).buf 0 (readn kind os buf 0 nleft).placed.length =
      (readn kind os buf 0 nleft).placed := by
  simpa using readn_load kind os buf 0 nleft

end Umicat.Relay
