import Umicat.Relay.Lemmas.Socket
import Umicat.Relay.Loop

/-!
# Rounds of the relay loop
-/

namespace Umicat.Relay

open Umicat.Base
open Umicat.Upstream

variable {β : Type} {kind : Kind} {buf : Nat → β} {ins : List (ReadOutcome β)}
  {outs : List WriteOutcome}

theorem toSize_ret {r : Readn β} {k : Int} (hlen : r.placed.length ≤ bufSize)
    (h : r.ret = some k) : r.exit = .error ∧ toSize k = 2 ^ 64 - 1 ∨
      r.exit ≠ .error ∧ r.exit ≠ .pending ∧ toSize k = r.placed.length := by
  rcases r.ret_cases h with ⟨he, rfl⟩ | ⟨he, hp, rfl⟩
  · exact Or.inl ⟨he, by decide⟩
  · refine Or.inr ⟨he, hp, ?_⟩
    unfold bufSize at hlen
    unfold toSize
    omega

/-- What one round of the loop can do. -/
theorem relayLoop_cases (kind : Kind) (buf : Nat → β) (ins : List (ReadOutcome β))
    (outs : List WriteOutcome) :
    let r := readn kind ins buf 0 bufSize
    (r.exit = .pending ∧ relayLoop kind buf ins outs = ⟨[], r.placed, [], .pending, r.rest, outs⟩) ∨
    (r.exit ≠ .error ∧ r.exit ≠ .pending ∧ r.placed = [] ∧ relayLoop kind buf ins outs =
      ⟨[], [], [], if r.again then .drained else .closed, r.rest, outs⟩) ∨
    ∃ len, (r.exit = .error ∧ len = 2 ^ 64 - 1 ∨
        r.exit ≠ .error ∧ r.exit ≠ .pending ∧ r.placed ≠ [] ∧ len = r.placed.length) ∧
      let w := writen r.buf len outs 0 len
      (w.ret = none ∧ relayLoop kind buf ins outs =
        ⟨[⟨len, r.placed⟩], r.placed, w.sent, .pending, r.rest, w.rest⟩) ∨
      (w.ret ≠ none ∧ size r.rest < size ins ∧ relayLoop kind buf ins outs =
        (relayLoop kind r.buf r.rest w.rest).after ⟨len, r.placed⟩ w.sent) := by
  intro r
  have hlen : r.placed.length ≤ bufSize := readn_length kind ins buf 0 bufSize
  rw [relayLoop]
  simp only
  split
  · next h => exact Or.inl ⟨r.ret_none h, rfl⟩
  · next k h =>
      have hk := toSize_ret hlen h
      split
      · next h0 =>
          right; left
          rcases hk with ⟨_, hk⟩ | ⟨he, hp, hk⟩
          · omega
          · have hplaced : r.placed = [] := List.length_eq_zero_iff.mp (by omega)
            exact ⟨he, hp, hplaced, by rw [← hplaced]⟩
      · next h0 =>
          right; right
          refine ⟨toSize k, ?_, ?_⟩
          · rcases hk with hk | ⟨he, hp, hk⟩
            · exact Or.inl hk
            · exact Or.inr ⟨he, hp, fun hnil => h0 (by rw [hk, hnil]; rfl), hk⟩
          · split
            · next hw => exact Or.inl ⟨hw, rfl⟩
            · next hw => exact Or.inr ⟨fun hnone => absurd (hw.symm.trans hnone) (by simp), size_lt_of_ret h h0, rfl⟩

theorem relayLoop_nil (kind : Kind) (buf : Nat → β) (outs : List WriteOutcome) :
    relayLoop kind buf [] outs = ⟨[], [], [], .pending, [], outs⟩ := by
  rw [relayLoop]
  rfl

theorem relayLoop_eagain (kind : Kind) (buf : Nat → β) (ins : List (ReadOutcome β))
    (outs : List WriteOutcome) :
    relayLoop kind buf (.eagain :: ins) outs = ⟨[], [], [], .drained, ins, outs⟩ := by
  rw [relayLoop]
  rfl

theorem relayLoop_induction {P : (Nat → β) → List (ReadOutcome β) → List WriteOutcome → Prop}
    (round : ∀ buf ins outs, (∀ buf' ins' outs', size ins' < size ins → P buf' ins' outs') →
      P buf ins outs) (buf : Nat → β) (ins : List (ReadOutcome β)) (outs : List WriteOutcome) :
    P buf ins outs := by
  induction hs : size ins using Nat.strongRecOn generalizing buf ins outs with
  | _ s ih =>
      subst hs
      exact round buf ins outs fun buf' ins' outs' hlt => ih _ hlt buf' ins' outs' rfl

theorem error_mem_of_relayLoop (h : .error ∈ (relayLoop kind buf ins outs).ins) : .error ∈ ins := by
  induction buf, ins, outs using relayLoop_induction with
  | round buf ins outs ih =>
      rw [error_mem_iff (by decide : 0 < bufSize)]
      obtain ⟨_, heq⟩ | ⟨_, _, _, heq⟩ | ⟨len, _, ⟨_, heq⟩ | ⟨_, hlt, heq⟩⟩ :=
        relayLoop_cases kind buf ins outs
      · exact Or.inr (by rwa [heq] at h)
      · exact Or.inr (by rwa [heq] at h)
      · exact Or.inr (by rwa [heq] at h)
      · exact Or.inr (ih _ _ _ hlt (by rwa [heq] at h))

theorem relayLoop_outs_suffix (kind : Kind) (buf : Nat → β) (ins : List (ReadOutcome β))
    (outs : List WriteOutcome) : (relayLoop kind buf ins outs).outs <:+ outs := by
  induction buf, ins, outs using relayLoop_induction with
  | round buf ins outs ih =>
      obtain ⟨_, heq⟩ | ⟨_, _, _, heq⟩ | ⟨len, _, ⟨_, heq⟩ | ⟨_, hlt, heq⟩⟩ :=
        relayLoop_cases kind buf ins outs
      · exact heq ▸ List.suffix_rfl
      · exact heq ▸ List.suffix_rfl
      · rw [heq]
        exact writen_rest_suffix _ _ _ _ _
      · rw [heq]
        exact (ih _ _ _ hlt).trans (writen_rest_suffix _ _ _ _ _)

theorem relayLoop_silent (h : Silent outs) : (relayLoop kind buf ins outs).sent = [] := by
  induction buf, ins, outs using relayLoop_induction with
  | round buf ins outs ih =>
      obtain ⟨_, heq⟩ | ⟨_, _, _, heq⟩ | ⟨len, _, ⟨_, heq⟩ | ⟨_, hlt, heq⟩⟩ :=
        relayLoop_cases kind buf ins outs
      · rw [heq]
      · rw [heq]
      · rw [heq]
        exact writen_silent h
      · rw [heq]
        have hrest : Silent (writen (readn kind ins buf 0 bufSize).buf len outs 0 len).rest :=
          fun o ho => h o ((writen_rest_suffix _ _ _ _ _).subset ho)
        simp [Handled.after, writen_silent h, ih _ _ _ hlt hrest]

/-! ## The counter of the server -/

theorem connectionN_disconnect (ending : Ending) (s : Srv) :
    (disconnect ending s).connectionN =
      if ending = .closed then s.connectionN - 1 else s.connectionN := by
  unfold disconnect
  split <;> rfl

theorem connectionN_clientEvent (now : UInt64) (s : Srv) (buf : Nat → β)
    (ins : List (ReadOutcome β)) (outs : List WriteOutcome) :
    (epollProcessClientEvent now s buf ins outs).2.connectionN =
      if (relayLoop .stream buf ins outs).ending = .closed then s.connectionN - 1
      else s.connectionN := by
  have htraffic (n : UInt64) : (addTraffic now n s).connectionN = s.connectionN := by
    unfold addTraffic
    simp only
    split <;> rfl
  simp only [epollProcessClientEvent, connectionN_disconnect]
  by_cases hcount : (relayLoop .stream buf ins outs).ending ≠ .pending ∧
      (relayLoop .stream buf ins outs).connTraffic > 0
  · rw [if_pos hcount, htraffic]
  · rw [if_neg hcount]

end Umicat.Relay
