import Umicat.Relay.Flow

/-!
# The destination gets a prefix of what the source sent
-/

namespace Umicat.Relay

open Umicat.Base
open Umicat.Upstream

variable {β : Type} {kind : Kind} {buf : Nat → β} {ins : List (ReadOutcome β)}
  {outs : List WriteOutcome}

/-! ## One event -/

/-- Without hard read errors the loop passes on what it reads, until the destination is silent or
there is nothing more to read. -/
theorem relayLoop_prefix (kind : Kind) (buf : Nat → β) (he : .error ∉ ins) (hf : FailStop outs) :
    (relayLoop kind buf ins outs).sent.flatten <+: (relayLoop kind buf ins outs).read ∧
      ((relayLoop kind buf ins outs).sent.flatten = (relayLoop kind buf ins outs).read ∨
        Silent (relayLoop kind buf ins outs).outs ∨ (relayLoop kind buf ins outs).ins = []) := by
  induction buf, ins, outs using relayLoop_induction with
  | round buf ins outs ih =>
      rw [error_mem_iff (by decide : 0 < bufSize), not_or] at he
      obtain ⟨hp, heq⟩ | ⟨_, _, _, heq⟩ | ⟨len, hlen, hw⟩ := relayLoop_cases kind buf ins outs
      · rw [heq]
        exact ⟨List.nil_prefix, Or.inr (Or.inr (readn_pending hp))⟩
      · rw [heq]
        exact ⟨List.nil_prefix, Or.inl rfl⟩
      · obtain ⟨herr, _⟩ | ⟨_, _, _, rfl⟩ := hlen
        · exact absurd herr he.1
        · obtain ⟨hpre, hflush⟩ := writen_prefix (n := (readn kind ins buf 0 bufSize).placed.length)
            (readn_load_zero kind ins buf bufSize) hf
          obtain ⟨_, heq⟩ | ⟨_, hlt, heq⟩ := hw
          · rw [heq]
            exact ⟨hpre, hflush.imp_right Or.inl⟩
          · have hsuffix := writen_rest_suffix (readn kind ins buf 0 bufSize).buf
              (readn kind ins buf 0 bufSize).placed.length outs 0
              (readn kind ins buf 0 bufSize).placed.length
            rw [heq]
            simp only [Handled.after, List.flatten_append]
            rcases hflush with hall | hsilent
            · obtain ⟨hpre', hflush'⟩ := ih _ _ _ hlt he.2 (hf.sublist hsuffix.sublist)
              rw [hall]
              exact ⟨(List.prefix_append_right_inj _).mpr hpre',
                hflush'.imp_left (congrArg (_ ++ ·))⟩
            · rw [relayLoop_silent hsilent, List.flatten_nil, List.append_nil]
              exact ⟨hpre.trans (List.prefix_append _ _), Or.inr (Or.inl fun o ho =>
                hsilent o ((relayLoop_outs_suffix _ _ _ _).subset ho))⟩

/-! ## Runs -/

structure Side.Kept (d : Side β) : Prop where
  clean : .error ∉ d.ins
  failStop : FailStop d.outs
  sent : d.sent.flatten <+: d.read
  flush : d.sent.flatten = d.read ∨ Silent d.outs ∨ d.ins = []

theorem Side.Kept.handle {d : Side β} (h : d.Kept) (kind : Kind) (buf : Nat → β) :
    (d.handle (relayLoop kind buf d.ins d.outs)).Kept := by
  have houts := relayLoop_outs_suffix kind buf d.ins d.outs
  obtain ⟨hpre, hflush⟩ := relayLoop_prefix kind buf h.clean h.failStop
  have hclean : .error ∉ (relayLoop kind buf d.ins d.outs).ins := mt error_mem_of_relayLoop h.clean
  have hfail : FailStop (relayLoop kind buf d.ins d.outs).outs := h.failStop.sublist houts.sublist
  rcases h.flush with hall | hsilent | hnil
  · refine ⟨hclean, hfail, ?_, ?_⟩
    · simp only [Side.handle, List.flatten_append, hall]
      exact (List.prefix_append_right_inj _).mpr hpre
    · simp only [Side.handle, List.flatten_append, hall]
      exact hflush.imp_left (congrArg (_ ++ ·))
  · refine ⟨hclean, hfail, ?_, Or.inr (Or.inl fun o ho => hsilent o (houts.subset ho))⟩
    simp only [Side.handle, relayLoop_silent hsilent, List.append_nil]
    exact h.sent.trans (List.prefix_append _ _)
  · refine ⟨hclean, hfail, ?_, Or.inr (Or.inr ?_)⟩
    · simpa [Side.handle, hnil, relayLoop_nil] using h.sent
    · simp [Side.handle, hnil, relayLoop_nil]

def Pair.Kept (p : Pair β) : Prop := p.toUpstream.Kept ∧ p.toClient.Kept

theorem Pair.Kept.handle {p : Pair β} (h : p.Kept) (e : TcpEvent β) : (p.handle e).Kept := by
  unfold Pair.handle
  split
  · cases e with
    | client now buf => exact ⟨h.1.handle .stream buf, h.2⟩
    | upstream buf => exact ⟨h.1, h.2.handle .stream buf⟩
  · exact h

theorem Pair.Kept.handleAll {p : Pair β} (h : p.Kept) (es : List (TcpEvent β)) :
    (p.handleAll es).Kept := by
  induction es generalizing p with
  | nil => exact h
  | cons e es ih => exact ih (h.handle e)

def Pair.opened (srv : Srv) (ins : List (ReadOutcome β)) (outs : List WriteOutcome)
    (ins' : List (ReadOutcome β)) (outs' : List WriteOutcome) : Pair β :=
  ⟨srv, ⟨ins, outs, [], []⟩, ⟨ins', outs', [], []⟩, .drained⟩

theorem Pair.opened_kept {srv : Srv} {ins ins' : List (ReadOutcome β)}
    {outs outs' : List WriteOutcome} (he : .error ∉ ins) (hf : FailStop outs) (he' : .error ∉ ins')
    (hf' : FailStop outs') : (Pair.opened srv ins outs ins' outs').Kept :=
  ⟨⟨he, hf, List.nil_prefix, Or.inl rfl⟩, ⟨he', hf', List.nil_prefix, Or.inl rfl⟩⟩

/-- In both directions, over any events, the destination has accepted a prefix of what was read, if
no write is accepted after a hard error. -/
theorem relay_prefix (srv : Srv) {ins ins' : List (ReadOutcome β)} {outs outs' : List WriteOutcome}
    (he : .error ∉ ins) (he' : .error ∉ ins') (hf : FailStop outs) (hf' : FailStop outs')
    (es : List (TcpEvent β)) :
    let p := (Pair.opened srv ins outs ins' outs').handleAll es
    p.toUpstream.sent.flatten <+: p.toUpstream.read ∧
      p.toClient.sent.flatten <+: p.toClient.read := by
  intro p
  have hkept : p.Kept := (Pair.opened_kept he hf he' hf').handleAll es
  exact ⟨hkept.1.sent, hkept.2.sent⟩

/-- A partial write, an interrupted one, then a failure. -/
theorem relay_prefix_partial :
    let p := (Pair.opened (β := UInt8) default [.data [1, 2, 3], .eagain, .eof]
      [.part 0, .eintr, .error, .eagain] [] []).handleAll [.client 0 fun _ => 0]
    p.toUpstream.sent.flatten <+: p.toUpstream.read ∧
      p.toClient.sent.flatten <+: p.toClient.read :=
  relay_prefix default (by simp) (by simp) (by simp [FailStop, WriteOutcome.accepts])
    (by simp [FailStop]) _

/-- The write of the first chunk fails, that of the second one succeeds: the destination gets the
second byte without the first. -/
theorem lost_chunk :
    let p := (Pair.opened (β := UInt8) default [.data [1], .eagain, .data [2], .eagain]
      [.error, .all] [] []).handleAll [.client 0 fun _ => 0]
    p.toUpstream.read = [1, 2] ∧ p.toUpstream.sent = [[2]] ∧
      ¬p.toUpstream.sent.flatten <+: p.toUpstream.read := by
  have h : relayLoop .stream (fun _ => (0 : UInt8)) [.data [1], .eagain, .data [2], .eagain]
      [.error, .all] = ⟨[⟨1, [1]⟩, ⟨1, [2]⟩], [1, 2], [[2]], .pending, [], []⟩ := by
    simp [relayLoop, readn, Readn.ret, Readn.cons, toSize, bufSize, writen, Handled.after, load,
      store]
  simp [Pair.handleAll, Pair.handle, Pair.opened, epollProcessClientEvent, Side.handle, h]

end Umicat.Relay
