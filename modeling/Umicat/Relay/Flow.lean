import Umicat.Relay.Lemmas.Loop

/-!
# Flows

A flow is what becomes of a proxied pair over all events that are handled for it. Every event gets
its own buffer from the pool; `alloc k` is the memory of the buffer of event `k`.
-/

namespace Umicat.Relay

open Umicat.Upstream

variable {β : Type}

/-! ## UDP -/

def Handled.append (t t' : Handled β) : Handled β :=
  { t' with calls := t.calls ++ t'.calls, read := t.read ++ t'.read, sent := t.sent ++ t'.sent }

theorem size_lt_of_drained {kind : Kind} {buf : Nat → β} {ins : List (ReadOutcome β)}
    {outs : List WriteOutcome} (h : (relayLoop kind buf ins outs).ending = .drained) :
    size (relayLoop kind buf ins outs).ins < size ins := by
  induction buf, ins, outs using relayLoop_induction with
  | round buf ins outs ih =>
      obtain ⟨_, heq⟩ | ⟨_, _, _, heq⟩ | ⟨len, _, ⟨_, heq⟩ | ⟨_, hlt, heq⟩⟩ :=
        relayLoop_cases kind buf ins outs
      · rw [heq] at h
        cases h
      · rw [heq] at h ⊢
        have hagain : (readn kind ins buf 0 bufSize).exit = .eagain := by
          by_contra hne
          simp [Readn.again, hne] at h
        exact (size_readn kind ins buf 0 bufSize).2 (Or.inr hagain)
      · rw [heq] at h
        cases h
      · rw [heq] at h ⊢
        exact Nat.lt_trans (ih _ _ _ hlt h) hlt

/-- Events of a UDP flow, from event `k` on, until the outcomes are used up or the flow is torn
down. -/
def udpFlow (s : Srv) (alloc : Nat → Nat → β) (k : Nat) (buf : Nat → β)
    (ins : List (ReadOutcome β)) (outs : List WriteOutcome) : Handled β × Srv :=
  let t := epollProcessEventUdp s buf ins outs
  if _h : t.1.ending = .drained then
    let flow := udpFlow t.2 alloc (k + 1) (alloc (k + 1)) t.1.ins t.1.outs
    (t.1.append flow.1, flow.2)
  else t
termination_by size ins
decreasing_by exact size_lt_of_drained _h

/-! ## TCP -/

/-- One direction of a pair: what the socket calls will report, the bytes read from the source and
the bytes accepted by the destination so far. -/
structure Side (β : Type) where
  ins : List (ReadOutcome β)
  outs : List WriteOutcome
  read : List β
  sent : List (List β)
deriving Repr, DecidableEq

def Side.handle (d : Side β) (t : Handled β) : Side β :=
  ⟨t.ins, t.outs, d.read ++ t.read, d.sent ++ t.sent⟩

/-- A proxied pair. `status` tells how its last event ended; a pair that is `drained` waits for the
next event. -/
structure Pair (β : Type) where
  srv : Srv
  toUpstream : Side β
  toClient : Side β
  status : Ending
deriving Repr, DecidableEq

inductive TcpEvent (β : Type)
  | client (now : UInt64) (buf : Nat → β)
  | upstream (buf : Nat → β)

def Pair.handle (p : Pair β) (e : TcpEvent β) : Pair β :=
  if p.status = .drained then
    match e with
    | .client now buf =>
        let t := epollProcessClientEvent now p.srv buf p.toUpstream.ins p.toUpstream.outs
        { p with srv := t.2, toUpstream := p.toUpstream.handle t.1, status := t.1.ending }
    | .upstream buf =>
        let t := epollProcessUpstreamEvent p.srv buf p.toClient.ins p.toClient.outs
        { p with srv := t.2, toClient := p.toClient.handle t.1, status := t.1.ending }
  else p

def Pair.handleAll (p : Pair β) (es : List (TcpEvent β)) : Pair β := es.foldl Pair.handle p

end Umicat.Relay
