import Umicat.Relay.Socket
import Umicat.Upstream.Srv

/-!
# The relay loops

The handling of one event by `uct_epoll_process_events` and `uct_epoll_process_events_udp`: a loop
of `uct_readn` and `uct_writen`, then the teardown of the pair if the source has ended.
-/

namespace Umicat.Relay

open Umicat.Base
open Umicat.Upstream

variable {β : Type}

/-- `UCT_BUF_SIZE`. -/
def bufSize : Nat := 65535

/-- Conversion of `ssize_t` to `uct_uint_t`. -/
def toSize (k : Int) : Nat := (k % 2 ^ 64).toNat

/-! ## Outcomes are used up -/

def ReadOutcome.size : ReadOutcome β → Nat
  | .data bs => bs.length + 1
  | _ => 1

def size (os : List (ReadOutcome β)) : Nat := (os.map ReadOutcome.size).sum

theorem size_cons (o : ReadOutcome β) (os : List (ReadOutcome β)) :
    size (o :: os) = o.size + size os := by
  simp [size]

theorem size_leftover (kind : Kind) (bs : List β) (os : List (ReadOutcome β)) :
    size (kind.leftover bs ++ os) ≤ bs.length + 1 + size os := by
  cases kind with
  | dgram => simp [Kind.leftover]
  | stream =>
      cases bs with
      | nil => simp [Kind.leftover]
      | cons b bs => simp [Kind.leftover, size, ReadOutcome.size]

theorem size_readn (kind : Kind) (os : List (ReadOutcome β)) (buf : Nat → β) (off nleft : Nat) :
    size (readn kind os buf off nleft).rest + (readn kind os buf off nleft).placed.length ≤ size os ∧
      ((readn kind os buf off nleft).exit = .error ∨ (readn kind os buf off nleft).exit = .eagain →
        size (readn kind os buf off nleft).rest < size os) := by
  fun_induction readn kind os buf off nleft with
  | case1 os => simp
  | case2 => simp
  | case3 os buf off nleft ih =>
      rw [size_cons]
      exact ⟨by omega, fun h => by have := ih.2 h; omega⟩
  | case4 os => simp [size_cons, ReadOutcome.size]
  | case5 os => simp [size_cons]
  | case6 os => simp [size_cons, ReadOutcome.size]
  | case7 os => simp [size_cons]
  | case8 b bs os buf off nleft h ih =>
      simp only [Readn.cons, size_cons, ReadOutcome.size, List.length_append, List.length_cons]
      exact ⟨by omega, fun h => by have := ih.2 h; omega⟩
  | case9 b bs os buf off nleft h =>
      have := size_leftover kind (bs.drop nleft) os
      simp only [size_cons, ReadOutcome.size, List.length_cons, List.length_take, List.length_drop]
        at this ⊢
      exact ⟨by omega, by simp⟩

theorem size_lt_of_ret {kind : Kind} {os : List (ReadOutcome β)} {buf : Nat → β} {off nleft : Nat}
    {k : Int} (h : (readn kind os buf off nleft).ret = some k) (hk : toSize k ≠ 0) :
    size (readn kind os buf off nleft).rest < size os := by
  obtain ⟨hle, herror⟩ := size_readn kind os buf off nleft
  unfold Readn.ret at h
  split at h
  · cases h
  · next he => exact herror (Or.inl he)
  · cases h
    have : (readn kind os buf off nleft).placed.length ≠ 0 := by
      intro h0
      simp [toSize, h0] at hk
    omega

/-! ## One event -/

structure Call (β : Type) where
  len : Nat
  placed : List β
deriving Repr, DecidableEq

/-- How an event ended: `read()` has no more data for now, or the pair was torn down. An event that
waits for an outcome is pending. -/
inductive Ending
  | drained
  | closed
  | pending
deriving Repr, DecidableEq

structure Handled (β : Type) where
  calls : List (Call β)
  read : List β
  sent : List (List β)
  ending : Ending
  ins : List (ReadOutcome β)
  outs : List WriteOutcome
deriving Repr, DecidableEq

def Handled.after (c : Call β) (sent : List (List β)) (t : Handled β) : Handled β :=
  { t with calls := c :: t.calls, read := c.placed ++ t.read, sent := sent ++ t.sent }

/-- `while ((n = uct_readn(from, buf, UCT_BUF_SIZE)) > 0) uct_writen(to, buf, n);` and the test of
`errno` behind it. -/
def relayLoop (kind : Kind) (buf : Nat → β) (ins : List (ReadOutcome β))
    (outs : List WriteOutcome) : Handled β :=
  let r := readn kind ins buf 0 bufSize
  match _h : r.ret with
  | none => ⟨[], r.placed, [], .pending, r.rest, outs⟩
  | some k =>
      if _hk : toSize k = 0 then
        ⟨[], r.placed, [], if r.again then .drained else .closed, r.rest, outs⟩
      else
        let w := writen r.buf (toSize k) outs 0 (toSize k)
        let c : Call β := ⟨toSize k, r.placed⟩
        match w.ret with
        | none => ⟨[c], r.placed, w.sent, .pending, r.rest, w.rest⟩
        | some _ => (relayLoop kind r.buf r.rest w.rest).after c w.sent
termination_by size ins
decreasing_by exact size_lt_of_ret _h _hk

def Handled.connTraffic (t : Handled β) : UInt64 := UInt64.ofNat (t.calls.map (·.len)).sum

def addTraffic (now connTraffic : UInt64) (s : Srv) : Srv :=
  let s := { s with traffic := s.traffic + connTraffic }
  if now - s.lastSendTime ≥ s.trafficWindow then
    { s with traffic := connTraffic, lastSendTime := now }
  else { s with traffic := s.traffic + connTraffic }

def disconnect (ending : Ending) (s : Srv) : Srv :=
  if ending = .closed then { s with connectionN := s.connectionN - 1 } else s

/-- One event of the client set. The server is left as it was while the event is pending. -/
def epollProcessClientEvent (now : UInt64) (s : Srv) (buf : Nat → β) (ins : List (ReadOutcome β))
    (outs : List WriteOutcome) : Handled β × Srv :=
  let t := relayLoop .stream buf ins outs
  let s := if t.ending ≠ .pending ∧ t.connTraffic > 0 then addTraffic now t.connTraffic s else s
  (t, disconnect t.ending s)

/-- One event of the upstream set. -/
def epollProcessUpstreamEvent (s : Srv) (buf : Nat → β) (ins : List (ReadOutcome β))
    (outs : List WriteOutcome) : Handled β × Srv :=
  let t := relayLoop .stream buf ins outs
  (t, disconnect t.ending s)

/-- One event of `uct_epoll_process_events_udp`. -/
def epollProcessEventUdp (s : Srv) (buf : Nat → β) (ins : List (ReadOutcome β))
    (outs : List WriteOutcome) : Handled β × Srv :=
  let t := relayLoop .dgram buf ins outs
  (t, disconnect t.ending s)

end Umicat.Relay
