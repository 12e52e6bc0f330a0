import Umicat.Relay.Loop
import Umicat.Upstream.Run

/-!
# The TCP proxy

The workers of `uct_worker_thread_cycle` share the server list. A worker takes a client, selects a
server and connects to it, registers the two descriptors of the pair with its epoll sets, and then
handles a batch of client events and a batch of upstream events (`uct_epoll_process_events`).
Selections, connection attempts and events of different workers interleave freely.
-/

namespace Umicat.Upstream

def Choice.isLeastConn : Choice → Bool
  | .leastConn _ => true
  | _ => false

end Umicat.Upstream

namespace Umicat.Proxy

open Umicat.Relay
open Umicat.Upstream

/-! ## State -/

/-- An open descriptor, a non-negative C `int`. -/
abbrev Fd := Fin (2 ^ 31)

/-- A proxied pair (`uct_proxy_t`), with the worker that has it and its server. No two pairs have
the same `id`. -/
structure Proxied where
  id : Nat
  worker : Nat
  client : Fd
  upstream : Fd
  srv : Nat
deriving Repr, DecidableEq

inductive Phase
  | accept
  | connecting (srv : Nat)
  | clientWait
  | client (evs : List Proxied)
  | upstream (evs : List Proxied)
deriving Repr, DecidableEq

def Phase.events : Phase → List Proxied
  | .client evs => evs
  | .upstream evs => evs
  | _ => []

def Phase.target : Phase → Option Nat
  | .connecting i => some i
  | _ => none

/-- The worker's own `uct_cycle_t`. An entry of an epoll set is the pair that its `data.ptr` points
to; the descriptor of the entry is the pair's client or upstream one. -/
structure Worker where
  connectionN : UInt64
  clientEpoll : List Proxied
  upstreamEpoll : List Proxied
  phase : Phase
deriving Repr, DecidableEq

/-- The state of the proxy. The pairs that are open, the identifiers of those that were torn down,
the server of every connection attempt that has ended, and whether a counter was ever counted down
from 0 are recorded for the specification. -/
structure Sys where
  srvs : List Srv
  workers : List Worker
  pairs : List Proxied
  torn : List Nat
  nextId : Nat
  attempts : List Nat
  wrapped : Bool
deriving Repr, DecidableEq

def fds (pairs : List Proxied) : List Fd := pairs.flatMap fun p => [p.client, p.upstream]

def Sys.phase (s : Sys) (w : Nat) : Option Phase := s.workers[w]?.map Worker.phase

/-- Number of pairs that are open to server `i`. -/
def Sys.openTo (s : Sys) (i : Nat) : Nat := s.pairs.countP (·.srv = i)

/-- Number of workers that are connecting to server `i`. -/
def Sys.opening (s : Sys) (i : Nat) : Nat := s.workers.countP (·.phase.target = some i)

def Sys.init (srvs : List Srv) (n : Nat) : Sys where
  srvs := srvs
  workers := List.replicate n ⟨0, [], [], .accept⟩
  pairs := []
  torn := []
  nextId := 0
  attempts := []
  wrapped := false

/-! ## Operations -/

def Worker.goto (phase : Phase) (w : Worker) : Worker := { w with phase := phase }

/-- `uct_epoll_add_proxy_connection` and the count that follows it. -/
def Worker.epollAddProxyConnection (p : Proxied) (w : Worker) : Worker :=
  { w with
    clientEpoll := p :: w.clientEpoll
    upstreamEpoll := p :: w.upstreamEpoll
    connectionN := w.connectionN + 1
    phase := .clientWait }

/-- Closing a descriptor removes it from the epoll sets. -/
def Worker.close (fd : Fd) (w : Worker) : Worker :=
  { w with
    clientEpoll := w.clientEpoll.filter (·.client ≠ fd)
    upstreamEpoll := w.upstreamEpoll.filter (·.upstream ≠ fd) }

def Worker.countDown (w : Worker) : Worker := { w with connectionN := w.connectionN - 1 }

/-- The server of a selection is the one to connect to. Without one the client is dropped. -/
def Phase.selected : Option Nat → Phase
  | some i => .connecting i
  | none => .accept

def Sys.goto (s : Sys) (w : Nat) (phase : Phase) : Sys :=
  { s with workers := s.workers.modify w (Worker.goto phase) }

def Sys.withSrvs (s : Sys) (srvs : List Srv) : Sys := { s with srvs := srvs }

def Sys.connected (s : Sys) (w i : Nat) (client upstream : Fd) (now : UInt64) : Sys :=
  let p : Proxied := ⟨s.nextId, w, client, upstream, i⟩
  { s with
    srvs := s.srvs.modify i fun srv => (upstreamConnect upstream.val now srv).2
    workers := s.workers.modify w (Worker.epollAddProxyConnection p)
    pairs := p :: s.pairs
    nextId := s.nextId + 1
    attempts := i :: s.attempts }

def Sys.refused (s : Sys) (w i : Nat) (ret : Int) (now : UInt64) : Sys :=
  { s.goto w .accept with
    srvs := s.srvs.modify i fun srv => (upstreamConnect ret now srv).2
    attempts := i :: s.attempts }

/-- Teardown of `p` by worker `w`. Both descriptors are closed, so the deletions from the epoll sets
that follow find nothing. -/
def Sys.teardown (s : Sys) (w : Nat) (p : Proxied) : Sys :=
  { s with
    workers := ((s.workers.map (Worker.close p.client)).map (Worker.close p.upstream)).modify w
      Worker.countDown
    pairs := s.pairs.filter (· ≠ p)
    torn := p.id :: s.torn
    wrapped := s.wrapped || s.srvs[p.srv]?.any (·.connectionN == 0) ||
      s.workers[w]?.any (·.connectionN == 0) }

/-- An event of `p` was handled: `f` is what it does to the server, and `phase` holds the events
that remain. -/
def Sys.handled (s : Sys) (w : Nat) (p : Proxied) (phase : Phase) (ending : Ending)
    (f : Srv → Srv) : Sys :=
  let t := s.goto w phase
  (if ending = .closed then t.teardown w p else t).withSrvs (s.srvs.modify p.srv f)

/-! ## Steps -/

inductive Action
  | select (w : Nat) (c : Choice)
  | noClient (w : Nat)
  | connectOk (w : Nat) (client upstream : Fd) (now : UInt64)
  | connectFail (w : Nat) (ret : Int) (now : UInt64)
  | clientWait (w : Nat) (evs : List Proxied)
  | clientEvent (w : Nat) (now : UInt64) (buf : Nat → UInt8) (ins : List (ReadOutcome UInt8))
      (outs : List WriteOutcome)
  | upstreamWait (w : Nat) (evs : List Proxied)
  | upstreamEvent (w : Nat) (buf : Nat → UInt8) (ins : List (ReadOutcome UInt8))
      (outs : List WriteOutcome)
  | again (w : Nat)
  | checkInit (i : Nat)
  | check (i : Nat) (p : Probe)

def Action.choice : Action → Option Choice
  | .select _ c => some c
  | _ => none

/-- `maxevents` of `epoll_wait`. -/
def maxEvents : Nat := 1024

/-- What `epoll_wait` may return: each entry of the set at most once. -/
def Batch (epoll evs : List Proxied) : Prop :=
  evs.Nodup ∧ (∀ p ∈ evs, p ∈ epoll) ∧ evs.length ≤ maxEvents

instance instDecidableBatch (epoll evs : List Proxied) : Decidable (Batch epoll evs) :=
  inferInstanceAs (Decidable (_ ∧ _))

/-- Descriptors of a new pair: what is open is not given out again, and `uct_upstream_connect` takes
0 for an error. -/
def Sys.Fresh (s : Sys) (client upstream : Fd) : Prop :=
  0 < upstream ∧ client ≠ upstream ∧ client ∉ fds s.pairs ∧ upstream ∉ fds s.pairs

instance Sys.instDecidableFresh (s : Sys) (client upstream : Fd) :
    Decidable (s.Fresh client upstream) :=
  inferInstanceAs (Decidable (_ ∧ _))

/-- A step, where it is enabled. An event whose relay loop waits for an outcome has not ended. -/
def Sys.step (ring : List Point) (s : Sys) : Action → Option Sys
  | .select w c =>
      if s.phase w = some .accept then
        let r := choose ring s.srvs c
        some ((s.goto w (.selected r.1)).withSrvs r.2)
      else none
  | .noClient w => if s.phase w = some .accept then some (s.goto w .clientWait) else none
  | .connectOk w client upstream now =>
      match s.phase w with
      | some (.connecting i) =>
          if s.Fresh client upstream then some (s.connected w i client upstream now) else none
      | _ => none
  | .connectFail w ret now =>
      match s.phase w with
      | some (.connecting i) => if ret ≤ 0 then some (s.refused w i ret now) else none
      | _ => none
  | .clientWait w evs =>
      if s.phase w = some .clientWait ∧ s.workers[w]?.any (fun k => Batch k.clientEpoll evs) then
        some (s.goto w (.client evs))
      else none
  | .clientEvent w now buf ins outs =>
      match s.phase w with
      | some (.client (p :: evs)) =>
          let t := relayLoop .stream buf ins outs
          if t.ending = .pending then none
          else some (s.handled w p (.client evs) t.ending fun srv =>
            (epollProcessClientEvent now srv buf ins outs).2)
      | _ => none
  | .upstreamWait w evs =>
      if s.phase w = some (.client []) ∧ s.workers[w]?.any (fun k => Batch k.upstreamEpoll evs) then
        some (s.goto w (.upstream evs))
      else none
  | .upstreamEvent w buf ins outs =>
      match s.phase w with
      | some (.upstream (p :: evs)) =>
          let t := relayLoop .stream buf ins outs
          if t.ending = .pending then none
          else some (s.handled w p (.upstream evs) t.ending fun srv =>
            (epollProcessUpstreamEvent srv buf ins outs).2)
      | _ => none
  | .again w => if s.phase w = some (.upstream []) then some (s.goto w .accept) else none
  | .checkInit i => some (s.withSrvs (s.srvs.modify i Srv.checkInit))
  | .check i p => some (s.withSrvs (s.srvs.modify i (Srv.checkTcpCycle p)))

def Sys.run (ring : List Point) (s : Sys) (as : List Action) : Option Sys :=
  as.foldlM (Sys.step ring) s

end Umicat.Proxy
