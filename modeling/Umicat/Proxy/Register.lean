import Umicat.Proxy.System

/-!
# Registration of a pair

`uct_epoll_add_proxy_connection` with the outcomes of its two calls of `epoll_ctl`, as
`uct_worker_thread_cycle` uses it, and the rest of that round of the worker's loop.
-/

namespace Umicat.Proxy

open Umicat.Relay
open Umicat.Upstream

/-- `uct_epoll_add_proxy_connection`: the result and the epoll sets. `first` and `second` tell
whether the calls of `epoll_ctl` succeed; behind a failure there is no second call. -/
def Worker.tryEpollAddProxyConnection (first second : Bool) (p : Proxied) (k : Worker) :
    Bool × Worker :=
  if first then
    let k := { k with clientEpoll := p :: k.clientEpoll }
    if second then (true, { k with upstreamEpoll := p :: k.upstreamEpoll }) else (false, k)
  else (false, k)

/-- `uct_worker_thread_cycle` does not look at the result. -/
def Worker.startProxy (first second : Bool) (p : Proxied) (k : Worker) : Worker :=
  let k := (k.tryEpollAddProxyConnection first second p).2
  { k with connectionN := k.connectionN + 1, phase := .clientWait }

/-- The upstream connection was opened and the pair is registered, as far as the calls succeed. -/
def Sys.paired (s : Sys) (w i : Nat) (client upstream : Fd) (now : UInt64) (first second : Bool) :
    Sys :=
  let p : Proxied := ⟨s.nextId, w, client, upstream, i⟩
  { s with
    srvs := s.srvs.modify i fun srv => (upstreamConnect upstream.val now srv).2
    workers := s.workers.modify w (Worker.startProxy first second p)
    pairs := p :: s.pairs
    nextId := s.nextId + 1
    attempts := i :: s.attempts }

/-- With both calls a success this is the step of the proxy. -/
theorem paired_eq_connected (s : Sys) (w i : Nat) (client upstream : Fd) (now : UInt64) :
    s.paired w i client upstream now true true = s.connected w i client upstream now :=
  rfl

/-! ## Runs with failed registrations -/

inductive Turn
  | act (a : Action)
  | start (w : Nat) (client upstream : Fd) (now : UInt64) (first second : Bool)

def Sys.turn (ring : List Point) (s : Sys) : Turn → Option Sys
  | .act a => s.step ring a
  | .start w client upstream now first second =>
      match s.phase w with
      | some (.connecting i) =>
          if s.Fresh client upstream then some (s.paired w i client upstream now first second)
          else none
      | _ => none

def Sys.turns (ring : List Point) (s : Sys) (ts : List Turn) : Option Sys :=
  ts.foldlM (Sys.turn ring) s

/-! ## The rest of the round -/

/-- An event that a worker handles, with what its socket calls report. -/
structure SocketEvent where
  pair : Proxied
  now : UInt64
  buf : Nat → UInt8
  ins : List (ReadOutcome UInt8)
  outs : List WriteOutcome

def SocketEvent.ending (e : SocketEvent) : Ending := (relayLoop .stream e.buf e.ins e.outs).ending

def SocketEvent.client (w : Nat) (e : SocketEvent) : Action := .clientEvent w e.now e.buf e.ins e.outs

def SocketEvent.upstream (w : Nat) (e : SocketEvent) : Action := .upstreamEvent w e.buf e.ins e.outs

/-- `uct_epoll_process_events` of worker `w` with the events `cs` of clients and `us` of servers, up
to the next round. -/
def processEvents (w : Nat) (cs us : List SocketEvent) : List Action :=
  .clientWait w (cs.map SocketEvent.pair) :: cs.map (SocketEvent.client w) ++
    (.upstreamWait w (us.map SocketEvent.pair) :: us.map (SocketEvent.upstream w) ++ [.again w])

/-- The pairs of the events that find the end of a stream. -/
def ended (es : List SocketEvent) : List Proxied :=
  (es.filter fun e => e.ending = .closed).map SocketEvent.pair

end Umicat.Proxy
