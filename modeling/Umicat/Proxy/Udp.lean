import Umicat.Proxy.Lifecycle

/-!
# The UDP proxy

The loop of the workers in UDP mode (`uct_worker_thread_cycle_udp`) with the handling of upstream
events (`uct_epoll_process_events_udp`). Every datagram that a worker receives opens a session of its
own: a socket back to the client and a socket to an upstream server, with a pool each. The session
ends when the server sends an empty datagram. No checker runs in this mode. Allocations do not fail
here.

`uct_upstream_get_connetion` may yield no connection; the worker then reads through a null pointer,
and the process is gone. `epoll_wait` may fail; its -1 is a large number in the comparison with the
unsigned index, the loop follows pointers that nobody has written, and the process is gone as well.
-/

namespace Umicat.Proxy

open Umicat.Base
open Umicat.Relay
open Umicat.Upstream

/-- A `uct_proxy_t` of this mode, with the worker that has it. Pools are named by their addresses. -/
structure Session where
  worker : Nat
  srv : Nat
  back : Fd
  backPool : Nat
  upstream : Fd
  upstreamPool : Nat
deriving Repr, DecidableEq

def Session.resources (s : Session) : List Resource :=
  [.socket s.upstream, .socket s.back, .pool s.upstreamPool, .pool s.backPool]

/-- Where a worker is. `cli` is the pool of the connection for the datagram itself. -/
inductive UdpPhase
  | receive
  | received (cli : Nat) (back : Fd) (backPool : Nat)
  | connecting (cli : Nat) (back : Fd) (backPool : Nat) (srv : Nat)
  | serving (cli : Nat)
  | events (cli : Nat) (evs : List Session)
  | ended (cli : Nat)
deriving Repr, DecidableEq

def UdpPhase.evs : UdpPhase → List Session
  | .events _ evs => evs
  | _ => []

/-- What the worker holds beside its sessions. -/
def UdpPhase.held : UdpPhase → List Resource
  | .receive => []
  | .received cli back backPool => [.pool cli, .socket back, .pool backPool]
  | .connecting cli back backPool _ => [.pool cli, .socket back, .pool backPool]
  | .serving cli => [.pool cli]
  | .events cli _ => [.pool cli]
  | .ended cli => [.pool cli]

/-- The worker's own `uct_cycle_t`, with the number of sessions that it has torn down. -/
structure UdpWorker where
  connectionN : UInt64
  torn : Nat
  upstreamEpoll : List Session
  phase : UdpPhase
deriving Repr, DecidableEq

structure Udp where
  srvs : List Srv
  workers : List UdpWorker
  sessions : List Session
  crashed : Bool
deriving Repr, DecidableEq

def Udp.init (srvs : List Srv) (n : Nat) : Udp where
  srvs := srvs
  workers := List.replicate n ⟨0, 0, [], .receive⟩
  sessions := []
  crashed := false

def Udp.phase (u : Udp) (w : Nat) : Option UdpPhase := u.workers[w]?.map UdpWorker.phase

/-- Number of sessions that are open to server `i`. -/
def Udp.openTo (u : Udp) (i : Nat) : Nat := u.sessions.countP (·.srv = i)

/-- What is open. -/
def Udp.resources (u : Udp) : List Resource :=
  (u.workers.flatMap fun k => k.phase.held) ++ u.sessions.flatMap Session.resources

/-! ## Operations -/

def UdpWorker.goto (phase : UdpPhase) (k : UdpWorker) : UdpWorker := { k with phase := phase }

/-- `uct_epoll_add_proxy_connection_udp`, whose failure the worker does not see. -/
def UdpWorker.epollAddProxyConnectionUdp (s : Session) (added : Bool) (k : UdpWorker) : UdpWorker :=
  if added then { k with upstreamEpoll := s :: k.upstreamEpoll } else k

/-- Closing a descriptor removes it from the epoll sets. -/
def UdpWorker.close (fd : Fd) (k : UdpWorker) : UdpWorker :=
  { k with upstreamEpoll := k.upstreamEpoll.filter (·.upstream ≠ fd) }

def UdpWorker.countDown (k : UdpWorker) : UdpWorker :=
  { k with connectionN := k.connectionN - 1, torn := k.torn + 1 }

def Udp.goto (u : Udp) (w : Nat) (phase : UdpPhase) : Udp :=
  { u with workers := u.workers.modify w (UdpWorker.goto phase) }

def Udp.crash (u : Udp) (srvs : List Srv) : Udp := { u with srvs := srvs, crashed := true }

/-- A datagram has come, and the socket back to the client is opened. Without one the worker ends. -/
def Udp.received (u : Udp) (w cli : Nat) : Option (Fd × Nat) → Udp
  | some (back, backPool) => u.goto w (.received cli back backPool)
  | none => u.goto w (.ended cli)

def Udp.selected (u : Udp) (w cli : Nat) (back : Fd) (backPool : Nat) (srvs : List Srv) :
    Option Nat → Udp
  | some i => { u.goto w (.connecting cli back backPool i) with srvs := srvs }
  | none => u.crash srvs

/-- A new session `s` of worker `w`. -/
def Udp.connected (u : Udp) (w cli : Nat) (s : Session) (now : UInt64) (added : Bool) : Udp :=
  { u with
    srvs := u.srvs.modify s.srv fun srv => (upstreamConnect s.upstream.val now srv).2
    workers := u.workers.modify w fun k =>
      (k.epollAddProxyConnectionUdp s added).goto (.serving cli)
    sessions := s :: u.sessions }

def Udp.teardown (u : Udp) (w : Nat) (s : Session) : Udp :=
  { u with
    workers := (u.workers.map (UdpWorker.close s.upstream)).modify w UdpWorker.countDown
    sessions := u.sessions.filter (· ≠ s) }

/-- An event of `s` was handled, and `evs` remain. -/
def Udp.handled (u : Udp) (w cli : Nat) (s : Session) (evs : List Session) (ending : Ending)
    (f : Srv → Srv) : Udp :=
  let t := u.goto w (.events cli evs)
  { if ending = .closed then t.teardown w s else t with srvs := u.srvs.modify s.srv f }

/-! ## Steps -/

inductive UdpAction
  | receive (w cli : Nat) (back : Option (Fd × Nat))
  | select (w : Nat) (c : Choice)
  | connectOk (w : Nat) (upstream : Fd) (pool : Nat) (now : UInt64) (added : Bool)
  | connectFail (w : Nat) (ret : Int) (now : UInt64)
  | wait (w : Nat) (evs : List Session)
  | waitFail (w : Nat)
  | event (w : Nat) (buf : Nat → UInt8) (ins : List (ReadOutcome UInt8)) (outs : List WriteOutcome)
  | finish (w : Nat)

def UdpAction.choice : UdpAction → Option Choice
  | .select _ c => some c
  | _ => none

/-- A step of a process that is alive, where it is enabled. -/
def Udp.alive (ring : List Point) (u : Udp) : UdpAction → Option Udp
  | .receive w cli back =>
      if u.phase w = some .receive then some (u.received w cli back) else none
  | .select w c =>
      match u.phase w with
      | some (.received cli back backPool) =>
          let r := choose ring u.srvs c
          some (u.selected w cli back backPool r.2 r.1)
      | _ => none
  | .connectOk w upstream pool now added =>
      match u.phase w with
      | some (.connecting cli back backPool i) =>
          if 0 < upstream.val then
            some (u.connected w cli ⟨w, i, back, backPool, upstream, pool⟩ now added)
          else none
      | _ => none
  | .connectFail w ret now =>
      match u.phase w with
      | some (.connecting _ _ _ i) =>
          if ret ≤ 0 then
            some (u.crash (u.srvs.modify i fun srv => (upstreamConnect ret now srv).2))
          else none
      | _ => none
  | .wait w evs =>
      match u.phase w with
      | some (.serving cli) =>
          if evs.Nodup ∧ evs.length ≤ maxEvents ∧
              u.workers[w]?.any (fun k => evs.all k.upstreamEpoll.contains) then
            some (u.goto w (.events cli evs))
          else none
      | _ => none
  | .waitFail w =>
      match u.phase w with
      | some (.serving _) => some (u.crash u.srvs)
      | _ => none
  | .event w buf ins outs =>
      match u.phase w with
      | some (.events cli (s :: evs)) =>
          let t := relayLoop .dgram buf ins outs
          if t.ending = .pending then none
          else some (u.handled w cli s evs t.ending fun srv => (epollProcessEventUdp srv buf ins outs).2)
      | _ => none
  | .finish w =>
      match u.phase w with
      | some (.events _ []) => some (u.goto w .receive)
      | _ => none

def Udp.step (ring : List Point) (u : Udp) (a : UdpAction) : Option Udp :=
  if u.crashed then none else u.alive ring a

/-! ## Calls -/

def Session.teardownCalls (s : Session) : List (Entry Resource) :=
  Proxy.teardownCalls s.upstream s.back s.upstreamPool s.backPool

/-- The calls of a step that is enabled. -/
def Udp.calls (u : Udp) : UdpAction → List (Entry Resource)
  | .receive _ cli back =>
      .alloc (.pool cli) ::
        match back with
        | some (fd, backPool) => [.alloc (.socket fd), .alloc (.pool backPool)]
        | none => []
  | .select w _ =>
      match u.phase w with
      | some (.received cli _ _) => [.read (.pool cli)]
      | _ => []
  | .connectOk _ upstream pool _ _ =>
      [.alloc (.socket upstream), .alloc (.pool pool), .read (.socket upstream), .read (.pool pool)]
  | .connectFail _ _ _ => []
  | .wait _ _ => []
  | .waitFail _ => []
  | .event w buf ins outs =>
      match u.phase w with
      | some (.events _ (s :: _)) =>
          s.resources.map .read ++
            if (relayLoop .dgram buf ins outs).ending = .closed then s.teardownCalls else []
      | _ => []
  | .finish w =>
      match u.phase w with
      | some (.events cli []) => [.free (.pool cli)]
      | _ => []

/-! ## Runs -/

def Udp.run (ring : List Point) (u : Udp) : List UdpAction → Option Udp
  | [] => some u
  | a :: as => (u.step ring a).bind fun u' => Udp.run ring u' as

/-- The calls of a run, up to the first action that is not enabled. -/
def Udp.trace (ring : List Point) (u : Udp) : List UdpAction → List (Entry Resource)
  | [] => []
  | a :: as =>
      match u.step ring a with
      | some u' => u.calls a ++ Udp.trace ring u' as
      | none => []

end Umicat.Proxy
