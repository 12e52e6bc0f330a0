import Umicat.Base.Ledger
import Umicat.Proxy.System

/-!
# From the accepted client to the end of the pair

The TCP proxy together with the loop of the acceptor (`uct_master_thread_cycle`). Every connection has
a socket and a pool of its own, from `uct_connection_init` on. A client waits in the listening pool, is
taken by a worker, and then is dropped or becomes one half of a pair. The calls that open, use and
close sockets and pools are recorded beside the steps.

A pool is named by a number that no other pool ever has, so that the use of a pool behind its end
cannot be mistaken for the use of a later one. Registration with the epoll sets and allocations do not
fail here, and an event is handled in one step, the teardown that it may end with included. No
connection to a server gets descriptor 0, which `uct_upstream_connect` takes for a failure and leaves
open.
-/

namespace Umicat.Proxy

open Umicat.Base
open Umicat.Relay
open Umicat.Upstream

inductive Resource
  | socket (fd : Fd)
  | pool (id : Nat)
deriving Repr, DecidableEq

/-- `uct_connection_t` of a client. -/
structure Client where
  fd : Fd
  pool : Nat
deriving Repr, DecidableEq

def Client.resources (c : Client) : List Resource := [.socket c.fd, .pool c.pool]

/-- The proxy, the clients that wait, the oldest first, the clients that workers have taken and not
yet dropped or paired, and the pools of the client and of the upstream connection of every pair that
there ever was. -/
structure Life where
  sys : Sys
  queue : List Client
  held : List (Nat × Client)
  pools : Nat → Nat × Nat
  nextPool : Nat

def Life.init (srvs : List Srv) (n : Nat) : Life where
  sys := .init srvs n
  queue := []
  held := []
  pools := fun _ => (0, 0)
  nextPool := 0

def Life.heldBy (l : Life) (w : Nat) : Option Client := l.held.lookup w

def Life.pairResources (l : Life) (p : Proxied) : List Resource :=
  [.socket p.client, .pool (l.pools p.id).1, .socket p.upstream, .pool (l.pools p.id).2]

/-- What is open. -/
def Life.resources (l : Life) : List Resource :=
  l.queue.flatMap Client.resources ++ (l.held.flatMap fun h => h.2.resources) ++
    l.sys.pairs.flatMap l.pairResources

/-! ## Steps -/

inductive LifeAction
  | accept (fd : Fd)
  | take (w : Nat)
  | select (w : Nat) (c : Choice)
  | connectOk (w : Nat) (upstream : Fd) (now : UInt64)
  | connectFail (w : Nat) (ret : Int) (now : UInt64)
  | other (a : Action)

/-- The actions of a worker that has taken no client, and of the checker. -/
def Life.free (l : Life) : Action → Bool
  | .select _ _ => false
  | .connectOk _ _ _ _ => false
  | .connectFail _ _ _ => false
  | .noClient w => (l.heldBy w).isNone
  | _ => true

/-- The client that worker `w` has taken is gone. -/
def Life.release (l : Life) (w : Nat) : Life := { l with held := l.held.filter (·.1 ≠ w) }

def Life.withSys (l : Life) (s : Sys) : Life := { l with sys := s }

/-- The client that worker `w` has taken is paired with a new upstream connection. -/
def Life.paired (l : Life) (w : Nat) (c : Client) (s : Sys) : Life :=
  { (l.release w).withSys s with
    pools := Function.update l.pools l.sys.nextId (c.pool, l.nextPool)
    nextPool := l.nextPool + 1 }

/-- A step, where it is enabled. The kernel gives out no descriptor that is open. -/
def Life.step (ring : List Point) (l : Life) : LifeAction → Option Life
  | .accept fd =>
      if .socket fd ∈ l.resources then none
      else some { l with queue := l.queue ++ [⟨fd, l.nextPool⟩], nextPool := l.nextPool + 1 }
  | .take w =>
      match l.queue, l.heldBy w with
      | c :: queue, none =>
          if l.sys.phase w = some .accept then
            some { l with queue := queue, held := (w, c) :: l.held }
          else none
      | _, _ => none
  | .select w c =>
      match l.heldBy w, l.sys.step ring (.select w c) with
      | some _, some s =>
          -- without a server the client is dropped
          if (choose ring l.sys.srvs c).1 = none then some ((l.release w).withSys s)
          else some (l.withSys s)
      | _, _ => none
  | .connectOk w upstream now =>
      match l.heldBy w with
      | some client =>
          if .socket upstream ∈ l.resources then none
          else (l.sys.step ring (.connectOk w client.fd upstream now)).map (l.paired w client)
      | none => none
  | .connectFail w ret now =>
      match l.heldBy w with
      | some _ => (l.sys.step ring (.connectFail w ret now)).map (l.release w).withSys
      | none => none
  | .other a => if l.free a then (l.sys.step ring a).map l.withSys else none

/-! ## Calls -/

def Client.drop (c : Client) : List (Entry Resource) := c.resources.map .free

/-- The relay loop of an event of `p` uses the connections of both sides, and `p` itself, which is in
the pool of the upstream connection. -/
def Life.relayCalls (l : Life) (p : Proxied) : List (Entry Resource) :=
  (l.pairResources p).map .read

/-- A teardown closes two sockets, counts the server down, names both descriptors once more with
`epoll_ctl(EPOLL_CTL_DEL)` and destroys the pools of their connections. -/
def teardownCalls (fd fd' : Fd) (pool pool' : Nat) : List (Entry Resource) :=
  [.free (.socket fd), .free (.socket fd'), .read (.pool pool), .read (.pool pool'),
    .late (.socket fd), .late (.socket fd'), .free (.pool pool), .read (.pool pool'),
    .free (.pool pool')]

theorem books_teardownCalls {rs rs' : List Resource} {fd fd' : Fd} {pool pool' : Nat}
    (h : rs.Perm ([.socket fd, .socket fd', .pool pool, .pool pool'] ++ rs')) :
    Books rs (teardownCalls fd fd' pool pool') rs' := by
  intro hnodup
  have hperm : rs.Perm ([.socket fd, .socket fd'] ++ (.pool pool :: .pool pool' :: rs')) := h
  have hdisjoint := List.disjoint_of_nodup_append (hperm.nodup_iff.mp hnodup)
  have hclosed := (Books.freeAll _ hperm).trans
    (.readAll [.pool pool, .pool pool'] (by simp))
  have hnamed := hclosed.trans (.lateAll [.socket fd, .socket fd'] fun r hr => hdisjoint hr)
  have hfirst := (hnamed.trans (.free (.refl _))).trans (.read List.mem_cons_self)
  exact (hfirst.trans (.free (.refl _))) hnodup

/-- The teardown in the loop over client events. -/
def Life.clientTeardown (l : Life) (p : Proxied) : List (Entry Resource) :=
  teardownCalls p.client p.upstream (l.pools p.id).1 (l.pools p.id).2

/-- The teardown in the loop over upstream events. -/
def Life.upstreamTeardown (l : Life) (p : Proxied) : List (Entry Resource) :=
  teardownCalls p.upstream p.client (l.pools p.id).2 (l.pools p.id).1

def Life.otherCalls (l : Life) : Action → List (Entry Resource)
  | .clientEvent w _ buf ins outs =>
      match l.sys.phase w with
      | some (.client (p :: _)) =>
          l.relayCalls p ++
            if (relayLoop .stream buf ins outs).ending = .closed then l.clientTeardown p else []
      | _ => []
  | .upstreamEvent w buf ins outs =>
      match l.sys.phase w with
      | some (.upstream (p :: _)) =>
          l.relayCalls p ++
            if (relayLoop .stream buf ins outs).ending = .closed then l.upstreamTeardown p else []
      | _ => []
  | _ => []

/-- The calls of a step that is enabled. -/
def Life.calls (ring : List Point) (l : Life) : LifeAction → List (Entry Resource)
  | .accept fd => [.alloc (.socket fd), .alloc (.pool l.nextPool)]
  | .take _ =>
      match l.queue with
      | c :: _ => [.read (.pool c.pool)]
      | [] => []
  | .select w c =>
      match l.heldBy w with
      | some client =>
          .read (.pool client.pool) ::
            if (choose ring l.sys.srvs c).1 = none then client.drop else []
      | none => []
  | .connectOk w upstream _ =>
      match l.heldBy w with
      | some client =>
          [.alloc (.socket upstream), .alloc (.pool l.nextPool), .read (.pool client.pool)]
      | none => []
  | .connectFail w _ _ =>
      match l.heldBy w with
      | some client => .read (.pool client.pool) :: client.drop
      | none => []
  | .other a => l.otherCalls a

/-! ## Runs -/

def Life.run (ring : List Point) (l : Life) : List LifeAction → Option Life
  | [] => some l
  | a :: as => (l.step ring a).bind fun l' => Life.run ring l' as

/-- The calls of a run, up to the first action that is not enabled. -/
def Life.trace (ring : List Point) (l : Life) : List LifeAction → List (Entry Resource)
  | [] => []
  | a :: as =>
      match l.step ring a with
      | some l' => l.calls ring a ++ Life.trace ring l' as
      | none => []

end Umicat.Proxy
