import Umicat.Proxy.Lifecycle
import Umicat.Relay.Flow

/-!
# The connections behind the descriptors

The proxy as the kernel sees it. A descriptor stands for one connection from the call that opens it to
the call that closes it, and for another one as soon as its number is given out again. What `read()`
and `write()` will report on a connection belongs to the connection, and so do the bytes that were read
from it and those that it accepted.
-/

namespace Umicat.Proxy

open Umicat.Base
open Umicat.Relay
open Umicat.Upstream

structure Conn where
  ins : List (ReadOutcome UInt8)
  outs : List WriteOutcome
  received : List UInt8
  sent : List (List UInt8)
deriving Repr, DecidableEq

def Conn.new (ins : List (ReadOutcome UInt8)) (outs : List WriteOutcome) : Conn :=
  ⟨ins, outs, [], []⟩

/-- The proxy, the connections there ever were, by number, the connection behind each descriptor that
is open, and the client and upstream connection of every pair there ever was. -/
structure Net where
  life : Life
  conns : Nat → Conn
  count : Nat
  opened : Fd → Option Nat
  links : List (Nat × Nat)

def Net.init (srvs : List Srv) (n : Nat) : Net where
  life := .init srvs n
  conns := fun _ => .new [] []
  count := 0
  opened := fun _ => none
  links := []

/-- The connections that are part of a pair. -/
def Net.linked (n : Net) : List Nat := n.links.flatMap fun l => [l.1, l.2]

/-- The direction from connection `c` to connection `u`. -/
def Net.side (n : Net) (c u : Nat) : Side UInt8 :=
  ⟨(n.conns c).ins, (n.conns u).outs, (n.conns c).received, (n.conns u).sent⟩

/-! ## Calls -/

def Net.openAt (n : Net) (fd : Fd) (c : Conn) : Net :=
  { n with
    conns := Function.update n.conns n.count c
    count := n.count + 1
    opened := Function.update n.opened fd (some n.count) }

def Net.close (n : Net) (fd : Fd) : Net := { n with opened := Function.update n.opened fd none }

/-- A call on a socket. `c` is the connection that it opens, if it opens one. -/
def Net.call (c : Conn) (n : Net) : Entry Resource → Net
  | .alloc (.socket fd) => n.openAt fd c
  | .free (.socket fd) => n.close fd
  | _ => n

/-- The connection behind `fd` is changed by calls on `fd`. -/
def Net.modify (n : Net) (fd : Fd) (f : Conn → Conn) : Net :=
  match n.opened fd with
  | some k => { n with conns := Function.update n.conns k (f (n.conns k)) }
  | none => n

def Conn.read (t : Handled UInt8) (c : Conn) : Conn :=
  { c with ins := t.ins, received := c.received ++ t.read }

def Conn.write (t : Handled UInt8) (c : Conn) : Conn :=
  { c with outs := t.outs, sent := c.sent ++ t.sent }

/-- The relay loop of an event: where it reads and writes, its buffer, and what the calls report. -/
structure Transfer where
  src : Fd
  dst : Fd
  buf : Nat → UInt8
  ins : List (ReadOutcome UInt8)
  outs : List WriteOutcome

def Transfer.handled (e : Transfer) : Handled UInt8 := relayLoop .stream e.buf e.ins e.outs

/-- The transfer of a step. -/
def Life.transfer (l : Life) : LifeAction → Option Transfer
  | .other (.clientEvent w _ buf ins outs) =>
      match l.sys.phase w with
      | some (.client (p :: _)) => some ⟨p.client, p.upstream, buf, ins, outs⟩
      | _ => none
  | .other (.upstreamEvent w buf ins outs) =>
      match l.sys.phase w with
      | some (.upstream (p :: _)) => some ⟨p.upstream, p.client, buf, ins, outs⟩
      | _ => none
  | _ => none

def Net.relay (n : Net) (e : Transfer) : Net :=
  (n.modify e.src (Conn.read e.handled)).modify e.dst (Conn.write e.handled)

/-- The calls on an open descriptor report what its connection has for them. -/
def Net.reports (n : Net) (e : Transfer) : Bool :=
  ((n.opened e.src).all fun k => (n.conns k).ins = e.ins) &&
    ((n.opened e.dst).all fun k => (n.conns k).outs = e.outs)

/-- The client of a worker and the upstream connection are a pair. -/
def Net.link (n : Net) (client upstream : Fd) : Net :=
  match n.opened client, n.opened upstream with
  | some c, some u => { n with links := (c, u) :: n.links }
  | _, _ => n

/-! ## Steps -/

/-- A step of the proxy, with what the calls on the connection that it opens, if it opens one, are
going to report. -/
structure NetAction where
  act : LifeAction
  ins : List (ReadOutcome UInt8)
  outs : List WriteOutcome

def Net.transferred (n : Net) : Option Transfer → Net
  | some e => n.relay e
  | none => n

def Net.paired (n : Net) (l : Life) : LifeAction → Net
  | .connectOk w upstream _ =>
      match l.heldBy w with
      | some client => n.link client.fd upstream
      | none => n
  | _ => n

/-- What a step does to the connections: the relay loop, then the calls that open and close. -/
def Net.acts (ring : List Point) (n : Net) (a : NetAction) : Net :=
  let calls := n.life.calls ring a.act
  let c := Conn.new a.ins a.outs
  (calls.foldl (Net.call c) (n.transferred (n.life.transfer a.act))).paired n.life a.act

def Net.withLife (n : Net) (l : Life) : Net := { n with life := l }

def Net.step (ring : List Point) (n : Net) (a : NetAction) : Option Net :=
  if (n.life.transfer a.act).all n.reports then
    (n.life.step ring a.act).map (n.acts ring a).withLife
  else none

def Net.run (ring : List Point) (n : Net) : List NetAction → Option Net
  | [] => some n
  | a :: as => (n.step ring a).bind fun n' => Net.run ring n' as

end Umicat.Proxy
