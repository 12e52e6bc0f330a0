import Umicat.Base.Ledger
import Umicat.Proxy.System

/-!
# The loop of the checker

`uct_check_tcp_cycle` with `init_srv_timer` and `uct_check_tcp` (`uct_check.c`). Every server has a
timer, and at each of its events a probe of the server begins. A probe that does not end at once waits
in the epoll set. What an event is about is found behind the pointer that it carries, and a block that
has been freed keeps its content until `malloc` gives it out again. The calls that take, use and give
back descriptors and blocks are recorded beside the steps.

Where `getaddrinfo` or an allocation fails, the code goes on with a pointer that nobody has set, and
the process is gone. The workers change the servers in between.
-/

namespace Umicat.Check

open Umicat.Base
open Umicat.Upstream

inductive Resource
  | fd (fd : Proxy.Fd)
  | block (p : Nat)
deriving Repr, DecidableEq

/-- `struct uct_check_data`. -/
structure CheckData where
  srv : Nat
  fd : Proxy.Fd
  startTime : UInt64
deriving Repr, DecidableEq

/-- An entry of the epoll set, with the pointer that its events carry. -/
structure Registration where
  fd : Proxy.Fd
  ptr : Nat
  oneshot : Bool
deriving Repr, DecidableEq

def Registration.resources (r : Registration) : List Resource := [.fd r.fd, .block r.ptr]

inductive Phase
  | create
  | init
  | loop
  | stopped
deriving Repr, DecidableEq

/-- `timers` are the `timerfd` of the servers so far. `batch` are the events that `epoll_wait` has
returned and the loop has not come to yet; the loop sees only their pointers. `kept` is what the
checker holds and never gives back. Behind a crash there is no step, neither here nor of the
workers. -/
structure Checker where
  phase : Phase
  srvs : List Srv
  timers : List Proxy.Fd
  heap : Nat → CheckData
  registered : List Registration
  batch : List Registration
  kept : List Resource
  crashed : Bool

def Checker.start (srvs : List Srv) (heap : Nat → CheckData) : Checker where
  phase := .create
  srvs := srvs
  timers := []
  heap := heap
  registered := []
  batch := []
  kept := []
  crashed := false

/-- The registrations of the timers. -/
def Checker.clocks (c : Checker) : List Registration := c.registered.filter (!·.oneshot)

/-- The probes that have begun and not ended. -/
def Checker.pending (c : Checker) : List Registration :=
  (c.batch ++ c.registered).filter (·.oneshot)

/-- What the checker holds. -/
def Checker.resources (c : Checker) : List Resource :=
  c.kept ++ (c.pending ++ c.clocks).flatMap Registration.resources

/-! ## `uct_check_tcp` -/

/-- What comes of one address of the server. -/
inductive Attempt
  | noSocket
  | connecting (fd : Proxy.Fd)
  | connected (fd : Proxy.Fd)
  | disconnected (fd : Proxy.Fd)
deriving Repr, DecidableEq

/-- The return value: a descriptor, `UCT_CHECK_TCP_CONNECTED` or `UCT_CHECK_TCP_DISCONNECTED`. -/
def checkTcp : List Attempt → Int
  | [] => -2
  | .noSocket :: as => checkTcp as
  | .connecting fd :: _ => fd.val
  | .connected _ :: _ => 0
  | .disconnected _ :: _ => -2

def checkTcpCalls : List Attempt → List (Entry Resource)
  | [] => []
  | .noSocket :: as => checkTcpCalls as
  | .connecting fd :: _ => [.alloc (.fd fd)]
  | .connected fd :: _ => [.alloc (.fd fd), .free (.fd fd)]
  | .disconnected fd :: _ => [.alloc (.fd fd), .free (.fd fd)]

/-- The socket that it leaves open. -/
def opened : List Attempt → List Resource
  | [] => []
  | .noSocket :: as => opened as
  | .connecting fd :: _ => [.fd fd]
  | .connected _ :: _ => []
  | .disconnected _ :: _ => []

/-! ## Steps -/

/-- What the system answers while one event is handled: `list` of `getaddrinfo`, which comes behind
the allocation of the text of the port, and `ptr` of `malloc`. -/
structure Answers where
  readOk : Bool
  list : Option Nat
  attempts : List Attempt
  ptr : Option Nat
  now : UInt64
  added : Bool
  err : Int
deriving Repr, DecidableEq

inductive Action
  | create (fd : Option Proxy.Fd)
  | addTimer (fd : Option Proxy.Fd) (settime : Bool) (ptr : Option Nat) (added : Bool)
  | interrupted
  | waitError
  | wait (evs : List Registration)
  | handle (a : Answers)
  | passive (e : Event)

/-- The initialisation loop goes on up to the last server. -/
def Checker.next (c : Checker) : Phase :=
  if c.timers.length < c.srvs.length then .init else .loop

/-- `epoll_create`. -/
def Checker.create (c : Checker) : Option Proxy.Fd → Checker
  | some fd => { c with phase := c.next, kept := .fd fd :: c.kept }
  | none => { c with phase := .stopped }

def Checker.crash (c : Checker) : Checker := { c with phase := .stopped, crashed := true }

/-- One round of the initialisation loop. -/
def Checker.addTimer (c : Checker) (fd : Option Proxy.Fd) (settime : Bool) (ptr : Option Nat)
    (added : Bool) : Checker :=
  let i := c.timers.length
  let c := { c with srvs := c.srvs.modify i Srv.checkInit }
  match fd with
  | none => { c with phase := .stopped }
  | some fd =>
      let c := { c with timers := c.timers ++ [fd] }
      if settime then
        match ptr with
        | none => Checker.crash { c with kept := .fd fd :: c.kept }
        | some ptr =>
            let c := { c with
              heap := Function.update c.heap ptr { c.heap ptr with srv := i, fd := fd } }
            if added then
              { c with registered := c.registered ++ [⟨fd, ptr, false⟩], phase := c.next }
            else { c with phase := .stopped, kept := .fd fd :: .block ptr :: c.kept }
      else { c with phase := .stopped, kept := .fd fd :: c.kept }

theorem toNat_mod_lt (ret : Int) : ret.toNat % 2 ^ 31 < 2 ^ 31 := Nat.mod_lt _ (by decide)

/-- The descriptor that `uct_check_tcp` returns. -/
def asFd (ret : Int) : Proxy.Fd := ⟨ret.toNat % 2 ^ 31, toNat_mod_lt ret⟩

/-- The event of a timer. Descriptor 0 counts as a connection, and nothing closes it. The list of
addresses is not freed. -/
def Checker.timerEvent (c : Checker) (srv : Nat) (a : Answers) : Checker :=
  if a.readOk then
    match a.list with
    | none => c.crash
    | some list =>
        let ret := checkTcp a.attempts
        let c := { c with
          srvs := c.srvs.modify srv (Srv.checkTcpCycle (.timer ret))
          kept := .block list :: c.kept }
        if ret > 0 then
          let fd := asFd ret
          match a.ptr with
          | none => Checker.crash { c with kept := .fd fd :: c.kept }
          | some ptr =>
              let c := { c with heap := Function.update c.heap ptr ⟨srv, fd, a.now⟩ }
              if a.added then { c with registered := c.registered ++ [⟨fd, ptr, true⟩] }
              else { c with phase := .stopped, kept := .fd fd :: .block ptr :: c.kept }
        else { c with kept := opened a.attempts ++ c.kept }
  else { c with phase := .stopped }

/-- The event of a connection. The kernel drops the registrations of a descriptor that is closed. -/
def Checker.connectEvent (c : Checker) (data : CheckData) (a : Answers) : Checker :=
  { c with
    srvs := c.srvs.modify data.srv (Srv.checkTcpCycle (.event a.err a.now data.startTime))
    registered := c.registered.filter (·.fd ≠ data.fd) }

/-- `check_data->srv->timerfd == check_data->fd`. -/
def Checker.isTimer (c : Checker) (data : CheckData) : Bool := c.timers[data.srv]? == some data.fd

def Checker.handle (c : Checker) (r : Registration) (a : Answers) : Checker :=
  let data := c.heap r.ptr
  if c.isTimer data then c.timerEvent data.srv a else c.connectEvent data a

def isCheck : Event → Bool
  | .check _ _ _ => true
  | _ => false

/-- A step, where it is enabled. The kernel reports each of the registrations at most once in a
batch, and a one-shot registration never again. -/
def Checker.step (ring : List Point) (c : Checker) : Action → Option Checker
  | .create fd => if c.phase = .create then some (c.create fd) else none
  | .addTimer fd settime ptr added =>
      if c.phase = .init then some (c.addTimer fd settime ptr added) else none
  | .interrupted => if c.phase = .loop ∧ c.batch = [] then some c else none
  | .waitError =>
      if c.phase = .loop ∧ c.batch = [] then some { c with phase := .stopped } else none
  | .wait evs =>
      if c.phase = .loop ∧ c.batch = [] ∧ evs.Nodup ∧ (∀ r ∈ evs, r ∈ c.registered) ∧
          evs.length ≤ c.srvs.length <<< 1 then
        some { c with
          registered := c.registered.filter fun r => !(r.oneshot && evs.contains r)
          batch := evs }
      else none
  | .handle a =>
      match c.phase, c.batch with
      | .loop, r :: batch => some (Checker.handle { c with batch := batch } r a)
      | _, _ => none
  | .passive e =>
      if isCheck e ∨ c.crashed then none else some { c with srvs := after ring c.srvs e }

/-! ## Calls -/

/-- The block that `malloc` gives out, if it does. -/
def mallocCalls (ptr : Option Nat) : List (Entry Resource) := ptr.toList.map fun p => .alloc (.block p)

def timerCalls (a : Answers) : List (Entry Resource) :=
  match a.readOk, a.list with
  | true, some list =>
      .alloc (.block list) :: (checkTcpCalls a.attempts ++
        if checkTcp a.attempts > 0 then mallocCalls a.ptr else [])
  | _, _ => []

def Checker.handleCalls (c : Checker) (r : Registration) (a : Answers) : List (Entry Resource) :=
  let data := c.heap r.ptr
  [.read (.block r.ptr), .read (.fd data.fd)] ++
    if c.isTimer data then timerCalls a else [.free (.fd data.fd), .free (.block r.ptr)]

/-- The calls of a step that is enabled. -/
def Checker.calls (c : Checker) : Action → List (Entry Resource)
  | .create (some fd) => [.alloc (.fd fd)]
  | .addTimer (some fd) true ptr _ => .alloc (.fd fd) :: mallocCalls ptr
  | .addTimer (some fd) false _ _ => [.alloc (.fd fd)]
  | .handle a =>
      match c.batch with
      | r :: _ => c.handleCalls r a
      | [] => []
  | _ => []

/-! ## Runs -/

def Checker.run (ring : List Point) (c : Checker) : List Action → Option Checker
  | [] => some c
  | a :: as => (c.step ring a).bind fun c' => Checker.run ring c' as

/-- The calls of a run, up to the first action that is not enabled. -/
def Checker.trace (ring : List Point) (c : Checker) : List Action → List (Entry Resource)
  | [] => []
  | a :: as =>
      match c.step ring a with
      | some c' => c.calls a ++ Checker.trace ring c' as
      | none => []

end Umicat.Check
