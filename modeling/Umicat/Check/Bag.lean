import Mathlib.Data.Multiset.AddSub
import Umicat.Check.Loop

/-!
# Probes as a bag

What the checker is for, without descriptors, pointers and events: there is a bag of probes, each of a
server and from a time on. A probe begins, and it ends once, with a result for its own server that is
judged by its own time.
-/

namespace Umicat.Check

open Umicat.Upstream

structure Bag where
  srvs : List Srv
  pending : Multiset (Nat × UInt64)

inductive Label
  | reset (i : Nat)
  | answer (i : Nat) (ret : Int)
  | begin (i : Nat) (start : UInt64)
  | finish (i : Nat) (start : UInt64) (err : Int) (now : UInt64)
  | passive (e : Event)

def Bag.step (ring : List Point) (b : Bag) : Label → Option Bag
  | .reset i => some { b with srvs := b.srvs.modify i Srv.checkInit }
  | .answer i ret => some { b with srvs := b.srvs.modify i (Srv.checkTcpCycle (.timer ret)) }
  | .begin i start => some { b with pending := (i, start) ::ₘ b.pending }
  | .finish i start err now =>
      if (i, start) ∈ b.pending then
        some ⟨b.srvs.modify i (Srv.checkTcpCycle (.event err now start)),
          b.pending.erase (i, start)⟩
      else none
  | .passive e => some { b with srvs := after ring b.srvs e }

/-! ## The loop as a bag -/

def CheckData.probe (d : CheckData) : Nat × UInt64 := (d.srv, d.startTime)

def Checker.bag (c : Checker) : Bag where
  srvs := c.srvs
  pending := ↑(c.pending.map fun r => (c.heap r.ptr).probe)

def timerLabels (srv : Nat) (a : Answers) : List Label :=
  if a.readOk ∧ a.list.isSome then
    if checkTcp a.attempts > 0 then
      if a.ptr.isSome ∧ a.added then [.begin srv a.now] else []
    else [.answer srv (checkTcp a.attempts)]
  else []

/-- What a step that is enabled means for the bag. -/
def Checker.labels (c : Checker) : Action → List Label
  | .addTimer _ _ _ _ => [.reset c.timers.length]
  | .handle a =>
      match c.batch with
      | r :: _ =>
          let data := c.heap r.ptr
          if c.isTimer data then timerLabels data.srv a
          else [.finish data.srv data.startTime a.err a.now]
      | [] => []
  | .passive e => [.passive e]
  | _ => []

/-- The labels of a run, up to the first action that is not enabled. -/
def Checker.history (ring : List Point) (c : Checker) : List Action → List Label
  | [] => []
  | a :: as =>
      match c.step ring a with
      | some c' => c.labels a ++ Checker.history ring c' as
      | none => []

end Umicat.Check
