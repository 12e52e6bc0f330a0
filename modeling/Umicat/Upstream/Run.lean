import Umicat.Upstream.Connect
import Umicat.Upstream.HashRing
import Umicat.Upstream.Select

/-!
# Runs of the balancer

The server list changes by three kinds of steps: a worker selects a server, an attempt to connect to
a server ends, a probe of a server is handled. Workers and the checker interleave freely, so a run
is any list of steps.
-/

namespace Umicat.Upstream

/-- One call of a selection function, with the clock readings, random number or client hash it
uses. -/
inductive Choice
  | roundRobin (now : UInt64)
  | ipHash (hash : UInt64)
  | leastConn (now : UInt64)
  | random (now now' : UInt64) (rand : Int)
  | heuristic
deriving Repr, DecidableEq

/-- The chosen index and the updated servers. There is no index when the selection fails; when it
traps, the process is gone and the servers are left as they were. -/
def choose (ring : List Point) (srvs : List Srv) : Choice → Option Nat × List Srv
  | .roundRobin now => let (b, srvs) := upstreamRoundRobinGet now srvs; (some b, srvs)
  | .ipHash hash => ((upstreamIpHashGet srvs ring hash).join, srvs)
  | .leastConn now => let (b, srvs) := upstreamLeastConnGet now srvs; (some b, srvs)
  | .random now now' rand =>
      match upstreamRandomGet now now' rand srvs with
      | some (b, srvs) => (some b, srvs)
      | none => (none, srvs)
  | .heuristic => (some (upstreamHeuristicGet srvs), srvs)

inductive Event
  | select (c : Choice)
  | connectOk (i : Nat) (now : UInt64)
  | connectFail (i : Nat) (now : UInt64)
  | check (i : Nat) (now : UInt64) (p : Probe)
deriving Repr, DecidableEq

def Choice.times : Choice → List UInt64
  | .roundRobin now => [now]
  | .ipHash _ => []
  | .leastConn now => [now]
  | .random now now' _ => [now, now']
  | .heuristic => []

def Event.times : Event → List UInt64
  | .select c => c.times
  | .connectOk _ now => [now]
  | .connectFail _ now => [now]
  | .check _ now _ => [now]

def Event.target : Event → Option Nat
  | .select _ => none
  | .connectOk i _ => some i
  | .connectFail i _ => some i
  | .check i _ _ => some i

/-- A step yields the index that it selected, if it is a selection. -/
def step (ring : List Point) (srvs : List Srv) : Event → Option Nat × List Srv
  | .select c => choose ring srvs c
  | .connectOk i _ => (none, srvs.modify i Srv.connectOk)
  | .connectFail i now => (none, srvs.modify i (Srv.connectFail now))
  | .check i _ p => (none, srvs.modify i (Srv.checkTcpCycle p))

/-- The servers after a step. -/
def after (ring : List Point) (srvs : List Srv) (e : Event) : List Srv := (step ring srvs e).2

def run (ring : List Point) : List Srv → List Event → List Nat × List Srv
  | srvs, [] => ([], srvs)
  | srvs, e :: es =>
      let r := step ring srvs e
      let rs := run ring r.2 es
      (r.1.toList ++ rs.1, rs.2)

theorem run_nil (ring : List Point) (srvs : List Srv) : run ring srvs [] = ([], srvs) := rfl

theorem run_cons (ring : List Point) (srvs : List Srv) (e : Event) (es : List Event) :
    run ring srvs (e :: es) = ((step ring srvs e).1.toList ++ (run ring (step ring srvs e).2 es).1,
      (run ring (step ring srvs e).2 es).2) := rfl

theorem run_append (ring : List Point) (srvs : List Srv) (es es' : List Event) :
    run ring srvs (es ++ es') =
      ((run ring srvs es).1 ++ (run ring (run ring srvs es).2 es').1,
        (run ring (run ring srvs es).2 es').2) := by
  induction es generalizing srvs with
  | nil => rfl
  | cons e es ih => simp only [List.cons_append, run, ih, List.append_assoc]

end Umicat.Upstream
