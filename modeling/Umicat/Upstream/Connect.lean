import Umicat.Upstream.Srv

/-!
# Passive and active failure detection

What `uct_upstream_connect` does to a server after a connection attempt (passive detection), and what
`uct_check_tcp_cycle` does to it after a probe (active detection).
-/

namespace Umicat.Upstream

/-! ## Connection attempts -/

/-- `weight / max_fails` in `effective_weight -= weight / max_fails`. The division is unsigned,
since `max_fails` is. -/
def Srv.penalty (s : Srv) : Int := s.weight % 2 ^ 64 / s.maxFails.toNat

/-- The decrement of `effective_weight`: an unsigned subtraction stored in a signed field,
and 0 when it is negative. -/
def Srv.lowered (s : Srv) : Int :=
  let w := if s.maxFails ≠ 0 then (s.effectiveWeight - s.penalty).bmod (2 ^ 64) else s.effectiveWeight
  if w < 0 then 0 else w

def Srv.countFail (now : UInt64) (s : Srv) : Srv :=
  if now - s.lastFailTime > s.failTimeout then
    { s with effectiveWeight := s.lowered, lastFailTime := now, fails := 1 }
  else { s with effectiveWeight := s.lowered, fails := s.fails + 1 }

def Srv.failed (now : UInt64) (s : Srv) : Bool :=
  s.fails != 0 && decide (s.fails ≥ s.maxFails) && decide (now - s.lastFailTime ≤ s.failTimeout)

/-- Failure branch of `uct_upstream_connect`. -/
def Srv.connectFail (now : UInt64) (s : Srv) : Srv :=
  let s := s.countFail now
  if s.failed now then { s with isDown := true, effectiveWeight := 0, lastFailTime := now } else s

/-- Success branch of `uct_upstream_connect`. -/
def Srv.connectOk (s : Srv) : Srv :=
  let s := if s.isDown then { s with isDown := false, fails := 0 } else s
  let s := if s.effectiveWeight < s.weight then
    { s with effectiveWeight := s.effectiveWeight + 1 } else s
  { s with connectionN := s.connectionN + 1 }

/-- `uct_upstream_connect`, where `fd` is what opening the socket returned and `now` the clock. -/
def upstreamConnect (fd : Int) (now : UInt64) (s : Srv) : Int × Srv :=
  if fd ≤ 0 then (-1, s.connectFail now) else (fd, s.connectOk)

/-! ## Probes -/

def Srv.checkOk (s : Srv) : Srv :=
  let s := { s with checkSuccesses := s.checkSuccesses + 1 }
  if s.isDown ∧ s.checkSuccesses ≥ s.checkRise then
    { s with
      effectiveWeight := s.effectiveWeight + 1, isDown := false, fails := 0
      checkSuccesses := 0, checkFails := 0 }
  else s

/-- A failed probe: the server goes down when it is up and has enough failures. Its
`last_fail_time` is not set. -/
def Srv.checkFail (s : Srv) : Srv :=
  let s := { s with checkFails := s.checkFails + 1 }
  if !s.isDown ∧ s.checkFails ≥ s.checkFall then
    { s with
      effectiveWeight := 0, isDown := true, fails := 1
      checkFails := 0, checkSuccesses := 0 }
  else s

/-- A probe that `uct_check_tcp_cycle` handles: the return value of `uct_check_tcp` at a timer
event, or the socket error of a pending connection that began at `start`. -/
inductive Probe
  | timer (ret : Int)
  | event (err : Int) (now start : UInt64)
deriving Repr, DecidableEq

def Probe.verdict (timeout : UInt64) : Probe → Option Bool
  | .timer ret => if ret = 0 then some true else if ret = -2 then some false else none
  | .event err now start => some (err = 0 ∧ now - start < timeout)

/-- What `uct_check_tcp_cycle` does to a server on one of its events. -/
def Srv.checkTcpCycle (p : Probe) (s : Srv) : Srv :=
  match p.verdict s.checkTimeout with
  | some true => s.checkOk
  | some false => s.checkFail
  | none => s

/-- Initialisation loop of `uct_check_tcp_cycle`. -/
def Srv.checkInit (s : Srv) : Srv := { s with checkFails := 0, checkSuccesses := 0 }

end Umicat.Upstream
