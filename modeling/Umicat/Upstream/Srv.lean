import Mathlib.Data.List.Basic
import Umicat.Base.Word

/-!
# Upstream servers

The record of one upstream server and the values the configuration parser gives it
(`uct_upstream.h`, `uct_conf_parse_upstream`). `uct_uint_t` is a 64-bit machine word and wraps.
`uct_int_t` is signed: its overflow is undefined in C, and the weights are read from 32-bit
integers, so signed fields are integers.
-/

namespace Umicat.Upstream

/-- `uct_upstream_srv_s`, less the lock, the timer and the probe settings that only start timers. -/
structure Srv where
  upstreamIp : List UInt8
  upstreamPort : UInt64
  weight : Int
  currentWeight : Int
  effectiveWeight : Int
  connectionN : UInt64
  traffic : UInt64
  trafficWindow : UInt64
  lastSendTime : UInt64
  fails : UInt64
  maxFails : UInt64
  failTimeout : UInt64
  lastFailTime : UInt64
  isDown : Bool
  isFallback : Bool
  checkTimeout : UInt64
  checkFall : UInt64
  checkRise : UInt64
  checkFails : UInt64
  checkSuccesses : UInt64
deriving Repr, DecidableEq, Inhabited

/-- The `check` object of a server entry. Every number is a cJSON `valueint`, a C `int`. -/
structure CheckConf where
  timeout : Int32
  fall : Int32
  rise : Int32
deriving Repr, DecidableEq

structure Conf where
  upstreamIp : List UInt8
  upstreamPort : Int32
  weight : Int32
  maxFails : Int32
  failTimeout : Int32
  isFallback : Int32
  trafficWindow : Int32
  check : Option CheckConf
deriving Repr, DecidableEq

/-- Conversion of a C `int` to `uct_uint_t`: sign extension, then reading the bits as unsigned. -/
def toUInt (n : Int32) : UInt64 := n.toInt64.toUInt64

/-- What `uct_conf_parse_upstream` stores for one entry. `slot` is the memory that
`uct_array_push` returned: `last_send_time` and the probe counters are left as found there. -/
def confParseUpstream (slot : Srv) (c : Conf) : Srv :=
  { slot with
    upstreamIp := c.upstreamIp
    upstreamPort := toUInt c.upstreamPort
    weight := c.weight.toInt
    maxFails := toUInt c.maxFails
    failTimeout := toUInt c.failTimeout
    isFallback := c.isFallback != 0
    trafficWindow := toUInt c.trafficWindow
    traffic := 0
    lastFailTime := 0
    fails := 0
    isDown := false
    effectiveWeight := c.weight.toInt
    currentWeight := 0
    connectionN := 0
    checkTimeout := (c.check.map (toUInt ·.timeout)).getD 0
    checkFall := (c.check.map (toUInt ·.fall)).getD 0
    checkRise := (c.check.map (toUInt ·.rise)).getD 0 }

/-- The server list after parsing. `mem i` is the memory of slot `i` of the array. -/
def confParse (mem : Nat → Srv) (cs : List Conf) : List Srv :=
  cs.mapIdx fun i c => confParseUpstream (mem i) c

/-- A server is skipped by a selection at `now` while it is down, may be replaced by another one,
and failed less than `fail_timeout` ago. The subtraction is unsigned. -/
def Srv.skipped (now : UInt64) (s : Srv) : Bool :=
  s.isDown && s.isFallback && decide (now - s.lastFailTime < s.failTimeout)

/-- A down server whose time-out is over gets weight 1 back, so that it is tried again. -/
def Srv.bump (now : UInt64) (s : Srv) : Srv :=
  if now - s.lastFailTime > s.failTimeout ∧ s.isDown ∧ s.effectiveWeight = 0 then
    { s with effectiveWeight := s.effectiveWeight + 1 }
  else s

end Umicat.Upstream
