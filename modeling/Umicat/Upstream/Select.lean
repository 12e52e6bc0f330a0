import Umicat.Base.Scan
import Umicat.Upstream.Srv

/-!
# Choosing an upstream server

The selection loops of `uct_upstream.c`. Each takes the server list, the clock readings it makes and
the random number it draws, and returns the chosen index with the updated list.
-/

namespace Umicat.Upstream

open Umicat.Base

/-- `UCT_MAX_INT_T_VALUE`, the starting minimum of two of the loops. -/
def maxIntT : UInt64 := 9223372036854775807

/-! ## Round robin -/

/-- First loop of `uct_upstream_round_robin_get` on one server. -/
def Srv.credit (now : UInt64) (s : Srv) : Srv :=
  if s.skipped now then s
  else
    let s := s.bump now
    { s with currentWeight := s.currentWeight + s.effectiveWeight }

def Srv.share (now : UInt64) (s : Srv) : Int :=
  if s.skipped now then 0 else (s.bump now).effectiveWeight

def totalWeight (now : UInt64) (srvs : List Srv) : Int := (srvs.map (Srv.share now)).sum

/-- Second loop: the first server of greatest positive credit, or 0. -/
def roundRobinBest (now : UInt64) (srvs : List Srv) : Nat :=
  scan (fun s => !s.skipped now) (·.currentWeight) (· > ·) srvs 0 0 0

def Srv.pay (total : Int) (s : Srv) : Srv := { s with currentWeight := s.currentWeight - total }

/-- `uct_upstream_round_robin_get` with the clock at `now`. -/
def upstreamRoundRobinGet (now : UInt64) (srvs : List Srv) : Nat × List Srv :=
  let total := totalWeight now srvs
  let srvs := srvs.map (Srv.credit now)
  let best := roundRobinBest now srvs
  (best, srvs.modify best (Srv.pay total))

/-! ## Least connections -/

def Srv.countUp (s : Srv) : Srv := { s with connectionN := s.connectionN + 1 }

/-- `uct_upstream_least_conn_get`: the first server of least `connection_n`, which is counted up
at once. -/
def upstreamLeastConnGet (now : UInt64) (srvs : List Srv) : Nat × List Srv :=
  let best := scan (fun s => !s.skipped now) (·.connectionN) (· < ·) srvs 0 0 maxIntT
  (best, srvs.modify best Srv.countUp)

/-! ## Random -/

def Srv.retry (now : UInt64) (s : Srv) : Srv :=
  if s.skipped now then s else s.bump now

/-- Second loop: the server in whose weight the random number falls, or 0. -/
def randomBest (now : UInt64) : List Srv → Nat → Int → Nat
  | [], _, _ => 0
  | s :: srvs, i, randnum =>
      if s.skipped now then randomBest now srvs (i + 1) randnum
      else if randnum < s.effectiveWeight then i
      else randomBest now srvs (i + 1) (randnum - s.effectiveWeight)

/-- `uct_upstream_random_get`: `now` and `now'` are its two clock readings and `rand` the value of
`rand()`. There is no result when `total_weight` is 0, where the remainder traps. -/
def upstreamRandomGet (now now' : UInt64) (rand : Int) (srvs : List Srv) :
    Option (Nat × List Srv) :=
  let total := totalWeight now srvs
  let srvs := srvs.map (Srv.retry now)
  if total = 0 then none else some (randomBest now' srvs 0 (rand.tmod total), srvs)

/-! ## Heuristic -/

/-- Selection of `uct_upstream_heuristic_get_conn`: the first server of least `traffic` that is up
or may not be replaced. -/
def upstreamHeuristicGet (srvs : List Srv) : Nat :=
  scan (fun s => !(s.isDown && s.isFallback)) (·.traffic) (· < ·) srvs 0 0 maxIntT

end Umicat.Upstream
