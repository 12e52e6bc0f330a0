import Umicat.Base.StableSort
import Umicat.Upstream.Srv

/-!
# The consistent hash ring

Construction of the ring (`uct_upstream_init_hash_ring`) and lookup in it
(`uct_upstream_get_hash_point`). `md5_hash` is any function from C strings to words. An array index
out of range is a missing result.
-/

namespace Umicat.Upstream

open Umicat.Base

/-- `uct_upstream_ring_point_t`, with the index of its server for the pointer to it. -/
structure Point where
  hash : UInt64
  srv : Nat
deriving Repr, DecidableEq

/-- The conversion `%ld`. -/
def sprintfLd (n : Int) : List UInt8 := (toString n).toUTF8.toList

/-- `hash_key`: the text `ip:port-j`. -/
def hashKey (s : Srv) (j : Nat) : List UInt8 :=
  s.upstreamIp ++ 58 :: sprintfLd s.upstreamPort.toInt64.toInt ++ 45 :: sprintfLd j

/-- `npoints`: a signed product stored in an unsigned variable. -/
def npoints (s : Srv) : Nat := (s.weight * 160 % 2 ^ 64).toNat

def srvPoints (md5Hash : List UInt8 → UInt64) (s : Srv) (i : Nat) : List Point :=
  (List.range (npoints s)).map fun j => ⟨md5Hash (hashKey s j), i⟩

def pushPoints (md5Hash : List UInt8 → UInt64) (srvs : List Srv) : List Point :=
  srvs.zipIdx.flatMap fun (s, i) => srvPoints md5Hash s i

/-- A ring point takes 16 bytes and no object reaches `2 ^ 63` bytes: with this many points
`uct_array_push` has returned NULL. -/
def maxPoints : Nat := 2 ^ 59

/-- `uct_upstream_init_hash_ring`: the sorted points, if there is memory for them. -/
def upstreamInitHashRing (md5Hash : List UInt8 → UInt64) (srvs : List Srv) : Option (List Point) :=
  if (srvs.map npoints).sum < maxPoints then some (bubbleSort Point.hash (pushPoints md5Hash srvs))
  else none

/-- `ring->number - 1` in unsigned arithmetic. -/
def lastIndex (points : List Point) : Nat := (points.length + 2 ^ 64 - 1) % 2 ^ 64

/-- The binary search. It runs for as many rounds as `fuel` allows. -/
def searchLoop (points : List Point) (hash : UInt64) : Nat → Nat → Nat → Option Nat
  | 0, _, _ => none
  | fuel + 1, i, j =>
      if i < j then do
        let k := (i + j) % 2 ^ 64 / 2
        let p ← points[k]?
        if p.hash < hash then searchLoop points hash fuel (k + 1) j
        else searchLoop points hash fuel i k
      else some i

/-- `uct_upstream_get_hash_point`. The interval of indices halves in every round, so 65 rounds
leave none for any pair of 64-bit indices. -/
def upstreamGetHashPoint (points : List Point) (hash : UInt64) : Option Point := do
  let last := lastIndex points
  let i ← searchLoop points hash 65 0 last
  let wrap ← if i = last then points[i]?.map (decide <| ·.hash < hash) else some (decide (i > last))
  points[if wrap then 0 else i]?

/-- `uct_upstream_next_valid_point`. The inner option is NULL. -/
def upstreamNextValidPoint (srvs : List Srv) (points : List Point) (point : Point) :
    Option (Option Point) := do
  let i ← searchLoop points point.hash 65 0 (lastIndex points)
  some ((points.drop i).find? fun p => srvs[p.srv]?.any fun s => !s.isDown && s.isFallback)

/-- Selection of `uct_upstream_ip_hash_get_conn` for a client with hash `hash`. -/
def upstreamIpHashGet (srvs : List Srv) (points : List Point) (hash : UInt64) :
    Option (Option Nat) := do
  let point ← upstreamGetHashPoint points hash
  let s ← srvs[point.srv]?
  if s.isDown && s.isFallback then
    let next ← upstreamNextValidPoint srvs points point
    some (next.map (·.srv))
  else some (some point.srv)

end Umicat.Upstream
