import Umicat.Text.Number
import Umicat.Upstream.HashRing

/-!
# Addresses as texts

The buffers for the port of a server (`uct_upstream_connect` and the `get_conn` functions) and for
the keys of its ring points (`uct_upstream_init_hash_ring`). Behind the end of a buffer stands other
memory.
-/

namespace Umicat.Upstream

open Umicat.Base

/-- `UCT_INET_PORTSTRLEN`: `sizeof("65535")`. -/
def inetPortstrlen : Nat := (ascii "65535").length + 1

/-- `UCT_INET6_ADDRSTRLEN`. -/
def inet6Addrstrlen : Nat := (ascii "ffff:ffff:ffff:ffff:ffff:ffff:255.255.255.255").length + 1

/-- `uct_itoa(srv->upstream_port, upstream_port, 10)`. The argument is converted to `int`. -/
def putPort (s : Srv) (str : Nat → UInt8) : Option (Nat → UInt8) :=
  Text.itoa s.upstreamPort.toInt64.toInt32 str 10

/-- `memset` and `sprintf` of `hash_key`. -/
def putKey (s : Srv) (j : Nat) (str : Nat → UInt8) : Nat → UInt8 :=
  store (store str 0 (List.replicate (inet6Addrstrlen + 10) 0)) 0 (hashKey s j ++ [0])

end Umicat.Upstream
