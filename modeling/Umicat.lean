import Umicat.Base.Blocks
import Umicat.Base.Buffer
import Umicat.Base.Credit
import Umicat.Base.Critical
import Umicat.Base.Double
import Umicat.Base.Fallback
import Umicat.Base.Ledger
import Umicat.Base.Lots
import Umicat.Base.Modify
import Umicat.Base.Program
import Umicat.Base.Region
import Umicat.Base.Ring
import Umicat.Base.Run
import Umicat.Base.Scan
import Umicat.Base.Splice
import Umicat.Base.StableSort
import Umicat.Base.Word
import Umicat.Check.Bag
import Umicat.Check.Loop
import Umicat.Check.Theorems.Loop
import Umicat.Config.File
import Umicat.Config.Json
import Umicat.Config.Parse
import Umicat.Config.Theorems.Address
import Umicat.Config.Theorems.File
import Umicat.Config.Theorems.Valid
import Umicat.Digest.Md5
import Umicat.Digest.Rfc1321
import Umicat.Digest.Theorems.Hash
import Umicat.Digest.Theorems.Md5
import Umicat.Json.Item
import Umicat.Json.Lemmas.Document
import Umicat.Json.Lemmas.Print
import Umicat.Json.Lemmas.RoundTrip
import Umicat.Json.Lemmas.Strings
import Umicat.Json.Lemmas.Tail
import Umicat.Json.Lemmas.Values
import Umicat.Json.Parse
import Umicat.Json.Print
import Umicat.Json.Render
import Umicat.Json.Theorems.Parse
import Umicat.Json.Theorems.Print
import Umicat.Memory.Array
import Umicat.Memory.Lemmas.Layout
import Umicat.Memory.Lemmas.Live
import Umicat.Memory.Lifetime
import Umicat.Memory.Pool
import Umicat.Memory.Theorems.Array
import Umicat.Memory.Theorems.Disjoint
import Umicat.Memory.Theorems.Growth
import Umicat.Memory.Theorems.Lifetime
import Umicat.Proxy.Lemmas.Count
import Umicat.Proxy.Lemmas.Sound
import Umicat.Proxy.Lemmas.Step
import Umicat.Proxy.Lifecycle
import Umicat.Proxy.Register
import Umicat.Proxy.Streams
import Umicat.Proxy.System
import Umicat.Proxy.Theorems.Accounting
import Umicat.Proxy.Theorems.LeastConn
import Umicat.Proxy.Theorems.Lifecycle
import Umicat.Proxy.Theorems.Register
import Umicat.Proxy.Theorems.Streams
import Umicat.Proxy.Theorems.Udp
import Umicat.Proxy.Udp
import Umicat.Queue.Access
import Umicat.Queue.Pool
import Umicat.Queue.Sort
import Umicat.Queue.Theorems.Access
import Umicat.Queue.Theorems.Fifo
import Umicat.Queue.Theorems.Sort
import Umicat.Relay.Flow
import Umicat.Relay.Lemmas.Calls
import Umicat.Relay.Lemmas.Loop
import Umicat.Relay.Lemmas.Socket
import Umicat.Relay.Loop
import Umicat.Relay.Socket
import Umicat.Relay.Theorems.Datagram
import Umicat.Relay.Theorems.Drain
import Umicat.Relay.Theorems.Length
import Umicat.Relay.Theorems.Prefix
import Umicat.Relay.Theorems.Recent
import Umicat.Relay.Theorems.Traffic
import Umicat.Relay.Theorems.Transfer
import Umicat.Text.Base64
import Umicat.Text.Escape
import Umicat.Text.Number
import Umicat.Text.Theorems.Base64
import Umicat.Text.Theorems.Escape
import Umicat.Text.Theorems.Number
import Umicat.Text.Theorems.Utf8
import Umicat.Text.Utf8
import Umicat.Upstream.Address
import Umicat.Upstream.Connect
import Umicat.Upstream.HashRing
import Umicat.Upstream.Lemmas.Frame
import Umicat.Upstream.Lemmas.HashRing
import Umicat.Upstream.Lemmas.RoundRobin
import Umicat.Upstream.Lemmas.Select
import Umicat.Upstream.Lemmas.Weight
import Umicat.Upstream.Run
import Umicat.Upstream.Select
import Umicat.Upstream.Srv
import Umicat.Upstream.Theorems.Check
import Umicat.Upstream.Theorems.Degraded
import Umicat.Upstream.Theorems.Failover
import Umicat.Upstream.Theorems.HashRing
import Umicat.Upstream.Theorems.Lookup
import Umicat.Upstream.Theorems.Passive
import Umicat.Upstream.Theorems.Quarantine
import Umicat.Upstream.Theorems.Random
import Umicat.Upstream.Theorems.Retry
import Umicat.Upstream.Theorems.RoundRobin
import Umicat.Upstream.Theorems.Weight
