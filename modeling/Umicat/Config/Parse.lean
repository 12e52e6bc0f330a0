import Umicat.Config.Json
import Umicat.Upstream.HashRing

/-!
# Reading the configuration

`uct_conf_parse`, `uct_conf_parse_upstream` and the part of `uct_init_cycle` behind them
(`uct_cycle.c`). A missing result stands for a NULL pointer that is followed: most members of the
document are read without a test that they are there.
-/

namespace Umicat.Config

open Umicat.Upstream

/-! ## Server entries -/

/-- `uct_cpystrn(dst, src, n)`. -/
def cpystrn (src : List UInt8) (n : Nat) : List UInt8 := src.take (n - 1)

/-- `UCT_INET_ADDRSTRLEN`. -/
def inetAddrstrlen : Nat := 16

/-- The `check` object of an entry. The type, the port and the interval only start timers. -/
def readCheck (check : Json) : Option CheckConf := do
  let _ ← getString check "type"
  let _ ← getInt check "port"
  let _ ← getInt check "interval"
  let timeout ← getInt check "timeout"
  let fall ← getInt check "fall"
  let rise ← getInt check "rise"
  some ⟨timeout, fall, rise⟩

def readEntry (uit : Json) : Option Conf := do
  let ip ← getString uit "upstream_ip"
  let port ← getInt uit "upstream_port"
  let weight ← getInt uit "weight"
  let maxFails ← getInt uit "max_fails"
  let failTimeout ← getInt uit "fail_timeout"
  let isFallback ← getInt uit "is_fallback"
  let trafficWindow ← getInt uit "traffic_window"
  let check ← match getObjectItem uit "check" with
    | some check => (readCheck check).map some
    | none => some none
  some ⟨cpystrn ip (inetAddrstrlen * 4), port, weight, maxFails, failTimeout, isFallback,
    trafficWindow, check⟩

/-- The entries that `uct_conf_parse_upstream` reads. A document without `upstream` has none. -/
def upstreamEntries (root : Json) : Option (List Conf) :=
  match getObjectItem root "upstream" with
  | some upstream => (arrayItems upstream).mapM readEntry
  | none => some []

/-! ## The document -/

inductive Mode
  | tcp
  | udp
  | http
deriving Repr, DecidableEq

inductive Policy
  | roundRobin
  | ipHash
  | leastConn
  | random
  | heuristic
deriving Repr, DecidableEq

inductive LogLevel
  | debug
  | info
  | notice
  | warn
  | error
  | fatal
deriving Repr, DecidableEq

inductive ConfError
  | openFailed (path : List UInt8)
  | parseFailed
  | unknownMode (item : List UInt8)
  | unknownPolicy (item : List UInt8)
deriving Repr, DecidableEq

/-- The text that is logged before `UCT_ERROR` is returned. -/
def ConfError.message : ConfError → List UInt8
  | .openFailed path => text "open conf file: " ++ path ++ text " failed"
  | .parseFailed => text "json parse failed"
  | .unknownMode item => text "unknown mode: " ++ item
  | .unknownPolicy item => text "unknown policy: " ++ item

def readMode (item : List UInt8) : Except ConfError Mode :=
  if item = text "tcp" then .ok .tcp
  else if item = text "udp" then .ok .udp
  else if item = text "http" then .ok .http
  else .error (.unknownMode item)

def readPolicy (item : List UInt8) : Except ConfError Policy :=
  if item = text "round_robin" then .ok .roundRobin
  else if item = text "ip_hash" then .ok .ipHash
  else if item = text "least_conn" then .ok .leastConn
  else if item = text "random" then .ok .random
  else if item = text "heuristic" then .ok .heuristic
  else .error (.unknownPolicy item)

def readLogLevel (item : List UInt8) : LogLevel :=
  if item = text "debug" then .debug
  else if item = text "info" then .info
  else if item = text "notice" then .notice
  else if item = text "warn" then .warn
  else if item = text "error" then .error
  else if item = text "fatal" then .fatal
  else .info

/-- `atoi`: blanks, a sign and digits. -/
def atoi (s : List UInt8) : Int :=
  let s := s.dropWhile fun b => b = 32 || (9 ≤ b && b ≤ 13)
  let digits (s : List UInt8) : Int :=
    (s.takeWhile fun b => 48 ≤ b && b ≤ 57).foldl (fun n b => n * 10 + (b.toNat - 48)) 0
  match s with
  | 45 :: s => -digits s
  | 43 :: s => digits s
  | s => digits s

/-- What the process knows besides the document: `uct_corenum` and the log file of the command line. -/
structure Env where
  corenum : UInt64
  logFile : Option (List UInt8)
deriving Repr, DecidableEq

def readWorkers (env : Env) (workers : Json) : Option UInt64 :=
  if workers.type = .string then do
    let s ← workers.valuestring
    some (if s = text "auto" then env.corenum else UInt64.ofInt (atoi s))
  else if workers.valueint > 0 then some (toUInt workers.valueint)
  else some env.corenum

/-- `UCT_LOG_PATH`. -/
def logPath : List UInt8 := text "/var/log/umicat/umicat.log"

def readLogFile (env : Env) (root : Json) : Option (List UInt8) :=
  match env.logFile with
  | some path => some path
  | none =>
      match getObjectItem root "log_file" with
      | some item => item.valuestring.map (cpystrn · 64)
      | none => some logPath

/-- `uct_cycle_s`, as far as the configuration fills it. `ring` is there under `ip_hash` only. -/
structure Cycle where
  mode : Mode
  localport : UInt64
  policy : Policy
  workersN : UInt64
  logFile : List UInt8
  logLevel : LogLevel
  srvs : List Srv
  ring : Option (List Point)
deriving Repr, DecidableEq

/-- The `else` branch of `uct_conf_parse`, over the tree of the document. -/
def readRoot (env : Env) (mem : Nat → Srv) (root : Json) : Option (Except ConfError Cycle) := do
  match readMode (← getString root "mode") with
  | .error e => some (.error e)
  | .ok mode =>
      let port ← getInt root "localport"
      match readPolicy (← getString root "policy") with
      | .error e => some (.error e)
      | .ok policy =>
          let workersN ← readWorkers env (← getObjectItem root "workers")
          let logFile ← readLogFile env root
          let logLevel := readLogLevel (← getString root "log_level")
          let entries ← upstreamEntries root
          some (.ok {
            mode := mode
            localport := if port > 0 then toUInt port else 80
            policy := policy
            workersN := workersN
            logFile := logFile
            logLevel := logLevel
            srvs := Upstream.confParse mem entries
            ring := none })

/-- What `fopen` and `cJSON_Parse` make of the configuration file. -/
inductive Source
  | unreadable (path : List UInt8)
  | malformed
  | tree (root : Json)

def confParse (env : Env) (mem : Nat → Srv) : Source → Option (Except ConfError Cycle)
  | .unreadable path => some (.error (.openFailed path))
  | .malformed => some (.error .parseFailed)
  | .tree root => readRoot env mem root

end Umicat.Config
