import Umicat.Config.Parse
import Umicat.Json.Parse

/-!
# The configuration file

What `uct_conf_parse` makes of the bytes of the file. The block from the pool is as long as the file,
and nothing puts a 0 behind it, so that the string that `cJSON_Parse` reads goes on with what the
memory holds there.
-/

namespace Umicat.Config

open Umicat.Upstream
open Umicat.Base (Outcome)

/-- The C string at the start of some memory. -/
def cString (memory : List UInt8) : List UInt8 := memory.takeWhile (· ≠ 0)

/-- The document in a file. `rest` is the memory behind the bytes that `fread` returned. -/
def readDocument (alloc : Nat → Bool) (file rest : List UInt8) : Source :=
  match Json.parse alloc (cString (file ++ rest)) with
  | .ok item _ => .tree item.json
  | .fail _ => .malformed
  | .fault => .malformed

/-- `uct_conf_parse`. A missing file is one that `fopen` does not open. -/
def confParseFile (env : Env) (mem : Nat → Srv) (alloc : Nat → Bool) (path : List UInt8)
    (file : Option (List UInt8)) (rest : List UInt8) : Option (Except ConfError Cycle) :=
  match file with
  | none => confParse env mem (.unreadable path)
  | some file => confParse env mem (readDocument alloc file rest)

end Umicat.Config
