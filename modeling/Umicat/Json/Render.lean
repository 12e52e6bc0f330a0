import Umicat.Json.Print

/-!
# The text of an item

What the printer is to print, without a buffer: the text of an item at a depth. Members of objects
have lines of their own in the formatted text.
-/

namespace Umicat.Json

open Umicat.Base
open Umicat.Config (JsonType)

def quoted : Option (List UInt8) → List UInt8
  | none => [34, 34]
  | some s => 34 :: s.flatMap escapeByte ++ [34]

section

variable (format : Bool) (real : ℚ → List UInt8)

def tabs (n : Nat) : List UInt8 := if format then List.replicate n 9 else []

def lineEnd : List UInt8 := if format then [10] else []

def colon : List UInt8 := if format then [58, 9] else [58]

def comma : List UInt8 := if format then [44, 32] else [44]

mutual
def render (depth : Nat) : Item → List UInt8
  | .node type _ valuestring valueint valuedouble child =>
      match type with
      | .null => ascii "null"
      | .false => ascii "false"
      | .true => ascii "true"
      | .number => numberText real valueint valuedouble
      | .string => quoted valuestring
      | .array => 91 :: renderElements (depth + 1) child ++ [93]
      | .object =>
          123 :: lineEnd format ++ renderMembers (depth + 1) child ++ tabs format depth ++ [125]

def renderElements (depth : Nat) : List Item → List UInt8
  | [] => []
  | c :: cs =>
      render depth c ++ (if cs.isEmpty then [] else comma format) ++ renderElements depth cs

def renderMembers (depth : Nat) : List Item → List UInt8
  | [] => []
  | c :: cs =>
      tabs format depth ++ quoted c.string ++ colon format ++ render depth c ++
        (if cs.isEmpty then [] else [44]) ++ lineEnd format ++ renderMembers depth cs
end

end

end Umicat.Json
