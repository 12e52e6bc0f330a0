import Umicat.Base.Buffer
import Umicat.Base.Double
import Umicat.Config.Json

/-!
# Items

The nodes that the parser of `uct_json.c` builds and its printer reads, with the doubles of their
numbers. `Config.Json` is what the configuration reader sees of them.
-/

namespace Umicat.Json

open Umicat.Base
open Umicat.Config (JsonType Json)

/-- `cJSON`: the key, the values of strings and numbers, and the children in the order of the list
at `child`. -/
inductive Item
  | node (type : JsonType) (string valuestring : Option (List UInt8)) (valueint : Int32)
      (valuedouble : Double) (child : List Item)

/-- An item as `cJSON_New_Item` leaves it, but for the type and the value of a `true`. -/
def Item.plain (type : JsonType) (valueint : Int32) : Item :=
  .node type none none valueint (.finite 0) []

def Item.nested (type : JsonType) (child : List Item) : Item :=
  .node type none none 0 (.finite 0) child

def Item.text (s : List UInt8) : Item := .node .string none (some s) 0 (.finite 0) []

def intMax : Int32 := 2147483647

def intMin : Int32 := -2147483648

/-- `valueint` of a number: it saturates, and otherwise drops the fraction. -/
def saturate : Double → Int32
  | .infinite neg => if neg then intMin else intMax
  | .finite q =>
      if (intMax.toInt : ℚ) ≤ q then intMax
      else if q ≤ (intMin.toInt : ℚ) then intMin
      else Int32.ofInt (q.num.tdiv q.den)

def Item.number (d : Double) : Item := .node .number none none (saturate d) d []

def Item.type : Item → JsonType
  | .node t _ _ _ _ _ => t

def Item.string : Item → Option (List UInt8)
  | .node _ k _ _ _ _ => k

def Item.child : Item → List Item
  | .node _ _ _ _ _ cs => cs

/-- `item->string = name`. -/
def Item.named (name : List UInt8) : Item → Item
  | .node t _ v n d cs => .node t (some name) v n d cs

/-! ## Blocks of the heap -/

def stringBlocks (s : Option (List UInt8)) : Nat := if s.isSome then 1 else 0

mutual
/-- The blocks that `cJSON_Delete` frees for an item besides the item itself. -/
def Item.owned : Item → Nat
  | .node _ k v _ _ cs => stringBlocks k + stringBlocks v + Item.blocks cs

/-- The blocks that `cJSON_Delete` frees for a list of items. -/
def Item.blocks : List Item → Nat
  | [] => 0
  | c :: cs => 1 + c.owned + Item.blocks cs
end

/-! ## What the configuration reader sees -/

mutual
def Item.json : Item → Json
  | .node t k v n _ cs => .node t k v n (Item.jsons cs)

def Item.jsons : List Item → List Json
  | [] => []
  | c :: cs => c.json :: Item.jsons cs
end

end Umicat.Json
