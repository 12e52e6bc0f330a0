import Umicat.Base.Word

/-!
# JSON trees

The nodes that `cJSON_Parse` returns and the lookups that the configuration parser makes in them
(`uct_json.c`). A C string is the list of its bytes before the terminating 0. A missing result stands
for NULL, and for a NULL pointer that is followed.
-/

namespace Umicat.Config

inductive JsonType
  | false
  | true
  | null
  | number
  | string
  | array
  | object
deriving Repr, DecidableEq

/-- `cJSON`: the type, the key of an object member, the values of strings and numbers, and the
children. `valueint` of a number is saturated; it is 1 for `true` and 0 for every other type. -/
inductive Json
  | node (type : JsonType) (string valuestring : Option (List UInt8)) (valueint : Int32)
      (child : List Json)

namespace Json

def type : Json → JsonType
  | node t _ _ _ _ => t

def string : Json → Option (List UInt8)
  | node _ s _ _ _ => s

def valuestring : Json → Option (List UInt8)
  | node _ _ s _ _ => s

def valueint : Json → Int32
  | node _ _ _ n _ => n

def child : Json → List Json
  | node _ _ _ _ js => js

end Json

def text (s : String) : List UInt8 := s.toUTF8.toList

def tolower (b : UInt8) : UInt8 := if 65 ≤ b ∧ b ≤ 90 then b + 32 else b

/-- `case_insensitive_strcmp(name, string) == 0`. -/
def sameKey (name : List UInt8) (string : Option (List UInt8)) : Bool :=
  string.any fun s => s.map tolower == name.map tolower

def getObjectItem (object : Json) (name : String) : Option Json :=
  object.child.find? fun j => sameKey (text name) j.string

/-- `cJSON_GetArrayItem(array, i)` for all `i` from 0 on until it is NULL. The index is an `int`. -/
def arrayItems (array : Json) : List Json := array.child.take (2 ^ 31)

/-- `cJSON_GetObjectItem(object, name)->valuestring`, which is then read as a string. -/
def getString (object : Json) (name : String) : Option (List UInt8) :=
  (getObjectItem object name).bind Json.valuestring

/-- `cJSON_GetObjectItem(object, name)->valueint`. -/
def getInt (object : Json) (name : String) : Option Int32 :=
  (getObjectItem object name).map Json.valueint

end Umicat.Config
