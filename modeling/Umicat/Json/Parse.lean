import Umicat.Base.Program
import Umicat.Json.Item

/-!
# Reading a text

`cJSON_Parse` and the functions below it (`uct_json.c`). The text is the list of the bytes that the
parser may read, `length` many; a string of the language C comes with its 0. A read behind the text
and a write behind an allocated block are faults.
-/

namespace Umicat.Json

open Umicat.Base
open Umicat.Base.Program
open Umicat.Config (JsonType)

/-- What changes of a `parse_buffer`, and the heap: the calls of `allocate` so far, and the blocks
that are allocated and not freed. `depth` is an argument of `parseValue`: it has its old value
whenever a value has been read, and after a failure nothing reads it. -/
structure State where
  offset : Nat
  allocs : Nat
  live : Nat
deriving Repr, DecidableEq

abbrev Parser := Program State

/-! ## Numbers -/

def isDigit (b : UInt8) : Bool := 48 ≤ b && b ≤ 57

/-- The bytes that are copied into `number_c_string`. -/
def isNumberByte (b : UInt8) : Bool :=
  isDigit b || b == 43 || b == 45 || b == 101 || b == 69 || b == 46

def digitsValue (ds : List UInt8) : Nat := ds.foldl (fun n d => n * 10 + (d.toNat - 48)) 0

def hasSign (s : List UInt8) : Nat := if s.head? = some 45 ∨ s.head? = some 43 then 1 else 0

/-- The exponent part of a number and its length. Without a digit there is none. -/
def exponentPart (s : List UInt8) : Int × Nat :=
  if s.head? = some 101 ∨ s.head? = some 69 then
    let s := s.drop 1
    let ds := (s.drop (hasSign s)).takeWhile isDigit
    if ds = [] then (0, 0)
    else (if s.head? = some 45 then -digitsValue ds else digitsValue ds, 1 + hasSign s + ds.length)
  else (0, 0)

/-- `strtod` on a text of digits, signs, points and the letter of an exponent: the value and the
number of bytes that make up the number. -/
def strtod (s : List UInt8) : Option (Double × Nat) :=
  let whole := (s.drop (hasSign s)).takeWhile isDigit
  let rest := s.drop (hasSign s + whole.length)
  let dot := if rest.head? = some 46 then 1 else 0
  let frac := if rest.head? = some 46 then (rest.drop 1).takeWhile isDigit else []
  if whole = [] ∧ frac = [] then none
  else
    let exponent := exponentPart (rest.drop (dot + frac.length))
    let q : ℚ := digitsValue (whole ++ frac) * 10 ^ (exponent.1 - frac.length)
    some (.ofRat (if s.head? = some 45 then -q else q),
      hasSign s + whole.length + dot + frac.length + exponent.2)

section

variable (alloc : Nat → Bool) (content : List UInt8)

/-! ## The buffer -/

/-- `buffer_at_offset(buffer)[i]`. -/
def readAt (i : Nat) : Parser UInt8 := fun s =>
  match content[s.offset + i]? with
  | some b => .ok b s
  | none => .fault

/-- `can_access_at_index(buffer, 0) && buffer_at_offset(buffer)[0] == b`. -/
def looksAt (b : UInt8) (s : State) : Bool := content[s.offset]? == some b

/-- `can_read` and `strncmp` with a literal. -/
def startsWith (literal : List UInt8) (s : State) : Bool :=
  literal.isPrefixOf (content.drop s.offset)

def advance (n : Nat) : Parser Unit := modify fun s => { s with offset := s.offset + n }

def stepBack : Parser Unit := modify fun s => { s with offset := s.offset - 1 }

def bufferSkipWhitespace : Parser Unit := modify fun s =>
  if s.offset < content.length then
    let offset := s.offset + ((content.drop s.offset).takeWhile (· ≤ 32)).length
    { s with offset := if offset = content.length then offset - 1 else offset }
  else s

def skipUtf8Bom : Parser Unit := modify fun s =>
  if s.offset + 4 < content.length ∧ startsWith content [0xEF, 0xBB, 0xBF] s then
    { s with offset := s.offset + 3 }
  else s

/-- `allocate` with the jump that follows when it returns NULL. `alloc n` tells whether call `n` has
memory. -/
def allocate : Parser Unit := fun s =>
  if alloc s.allocs then .ok () { s with allocs := s.allocs + 1, live := s.live + 1 }
  else .fail { s with allocs := s.allocs + 1 }

def free (n : Nat) (s : State) : State := { s with live := s.live - n }

/-! ## Strings -/

def hexValue (b : UInt8) : Option Nat :=
  if 48 ≤ b ∧ b ≤ 57 then some (b.toNat - 48)
  else if 65 ≤ b ∧ b ≤ 70 then some (10 + b.toNat - 65)
  else if 97 ≤ b ∧ b ≤ 102 then some (10 + b.toNat - 97)
  else none

/-- The loop of `parse_hex4` for `n` more digits from index `i` on. -/
def parseHex4Loop : Nat → Nat → Nat → Parser Nat
  | 0, _, h => pure h
  | n + 1, i, h => do
      match hexValue (← readAt content i) with
      | none => pure 0
      | some d => parseHex4Loop n (i + 1) (if n = 0 then h + d else (h + d) <<< 4)

def parseHex4 (i : Nat) : Parser Nat := parseHex4Loop content 4 i 0

/-- The loop for the bytes behind the first one, from the last one on. -/
def encodeTail : Nat → Nat → List UInt8 → Nat × List UInt8
  | 0, codepoint, bs => (codepoint, bs)
  | n + 1, codepoint, bs =>
      encodeTail n (codepoint >>> 6) (UInt8.ofNat ((codepoint ||| 0x80) &&& 0xBF) :: bs)

def encodeBytes (length mark codepoint : Nat) : List UInt8 :=
  let tail := encodeTail (length - 1) codepoint []
  if length > 1 then UInt8.ofNat ((tail.1 ||| mark) &&& 0xFF) :: tail.2
  else UInt8.ofNat (tail.1 &&& 0x7F) :: tail.2

def encodeUtf8 (codepoint : Nat) : Option (List UInt8) :=
  if codepoint < 0x80 then some (encodeBytes 1 0 codepoint)
  else if codepoint < 0x800 then some (encodeBytes 2 0xC0 codepoint)
  else if codepoint < 0x10000 then some (encodeBytes 3 0xE0 codepoint)
  else if codepoint ≤ 0x10FFFF then some (encodeBytes 4 0xF0 codepoint)
  else none

def encoded (length codepoint : Nat) : Parser (Nat × List UInt8) :=
  match encodeUtf8 codepoint with
  | some bs => pure (length, bs)
  | none => fail

/-- `utf16_literal_to_utf8` at the offset, with the text up to `stop`: the length of the literal and
the bytes that are written. It returns 0 where this fails, and its caller then fails. -/
def utf16LiteralToUtf8 (stop : Nat) : Parser (Nat × List UInt8) := do
  let first := (← get).offset
  if stop - first < 6 then fail
  else
    let firstCode ← parseHex4 content 2
    if 0xDC00 ≤ firstCode ∧ firstCode ≤ 0xDFFF then fail
    else if 0xD800 ≤ firstCode ∧ firstCode ≤ 0xDBFF then
      if stop - (first + 6) < 6 then fail
      else if (← readAt content 6) ≠ 92 then fail
      else if (← readAt content 7) ≠ 117 then fail
      else
        let secondCode ← parseHex4 content 8
        if secondCode < 0xDC00 ∨ 0xDFFF < secondCode then fail
        else encoded 12 (0x10000 + ((firstCode &&& 0x3FF) <<< 10 ||| (secondCode &&& 0x3FF)))
    else encoded 6 firstCode

/-- The first pass of `parse_string`, behind the opening quote: the distance to the closing quote
and the bytes that were skipped. -/
def scanString : List UInt8 → Nat → Nat → Option (Nat × Nat)
  | [], _, _ => none
  | 34 :: _, n, skipped => some (n, skipped)
  | [92], _, _ => none
  | 92 :: _ :: rest, n, skipped => scanString rest (n + 2) (skipped + 1)
  | _ :: rest, n, skipped => scanString rest (n + 1) skipped

/-- The escapes of one byte. -/
def unescape (b : UInt8) : Option UInt8 :=
  if b = 98 then some 8
  else if b = 102 then some 12
  else if b = 110 then some 10
  else if b = 114 then some 13
  else if b = 116 then some 9
  else if b = 34 ∨ b = 92 ∨ b = 47 then some b
  else none

/-- A write at the end of what is in a block of `size` bytes. -/
def emit (size : Nat) (output bs : List UInt8) : Parser (List UInt8) :=
  if output.length + bs.length ≤ size then pure (output ++ bs) else fault

/-- The second pass of `parse_string`, with the offset as `input_pointer`. -/
def copyString (stop size : Nat) : Nat → List UInt8 → Parser (List UInt8)
  | 0, _ => fault
  | fuel + 1, output => do
      if (← get).offset < stop then
        let b ← readAt content 0
        if b ≠ 92 then
          let output ← emit size output [b]
          advance 1
          copyString stop size fuel output
        else
          let e ← readAt content 1
          match unescape e with
          | some c =>
              let output ← emit size output [c]
              advance 2
              copyString stop size fuel output
          | none =>
              if e = 117 then
                let (length, bs) ← utf16LiteralToUtf8 content stop
                let output ← emit size output bs
                advance length
                copyString stop size fuel output
              else fail
      else pure output

/-- `parse_string`. The value is the string of the language C that is left in the block: it ends at
the first 0, which an escape can write. -/
def parseString : Parser (List UInt8) := do
  let start := (← get).offset
  let b ← readAt content 0
  advance 1
  if b ≠ 34 then fail
  else
    match scanString (content.drop (start + 1)) 0 0 with
    | none => fail
    | some (n, skipped) =>
        let stop := start + 1 + n
        let size := stop - start - skipped + 1
        allocate alloc
        let output ← onFail (copyString content stop size (n + 1) []) (free 1)
        let output ← emit size output [0]
        modify fun s => { s with offset := stop + 1 }
        pure (output.takeWhile (· ≠ 0))

/-! ## Values -/

def parseNumber : Parser Item := fun s =>
  match strtod (((content.drop s.offset).take 63).takeWhile isNumberByte) with
  | none => .fail s
  | some (number, n) => .ok (.number number) { s with offset := s.offset + n }

/-- The round of the loop of `parse_array`, from the byte in front of the element on. -/
def parseElement (value : Parser Item) : Parser Item := do
  allocate alloc
  onFail (do
    advance 1
    bufferSkipWhitespace content
    value) (free 1)

/-- The round of the loop of `parse_object`. -/
def parseMember (value : Parser Item) : Parser Item := do
  allocate alloc
  let name ← onFail (do
    advance 1
    bufferSkipWhitespace content
    parseString alloc content) (free 1)
  onFail (do
    bufferSkipWhitespace content
    if looksAt content 58 (← get) then
      advance 1
      bufferSkipWhitespace content
      let item ← value
      pure (item.named name)
    else fail) (free 2)

/-- The loop over the elements or members: it goes on behind a comma. -/
def parseItems (round : Parser Item) : Nat → List Item → Parser (List Item)
  | 0, _ => fault
  | fuel + 1, items => do
      let item ← onFail round (free (Item.blocks items))
      bufferSkipWhitespace content
      if looksAt content 44 (← get) then parseItems round fuel (items ++ [item])
      else pure (items ++ [item])

/-- What `parse_array` and `parse_object` do behind the opening bracket. -/
def parseNested (type : JsonType) (closing : UInt8) (round : Parser Item) : Parser Item := do
  advance 1
  bufferSkipWhitespace content
  if looksAt content closing (← get) then
    advance 1
    pure (.nested type [])
  else if content.length ≤ (← get).offset then
    stepBack
    fail
  else
    stepBack
    let items ← parseItems content round (content.length + 1) []
    if looksAt content closing (← get) then
      advance 1
      pure (.nested type items)
    else onFail fail (free (Item.blocks items))

def parseArray (value : Parser Item) : Parser Item := do
  if (← readAt content 0) ≠ 91 then fail
  else parseNested content .array 93 (parseElement alloc content value)

def parseObject (value : Parser Item) : Parser Item := do
  if looksAt content 123 (← get) then
    parseNested content .object 125 (parseMember alloc content value)
  else fail

/-- `parse_value` with `parse_array` and `parse_object` given. -/
def dispatch (array object : Parser Item) : Parser Item := do
  let s ← get
  if startsWith content (ascii "null") s then
    advance 4
    pure (.plain .null 0)
  else if startsWith content (ascii "false") s then
    advance 5
    pure (.plain .false 0)
  else if startsWith content (ascii "true") s then
    advance 4
    pure (.plain .true 1)
  else if looksAt content 34 s then
    let valuestring ← parseString alloc content
    pure (.text valuestring)
  else if looksAt content 45 s ∨ (content[s.offset]?).any isDigit then parseNumber content
  else if looksAt content 91 s then array
  else if looksAt content 123 s then object
  else fail

/-- `CJSON_NESTING_LIMIT`. -/
def nestingLimit : Nat := 1000

/-- `parse_value` where `room` more levels are left below the nesting limit. With none left
`parse_array` and `parse_object` fail at once. -/
def parseValue : Nat → Parser Item
  | 0 => dispatch alloc content fail fail
  | room + 1 =>
      dispatch alloc content (parseArray alloc content (parseValue room))
        (parseObject alloc content (parseValue room))

/-! ## Documents -/

/-- `cJSON_ParseWithLengthOpts`. -/
def parseWithLengthOpts (requireNullTerminated : Bool) : Parser Item :=
  if content = [] then fail
  else do
    allocate alloc
    onFail (do
      skipUtf8Bom content
      bufferSkipWhitespace content
      let item ← parseValue alloc content nestingLimit
      if requireNullTerminated then
        bufferSkipWhitespace content
        if looksAt content 0 (← get) then pure item
        else onFail fail (free item.owned)
      else pure item) (free 1)

/-- `global_error.position` after a failure. -/
def errorPosition (s : State) : Nat :=
  if s.offset < content.length then s.offset
  else if content.length > 0 then content.length - 1
  else 0

end

/-- `cJSON_Parse` on the string `s`. -/
def parse (alloc : Nat → Bool) (s : List UInt8) : Outcome State Item :=
  parseWithLengthOpts alloc (s ++ [0]) false ⟨0, 0, 0⟩

end Umicat.Json
