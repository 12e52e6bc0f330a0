import Mathlib.Data.Nat.Digits.Defs
import Umicat.Base.Program
import Umicat.Json.Item

/-!
# Printing an item

`cJSON_PrintPreallocated`, `cJSON_PrintBuffered`, `cJSON_Print` and the functions below them
(`uct_json.c`). The memory of a `printbuffer` is the memory from its first byte on; a write behind
its end and a search for a 0 that is not there are faults.
-/

namespace Umicat.Json

open Umicat.Base
open Umicat.Base.Program
open Umicat.Config (JsonType)

/-! ## Texts of numbers and strings -/

def decimal (n : Nat) : List UInt8 :=
  if n = 0 then [48] else (Nat.digits 10 n).reverse.map fun d => UInt8.ofNat (48 + d)

/-- `sprintf` with `%d`. -/
def sprintfD (n : Int32) : List UInt8 :=
  if n < 0 then 45 :: decimal n.toInt.natAbs else decimal n.toInt.natAbs

/-- `sprintf` with `%04x` for a byte. -/
def sprintfX (b : UInt8) : List UInt8 :=
  let digit (d : Nat) : UInt8 := UInt8.ofNat (if d < 10 then 48 + d else 87 + d)
  [48, 48, digit (b.toNat / 16), digit (b.toNat % 16)]

/-- What `print_number` has in `number_buffer`. `real` is the text for a number that is no `int`: the
one of the two formats `%1.15g` and `%1.17g` that it settles on. -/
def numberText (real : ℚ → List UInt8) (valueint : Int32) : Double → List UInt8
  | .infinite _ => ascii "null"
  | .finite q => if q = valueint.toInt then sprintfD valueint else real q

/-- The characters that are counted for a byte besides itself. -/
def escapeCharacters (b : UInt8) : Nat :=
  if b = 34 ∨ b = 92 ∨ b = 8 ∨ b = 12 ∨ b = 10 ∨ b = 13 ∨ b = 9 then 1
  else if b < 32 then 5
  else 0

/-- What `print_string_ptr` writes for a byte. -/
def escapeByte (b : UInt8) : List UInt8 :=
  if b > 31 ∧ b ≠ 34 ∧ b ≠ 92 then [b]
  else if b = 92 then [92, 92]
  else if b = 34 then [92, 34]
  else if b = 8 then [92, 98]
  else if b = 12 then [92, 102]
  else if b = 10 then [92, 110]
  else if b = 13 then [92, 114]
  else if b = 9 then [92, 116]
  else 92 :: 117 :: sprintfX b

/-! ## The buffer -/

structure PrintBuffer where
  memory : Nat → UInt8
  length : Nat
  offset : Nat
  depth : Nat
  /-- The calls of `reallocate` so far. -/
  allocs : Nat

abbrev Printer := Program PrintBuffer

section

variable (alloc : Nat → Bool) (noalloc format : Bool) (real : ℚ → List UInt8)

/-- `INT_MAX` as a size. -/
def maxSize : Nat := 2147483647

/-- `ensure`, with the jump that follows when it returns NULL. What `reallocate` adds to the buffer
holds whatever stood there. -/
def ensure (needed : Nat) : Printer Unit := fun p =>
  if 0 < p.length ∧ p.length ≤ p.offset then .fail p
  else if maxSize < needed then .fail p
  else if needed + p.offset + 1 ≤ p.length then .ok () p
  else if noalloc then .fail p
  else if maxSize < needed + p.offset + 1 then .fail p
  else if alloc p.allocs then
    .ok () { p with
      length := if maxSize / 2 < needed + p.offset + 1 then maxSize
        else (needed + p.offset + 1) * 2
      allocs := p.allocs + 1 }
  else .fail { p with length := 0, allocs := p.allocs + 1 }

/-- Bytes that are written at the offset. -/
def put (bs : List UInt8) : Printer Unit := fun p =>
  if p.offset + bs.length ≤ p.length then .ok () { p with memory := store p.memory p.offset bs }
  else .fault

def skip (n : Nat) : Printer Unit := modify fun p => { p with offset := p.offset + n }

/-- Room for `needed` bytes, a text with what is written behind it, and the offset behind the
text. -/
def write (needed : Nat) (text after : List UInt8) : Printer Unit := do
  ensure alloc noalloc needed
  put (text ++ after)
  skip text.length

/-- `update_offset`. -/
def updateOffset : Printer Unit := fun p =>
  match (load p.memory p.offset (p.length - p.offset)).findIdx? (· = 0) with
  | some n => .ok () { p with offset := p.offset + n }
  | none => .fault

def deeper : Printer Unit := modify fun p => { p with depth := p.depth + 1 }

def shallower : Printer Unit := modify fun p => { p with depth := p.depth - 1 }

/-! ## Printing -/

/-- `print_string_ptr`. The closing quote and the 0 are written by index, behind what the first pass
has counted. -/
def printStringPtr (input : Option (List UInt8)) : Printer Unit :=
  match input with
  | none => do
      ensure alloc noalloc 3
      put [34, 34, 0]
  | some input => do
      let escapes := (input.map escapeCharacters).sum
      let outputLength := input.length + escapes
      ensure alloc noalloc (outputLength + 3)
      if escapes = 0 then put (34 :: input ++ [34, 0])
      else
        put (34 :: input.flatMap escapeByte)
        let start := (← get).offset
        modify fun p => { p with offset := start + outputLength + 1 }
        put [34, 0]
        modify fun p => { p with offset := start }

def printNumber (valueint : Int32) (valuedouble : Double) : Printer Unit := do
  let text := numberText real valueint valuedouble
  if 25 < text.length then fail
  else
    ensure alloc noalloc (text.length + 1)
    put (text ++ [0])
    skip text.length

/-- The literals, and the closing bracket of an array. -/
def printLiteral (s : List UInt8) : Printer Unit := do
  ensure alloc noalloc (s.length + 1)
  put (s ++ [0])

/-- The tabs in front of a member of an object. -/
def printIndent : Printer Unit := do
  let depth := (← get).depth
  if format then write alloc noalloc depth (List.replicate depth 9) []
  else pure ()

/-- The closing brace of an object. -/
def printBrace : Printer Unit := do
  let depth := (← get).depth
  ensure alloc noalloc (if format then depth + 1 else 2)
  put ((if format then List.replicate (depth - 1) 9 else []) ++ [125, 0])

mutual
def printValue : Item → Printer Unit
  | .node type _ valuestring valueint valuedouble child =>
      match type with
      | .null => printLiteral alloc noalloc (ascii "null")
      | .false => printLiteral alloc noalloc (ascii "false")
      | .true => printLiteral alloc noalloc (ascii "true")
      | .number => printNumber alloc noalloc real valueint valuedouble
      | .string => printStringPtr alloc noalloc valuestring
      | .array => do
          write alloc noalloc 1 [91] []
          deeper
          printElements child
          printLiteral alloc noalloc [93]
          shallower
      | .object => do
          write alloc noalloc (if format then 3 else 2) (if format then [123, 10] else [123]) []
          deeper
          printMembers child
          printBrace alloc noalloc format
          shallower

/-- The loop of `print_array`. -/
def printElements : List Item → Printer Unit
  | [] => pure ()
  | c :: cs => do
      printValue c
      updateOffset
      if cs.isEmpty then printElements cs
      else
        write alloc noalloc (if format then 3 else 2) (if format then [44, 32] else [44]) [0]
        printElements cs

/-- The loop of `print_object`. -/
def printMembers : List Item → Printer Unit
  | [] => pure ()
  | c :: cs => do
      printIndent alloc noalloc format
      printStringPtr alloc noalloc c.string
      updateOffset
      write alloc noalloc (if format then 2 else 1) (if format then [58, 9] else [58]) []
      printValue c
      updateOffset
      write alloc noalloc ((if format then 1 else 0) + (if cs.isEmpty then 0 else 1) + 1)
        ((if cs.isEmpty then [] else [44]) ++ (if format then [10] else [])) [0]
      printMembers cs
end

end

/-! ## Entry points -/

/-- `cJSON_PrintPreallocated` for a buffer of `length` bytes. -/
def printPreallocated (format : Bool) (real : ℚ → List UInt8) (item : Item)
    (memory : Nat → UInt8) (length : Nat) : Outcome PrintBuffer Unit :=
  printValue (fun _ => true) true format real item ⟨memory, length, 0, 0, 0⟩

/-- `cJSON_Print` and `cJSON_PrintUnformatted`, up to the call that cuts the buffer to the size of
the text. The buffer begins with `default_buffer_size` bytes. -/
def print (alloc : Nat → Bool) (format : Bool) (real : ℚ → List UInt8) (item : Item)
    (memory : Nat → UInt8) : Outcome PrintBuffer Unit :=
  (do
    printValue alloc false format real item
    updateOffset : Printer Unit) ⟨memory, 256, 0, 0, 0⟩

end Umicat.Json
