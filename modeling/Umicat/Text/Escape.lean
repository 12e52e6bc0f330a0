import Umicat.Base.Buffer

/-!
# Escaping

`uct_escape_uri`, `uct_unescape_uri`, `uct_escape_html` and `uct_escape_json` (`uct_string.c`). An
escaper that is called with NULL for `dst` counts; otherwise it writes. Both are loops over the bytes
of the source.
-/

namespace Umicat.Text

open Umicat.Base

def countLoop (extra : UInt8 → Nat) (src : List UInt8) : Nat := src.foldl (fun n c => n + extra c) 0

def writeLoop (out : UInt8 → List UInt8) (src : List UInt8) : List UInt8 := src.flatMap out

/-- `sizeof` of a string literal. -/
def sizeof (s : String) : Nat := (ascii s).length + 1

/-! ## URIs -/

/-- The types `UCT_ESCAPE_URI`, …, `UCT_ESCAPE_MAIL_AUTH`. -/
inductive EscapeType
  | uri
  | args
  | uriComponent
  | html
  | refresh
  | memcached
  | mailAuth
deriving Repr, DecidableEq

/-- Space, `#`, `%`, `?`, 00 to 1F and 7F to FF. -/
def uri : List UInt32 :=
  [0xffffffff, 0x80000029, 0x00000000, 0x80000000, 0xffffffff, 0xffffffff, 0xffffffff, 0xffffffff]

/-- As `uri`, with `&`, `+` and `;`. -/
def args : List UInt32 :=
  [0xffffffff, 0x88000869, 0x00000000, 0x80000000, 0xffffffff, 0xffffffff, 0xffffffff, 0xffffffff]

/-- All but letters, digits, `-`, `.`, `_` and `~`. -/
def uriComponent : List UInt32 :=
  [0xffffffff, 0xfc009fff, 0x78000001, 0xb8000001, 0xffffffff, 0xffffffff, 0xffffffff, 0xffffffff]

/-- Space, `#`, `%`, both quotes, 00 to 1F and 7F to FF. -/
def html : List UInt32 :=
  [0xffffffff, 0x000000ad, 0x00000000, 0x80000000, 0xffffffff, 0xffffffff, 0xffffffff, 0xffffffff]

/-- Space, both quotes, 00 to 1F and 7F to FF. The comment at this map lists `%` too. -/
def refresh : List UInt32 :=
  [0xffffffff, 0x00000085, 0x00000000, 0x80000000, 0xffffffff, 0xffffffff, 0xffffffff, 0xffffffff]

/-- Space, `%` and 00 to 1F. -/
def memcached : List UInt32 :=
  [0xffffffff, 0x00000021, 0x00000000, 0x00000000, 0x00000000, 0x00000000, 0x00000000, 0x00000000]

/-- `map[]`. -/
def EscapeType.map : EscapeType → List UInt32
  | .uri => Text.uri
  | .args => Text.args
  | .uriComponent => Text.uriComponent
  | .html => Text.html
  | .refresh => Text.refresh
  | .memcached => Text.memcached
  | .mailAuth => Text.memcached

/-- `escape[c >> 5] & (1U << (c & 0x1f))`. -/
def escaped (escape : List UInt32) (c : UInt8) : Bool :=
  escape.getD (c >>> 5).toNat 0 &&& (1 <<< (c &&& 0x1f).toUInt32) != 0

def hex : List UInt8 := ascii "0123456789ABCDEF"

/-- `uct_escape_uri(NULL, src, size, type)`. -/
def escapeUriCount (type : EscapeType) (src : List UInt8) : Nat :=
  countLoop (fun c => if escaped type.map c then 1 else 0) src

def escapeByte (escape : List UInt32) (c : UInt8) : List UInt8 :=
  if escaped escape c then [37, hex.getD (c >>> 4).toNat 0, hex.getD (c &&& 0xf).toNat 0] else [c]

/-- `uct_escape_uri(dst, src, size, type)`. -/
def escapeUri (type : EscapeType) (src : List UInt8) : List UInt8 :=
  writeLoop (escapeByte type.map) src

/-- `state`, with `decoded` and the byte `*(s - 2)` where they are used. -/
inductive Sw
  | usual
  | quoted
  | quotedSecond (decoded before : UInt8)
deriving Repr, DecidableEq

def unescapeUriType : UInt64 := 1

def unescapeRedirectType : UInt64 := 2

/-- A decoded byte of a redirect, or the three bytes that it was decoded from. -/
def unescapeRedirect (before last ch : UInt8) : List UInt8 :=
  if 37 < ch ∧ ch < 0x7f then [ch] else [37, before, last]

/-- One round of `uct_unescape_uri`: the bytes that it writes, and the next state unless it goes to
`done`. -/
def unescapeStep (type : UInt64) : Sw → UInt8 → List UInt8 × Option Sw
  | .usual, ch =>
      if ch = 63 ∧ type &&& (unescapeUriType ||| unescapeRedirectType) ≠ 0 then ([ch], none)
      else if ch = 37 then ([], some .quoted)
      else ([ch], some .usual)
  | .quoted, ch =>
      let c := ch ||| 0x20
      if 48 ≤ ch ∧ ch ≤ 57 then ([], some (.quotedSecond (ch - 48) ch))
      else if 97 ≤ c ∧ c ≤ 102 then ([], some (.quotedSecond (c - 97 + 10) ch))
      else ([ch], some .usual)
  | .quotedSecond decoded before, last =>
      let c := last ||| 0x20
      if 48 ≤ last ∧ last ≤ 57 then
        let ch := (decoded <<< 4) + (last - 48)
        if type &&& unescapeRedirectType ≠ 0 then (unescapeRedirect before last ch, some .usual)
        else ([ch], some .usual)
      else if 97 ≤ c ∧ c ≤ 102 then
        let ch := (decoded <<< 4) + (c - 97) + 10
        if type &&& unescapeUriType ≠ 0 then
          if ch = 63 then ([ch], none) else ([ch], some .usual)
        else if type &&& unescapeRedirectType ≠ 0 then
          if ch = 63 then ([ch], none) else (unescapeRedirect before last ch, some .usual)
        else ([ch], some .usual)
      else ([], some .usual)

/-- The loop of `uct_unescape_uri`: the bytes written and the bytes that are not consumed. -/
def unescapeLoop (type : UInt64) : Sw → List UInt8 → List UInt8 × List UInt8
  | _, [] => ([], [])
  | state, ch :: s =>
      match unescapeStep type state ch with
      | (bs, none) => (bs, s)
      | (bs, some next) => (bs ++ (unescapeLoop type next s).1, (unescapeLoop type next s).2)

/-- `uct_unescape_uri`. -/
def unescapeUri (type : UInt64) (src : List UInt8) : List UInt8 × List UInt8 :=
  unescapeLoop type .usual src

/-! ## HTML -/

def htmlExtra (c : UInt8) : Nat :=
  if c = 60 then sizeof "&lt;" - 2
  else if c = 62 then sizeof "&gt;" - 2
  else if c = 38 then sizeof "&amp;" - 2
  else if c = 34 then sizeof "&quot;" - 2
  else 0

/-- `uct_escape_html(NULL, src, size)`. -/
def escapeHtmlCount (src : List UInt8) : Nat := countLoop htmlExtra src

def htmlByte (ch : UInt8) : List UInt8 :=
  if ch = 60 then ascii "&lt;"
  else if ch = 62 then ascii "&gt;"
  else if ch = 38 then ascii "&amp;"
  else if ch = 34 then ascii "&quot;"
  else [ch]

/-- `uct_escape_html(dst, src, size)`. -/
def escapeHtml (src : List UInt8) : List UInt8 := writeLoop htmlByte src

/-! ## JSON -/

def jsonExtra (ch : UInt8) : Nat :=
  if ch = 92 ∨ ch = 34 then 1
  else if ch ≤ 0x1f then
    if ch = 10 ∨ ch = 13 ∨ ch = 9 ∨ ch = 8 ∨ ch = 12 then 1 else sizeof "\\u001F" - 2
  else 0

/-- `uct_escape_json(NULL, src, size)`. -/
def escapeJsonCount (src : List UInt8) : Nat := countLoop jsonExtra src

/-- What follows the backslash in front of a control character. -/
def jsonControl (ch : UInt8) : List UInt8 :=
  if ch = 10 then [110]
  else if ch = 13 then [114]
  else if ch = 9 then [116]
  else if ch = 8 then [98]
  else if ch = 12 then [102]
  else
    let low := ch &&& 0xf
    [117, 48, 48, (ch >>> 4) + 48, if low < 10 then 48 + low else 65 + low - 10]

def jsonByte (ch : UInt8) : List UInt8 :=
  if ch > 0x1f then (if ch = 92 ∨ ch = 34 then [92] else []) ++ [ch] else 92 :: jsonControl ch

/-- `uct_escape_json(dst, src, size)`. -/
def escapeJson (src : List UInt8) : List UInt8 := writeLoop jsonByte src

end Umicat.Text
