import Abacus.Binary64.Text
import Abacus.Datum.Basic
import Abacus.Text.Quoted

/-!
# Data written as JSON

The text is printable ASCII: every other character is escaped, by a letter if it has one and
otherwise as one or two UTF-16 units. A comma and a colon are followed by one space. Mappings are
written in the order of their entries; a key that is no text is written as the string of its own
JSON text.

The limits of the runtime are left out: whole numbers are written however many digits they
have, and data may be nested to any depth.
-/

namespace Abacus.Json

open Text (backslash doubleQuote hexDigits)

/-- The UTF-16 units of a character. -/
def units (c : Char) : List Nat :=
  if c.toNat < 0x10000 then [c.toNat]
  else [0xd800 + (c.toNat - 0x10000) / 0x400, 0xdc00 + (c.toNat - 0x10000) % 0x400]

def escapeUnit (u : Nat) : List Char :=
  backslash :: 'u' :: hexDigits 4 u

/-- One character of a string. -/
def escapeChar (c : Char) : List Char :=
  if c = doubleQuote ∨ c = backslash then [backslash, c]
  else if c = '\n' then [backslash, 'n']
  else if c = '\r' then [backslash, 'r']
  else if c = '\t' then [backslash, 't']
  else if c = '\x08' then [backslash, 'b']
  else if c = '\x0c' then [backslash, 'f']
  else if 0x20 ≤ c.toNat ∧ c.toNat < 0x7f then [c]
  else (units c).flatMap escapeUnit

/-- The string, with more characters behind it. -/
def stringChars (s : String) (more : List Char) : List Char :=
  doubleQuote :: s.toList.flatMap escapeChar ++ doubleQuote :: more

/-- A key, given its JSON text as a datum, with more characters behind it. -/
def keyChars (key : Datum) (written more : List Char) : List Char :=
  match key with
  | .text _ => written ++ more
  | _ => doubleQuote :: written.flatMap escapeChar ++ doubleQuote :: more

/-- The values that no finite decimal denotes are words. -/
def floatText : Binary64 → String
  | .nan => "NaN"
  | .infinity negative => if negative then "-Infinity" else "Infinity"
  | x => x.text

mutual

/-- The datum, with more characters behind it. -/
def chars : Datum → List Char → List Char
  | .null, more => "null".toList ++ more
  | .bool b, more => (if b then "true" else "false").toList ++ more
  | .int n, more => (toString n).toList ++ more
  | .float x, more => (floatText x).toList ++ more
  | .text s, more => stringChars s more
  | .list items, more => '[' :: itemChars items (']' :: more)
  | .tuple items, more => '[' :: itemChars items (']' :: more)
  | .mapping entries, more => '\x7b' :: entryChars entries ('\x7d' :: more)
  | .view entries, more => '\x7b' :: entryChars entries ('\x7d' :: more)

def itemChars : List Datum → List Char → List Char
  | [], more => more
  | [item], more => chars item more
  | item :: items, more => chars item (',' :: ' ' :: itemChars items more)

def entryChars : List (Datum × Datum) → List Char → List Char
  | [], more => more
  | [(k, v)], more => keyChars k (chars k []) (':' :: ' ' :: chars v more)
  | (k, v) :: entries, more =>
    keyChars k (chars k []) (':' :: ' ' :: chars v (',' :: ' ' :: entryChars entries more))

end

def text (d : Datum) : String := String.ofList (chars d [])

end Abacus.Json
