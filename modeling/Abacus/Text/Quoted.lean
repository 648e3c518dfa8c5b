import Abacus.Text.Hidden

/-!
# Quoted text

How a piece of text is shown inside a message: between quote marks, with escapes for the backslash,
for the mark in use and for every hidden character. The mark is the single quote unless the text
holds a single quote and no double quote.
-/

namespace Abacus.Text

/-- The last `width` hexadecimal digits of a number, most significant first, in lower case. -/
def hexDigits : Nat → Nat → List Char
  | 0, _ => []
  | width + 1, n => hexDigits width (n / 16) ++ [Nat.digitChar (n % 16)]

theorem length_hexDigits (width n : Nat) : (hexDigits width n).length = width := by
  induction width generalizing n with
  | zero => rfl
  | succ width ih => simp [hexDigits, ih]

def singleQuote : Char := '\x27'
def doubleQuote : Char := '\x22'
def backslash : Char := '\x5c'

/-- The mark that surrounds a text. -/
def quoteMark (cs : List Char) : Char :=
  if cs.contains singleQuote && !cs.contains doubleQuote then doubleQuote else singleQuote

/-- One character of a quoted text, in the escapes of the shortest form that fits its code point. -/
def quoteChar (mark c : Char) : List Char :=
  if c = mark ∨ c = backslash then [backslash, c]
  else if c = '\n' then [backslash, 'n']
  else if c = '\r' then [backslash, 'r']
  else if c = '\t' then [backslash, 't']
  else if isHidden c then
    if c.toNat < 0x100 then backslash :: 'x' :: hexDigits 2 c.toNat
    else if c.toNat < 0x10000 then backslash :: 'u' :: hexDigits 4 c.toNat
    else backslash :: 'U' :: hexDigits 8 c.toNat
  else [c]

def quoteChars (cs : List Char) : List Char :=
  let mark := quoteMark cs
  mark :: cs.flatMap (quoteChar mark) ++ [mark]

/-- The text as messages show it. -/
def quoted (s : String) : String :=
  String.ofList (quoteChars s.toList)

end Abacus.Text
