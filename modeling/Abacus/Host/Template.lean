import Abacus.Fault

/-!
# Templates

A template is text with fields in braces. A doubled brace stands for the brace itself. Filling goes
through the template from left to right and puts a value in place of every field; the values are
not looked at again. The first thing that is wrong ends the filling.

Only plain fields are filled, those that are a name and nothing else. A field with a colon, an
exclamation mark, a point or an opening bracket in it asks for more than a name; what it asks for is
not modelled, and such a field counts as one with an unknown name.

A position may be written in digits of any script. Many scripts have ten digits of their own, and
they always follow one another from zero to nine; the table lists the zeros by code point.
-/

namespace Abacus

namespace Text

/-- The code points of the zeros, in ascending order. -/
def zeros : List Nat :=
  [0x30, 0x660, 0x6f0, 0x7c0, 0x966, 0x9e6, 0xa66, 0xae6, 0xb66, 0xbe6, 0xc66, 0xce6, 0xd66, 0xde6,
   0xe50, 0xed0, 0xf20, 0x1040, 0x1090, 0x17e0, 0x1810, 0x1946, 0x19d0, 0x1a80, 0x1a90, 0x1b50,
   0x1bb0, 0x1c40, 0x1c50, 0xa620, 0xa8d0, 0xa900, 0xa9d0, 0xa9f0, 0xaa50, 0xabf0, 0xff10, 0x104a0,
   0x10d30, 0x11066, 0x110f0, 0x11136, 0x111d0, 0x112f0, 0x11450, 0x114d0, 0x11650, 0x116c0,
   0x11730, 0x118e0, 0x11950, 0x11c50, 0x11d50, 0x11da0, 0x16a60, 0x16ac0, 0x16b50, 0x1d7ce,
   0x1d7d8, 0x1d7e2, 0x1d7ec, 0x1d7f6, 0x1e140, 0x1e2f0, 0x1e950, 0x1fbf0]

/-- The value of a decimal digit of any script. -/
def decimalValue? (c : Char) : Option Nat :=
  (zeros.find? fun first => decide (first ≤ c.toNat) && decide (c.toNat < first + 10)).map
    fun first => c.toNat - first

end Text

namespace Template

/-- The largest position that a field may ask for. -/
def widestPosition : Nat := 0x7fffffffffffffff

/-- Does the text count as a position, and which? Digits of any script count, and an empty text asks
for position zero. -/
def position? : Nat → List Char → Except TemplateFault (Option Nat)
  | n, [] => .ok (some n)
  | n, c :: cs =>
    match Text.decimalValue? c with
    | some d =>
      let m := 10 * n + d
      if widestPosition < m then .error .positionTooWide else position? m cs
    | none => .ok none

/-- The value of a field. There are no positional values, so that every field that asks for a
position is at fault. -/
def value (fields : List (String × String)) (name : List Char) : Except TemplateFault (List Char) :=
  match position? 0 name with
  | .error fault => .error fault
  | .ok (some n) => .error (.position n)
  | .ok none =>
    match fields.lookup (String.ofList name) with
    | some v => .ok v.toList
    | none => .error (.unknownField (String.ofList name))

/-- Where the filling is. -/
inductive Mode where
  | plain
  /-- Behind an opening brace. -/
  | opened
  /-- Behind a closing brace that closes no field. -/
  | closed
  /-- Inside a field whose name begins like this. -/
  | field (name : List Char)

def fillChars (fields : List (String × String)) : Mode → List Char → Except TemplateFault (List Char)
  | .plain, [] => .ok []
  | .plain, c :: rest =>
    if c = '\x7b' then fillChars fields .opened rest
    else if c = '\x7d' then fillChars fields .closed rest
    else do
      let filled ← fillChars fields .plain rest
      return c :: filled
  | .opened, [] => .error .loneOpen
  | .opened, c :: rest =>
    if c = '\x7b' then do
      let filled ← fillChars fields .plain rest
      return c :: filled
    else if c = '\x7d' then do
      let v ← value fields []
      let filled ← fillChars fields .plain rest
      return v ++ filled
    else fillChars fields (.field [c]) rest
  | .closed, [] => .error .loneClose
  | .closed, c :: rest =>
    if c = '\x7d' then do
      let filled ← fillChars fields .plain rest
      return c :: filled
    else .error .loneClose
  | .field _, [] => .error .unclosed
  | .field name, c :: rest =>
    if c = '\x7b' then .error .openInField
    else if c = '\x7d' then do
      let v ← value fields name
      let filled ← fillChars fields .plain rest
      return v ++ filled
    else fillChars fields (.field (name ++ [c])) rest

/-- The template with the values in place of its fields, all of them plain. -/
def fill (fields : List (String × String)) (template : String) : Except Fault String :=
  match fillChars fields .plain template.toList with
  | .ok cs => .ok (String.ofList cs)
  | .error fault => .error (.template fault)

end Template

end Abacus
