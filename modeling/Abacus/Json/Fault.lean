import Abacus.Text.Place

/-!
# What can be wrong with a JSON text

A fault names its cause and the place where the text first cannot be read on. A text without fault
is refused as well if a whole number in it is written with too many digits.
-/

namespace Abacus.Json

inductive Cause where
  | value
  | propertyName
  | colon
  | comma
  | unterminated
  | controlCharacter
  | badEscape
  | badCodePoint
  | extraData
  | byteOrderMark
deriving DecidableEq, Repr

def Cause.message : Cause → String
  | .value => "Expecting value"
  | .propertyName => "Expecting property name enclosed in double quotes"
  | .colon => "Expecting ':' delimiter"
  | .comma => "Expecting ',' delimiter"
  | .unterminated => "Unterminated string starting at"
  | .controlCharacter => "Invalid control character at"
  | .badEscape => "Invalid \\escape"
  | .badCodePoint => "Invalid \\uXXXX escape"
  | .extraData => "Extra data"
  | .byteOrderMark => "Unexpected UTF-8 BOM (decode using utf-8-sig)"

structure Fault where
  cause : Cause
  place : Text.Place
deriving DecidableEq, Repr

def Fault.message (f : Fault) : String :=
  s!"{f.cause.message}: line {f.place.line} column {f.place.column} (char {f.place.offset})"

/-- Why a text is not read. -/
inductive Refusal where
  | fault (fault : Fault)
  /-- A whole number has this many digits, and no more than the limit are allowed. -/
  | tooManyDigits (count limit : Nat)
deriving DecidableEq, Repr

end Abacus.Json
