import Abacus.Datum.Display
import Abacus.Json.Fault

/-!
# Everything that can go wrong, apart from the reading of infix text

Each constructor is one cause with what a message needs to name it; the wording stands in one place
below. Three groups have types of their own: trees that cannot be built, templates that cannot be
filled, and all other causes. A whole number of too many digits in a JSON text is one of the
others, although the text gives no tree.
-/

namespace Abacus

/-- Why no tree can be built. -/
inductive Malformed where
  | literalValue (got : Datum)
  | variableName (got : Datum)
  | operator (op : String)
  | operand (op : String) (kind : String)
  | record (kind : String)
  | recordType (got : Datum)
  | unknownRecord (given : String)
  | missingField (owner field : String)
  | json (fault : Json.Fault)

def Malformed.message : Malformed → String
  | .literalValue got => s!"literal value must be an integer, got {got.display}"
  | .variableName got => s!"variable name must be a non-empty string, got {got.display}"
  | .operator op => s!"unknown operator: {Text.quoted op}"
  | .operand op kind => s!"operand of {op} must be an expression, got {kind}"
  | .record kind => s!"expected an expression record, got {kind}"
  | .recordType got => s!"record type must be a string, got {got.display}"
  | .unknownRecord given => s!"unknown expression record type: {Text.quoted given}"
  | .missingField owner field => s!"{owner} record is missing field {Text.quoted field}"
  | .json fault => s!"invalid JSON: {fault.message}"

/-- Why a template cannot be filled. -/
inductive TemplateFault where
  | loneOpen
  | loneClose
  | openInField
  | unclosed
  | unknownField (name : String)
  | position (index : Nat)
  | positionTooWide
deriving DecidableEq, Repr

def TemplateFault.message : TemplateFault → String
  | .loneOpen => "Single '\x7b' encountered in format string"
  | .loneClose => "Single '\x7d' encountered in format string"
  | .openInField => "unexpected '\x7b' in field name"
  | .unclosed => "expected '\x7d' before end of string"
  | .unknownField name => Text.quoted name
  | .position index => s!"Replacement index {index} out of range for positional args tuple"
  | .positionTooWide => "Too many decimal digits in format string"

inductive Fault where
  /-- A tree cannot be built. -/
  | malformed (cause : Malformed)
  /-- A variable has no value or no slot. -/
  | unboundVariable (name : String)
  /-- A node is none of the kinds that a tree is made of. -/
  | unrecognizedNode (kind : String)
  | unrecognizedOperator (op : String)
  /-- No record has this operator. -/
  | unwritableOperator (op : String)
  | duplicateSlot (name : String)
  | positionOutOfRange (container : String)
  | positionTooWide
  | notCallable (kind : String)
  /-- Something that is no key is looked up. -/
  | unhashable (kind : String)
  | unknownTarget (shown : String) (known : List String)
  | literalOutOfRange (value : Int) (target : String)
  | template (cause : TemplateFault)
  /-- A whole number has more digits than the limit. -/
  | tooManyDigits (count limit : Nat)

def Fault.message : Fault → String
  | .malformed cause => cause.message
  | .unboundVariable name => s!"unbound variable: {name}"
  | .unrecognizedNode kind => s!"Unsupported expression type: {kind}"
  | .unrecognizedOperator op => s!"Unsupported operator: {Text.quoted op}"
  | .unwritableOperator op => Text.quoted op
  | .duplicateSlot name => s!"duplicate slot name: {name}"
  | .positionOutOfRange container => s!"{container} index out of range"
  | .positionTooWide => "cannot fit 'int' into an index-sized integer"
  | .notCallable kind => s!"'{kind}' object is not callable"
  | .unhashable kind => s!"unhashable type: '{kind}'"
  | .unknownTarget shown known =>
    s!"unknown target {shown}, expected one of {(Datum.list (known.map .text)).display}"
  | .literalOutOfRange value target =>
    s!"literal {value} is out of range for target {Text.quoted target}"
  | .template cause => cause.message
  | .tooManyDigits count limit =>
    s!"Exceeds the limit ({limit} digits) for integer string conversion: " ++
    s!"value has {count} digits; use sys.set_int_max_str_digits() to increase the limit"

end Abacus
