import Abacus.Expr.Basic
import Abacus.Json.Reader
import Abacus.Json.Text

/-!
# Checked building, and trees as records

What is handed in to build a tree may be any datum; only whole numbers become literals, only texts
that are not empty become variables, and only expressions become operands. An unknown operator is
found before the operands are looked at, and the left operand before the right one.

A record is a mapping whose field `type` says what it is: a literal with a `value`, a variable with
a `name`, or a sum or product with a `left` and a `right` record. Fields beyond these are ignored.
Reading reports the first thing that is wrong, the type before the other fields and the left
operand before the right one.
-/

namespace Abacus

/-- The name of an operator's records. -/
def Operator.recordType : Operator → String
  | .plus => "Plus"
  | .times => "Multiply"

def Operator.ofRecordType? (type : String) : Option Operator :=
  if type = "Plus" then some .plus else if type = "Multiply" then some .times else none

namespace Expr

/-! ## Checked building -/

def ofValue : Datum → Except Fault Expr
  | .int v => .ok (.literal v)
  | got => .error (.malformed (.literalValue got))

def ofName : Datum → Except Fault Expr
  | .text name =>
    if name.isEmpty then .error (.malformed (.variableName (.text name))) else .ok (.var name)
  | got => .error (.malformed (.variableName got))

/-- A node of an unknown kind is an expression, any other foreign thing is none. -/
def checkOperand (op : String) : Expr → Except Fault Unit
  | .foreign (.node _ _) => .ok ()
  | .foreign it => .error (.malformed (.operand op it.kindName))
  | _ => .ok ()

def ofOperands (op : String) (left right : Expr) : Except Fault Expr :=
  match Operator.ofSymbol? op with
  | none => .error (.malformed (.operator op))
  | some _ => do
    checkOperand op left
    checkOperand op right
    return .binary op left right

/-! ## Reading records -/

/-- The value of a field that a record of the given type must have. -/
def field (owner key : String) (entries : List (Datum × Datum)) : Except Fault Datum :=
  match Datum.get? key entries with
  | some value => .ok value
  | none => .error (.malformed (.missingField owner key))

/-- The type of a record, as a text. -/
def recordType (entries : List (Datum × Datum)) : Except Fault String := do
  match ← field "<untyped>" "type" entries with
  | .text type => return type
  | got => .error (.malformed (.recordType got))

mutual

/-- The tree that a record describes. -/
def ofRecord : Datum → Except Fault Expr
  | .mapping entries | .view entries => do
    let type ← recordType entries
    if type = "Literal" then ofValue (← field type "value" entries)
    else if type = "Variable" then ofName (← field type "name" entries)
    else
      match Operator.ofRecordType? type with
      | none => .error (.malformed (.unknownRecord type))
      | some o => do
        let left ← ofOperand type "left" entries
        let right ← ofOperand type "right" entries
        ofOperands o.symbol left right
  | got => .error (.malformed (.record got.kindName))

/-- The tree of the operand under a key. -/
def ofOperand (owner key : String) : List (Datum × Datum) → Except Fault Expr
  | [] => .error (.malformed (.missingField owner key))
  | (k, value) :: rest => if k.isText key then ofRecord value else ofOperand owner key rest

end

/-! ## Writing records -/

/-- The operator of a record to be written. -/
def writableOperator (op : String) : Except Fault Operator :=
  match Operator.ofSymbol? op with
  | some o => .ok o
  | none => .error (.unwritableOperator op)

/-- The record that describes a tree. -/
def toRecord : Expr → Except Fault Datum
  | .literal v => .ok (.mapping [(.text "type", .text "Literal"), (.text "value", .int v)])
  | .var name => .ok (.mapping [(.text "type", .text "Variable"), (.text "name", .text name)])
  | .binary op l r => do
    let o ← writableOperator op
    let left ← l.toRecord
    let right ← r.toRecord
    return .mapping
      [(.text "type", .text o.recordType), (.text "left", left), (.text "right", right)]
  | .foreign it => reject it

/-! ## Records as JSON -/

/-- Reads a record that is written as JSON. Only a fault in the text makes it malformed. -/
def ofJson (limit : Option Nat) (text : String) : Except Fault Expr :=
  match Json.read limit text with
  | .ok d => ofRecord d
  | .error (.fault fault) => .error (.malformed (.json fault))
  | .error (.tooManyDigits count most) => .error (.tooManyDigits count most)

/-- The record of a tree, written as JSON. -/
def toJson (e : Expr) : Except Fault String := do
  return Json.text (← e.toRecord)

end Expr

end Abacus
