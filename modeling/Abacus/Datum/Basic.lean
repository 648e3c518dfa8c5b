import Abacus.Binary64.Basic

/-!
# Data of no fixed shape

What a record reader is handed before anything is known about it: numbers, texts, sequences and
mappings, nested at will. A mapping keeps its entries in the order of their first insertion. A view
is a mapping that can only be read.
-/

namespace Abacus

inductive Datum where
  | null
  | bool (b : Bool)
  | int (n : Int)
  | float (x : Binary64)
  | text (s : String)
  | list (items : List Datum)
  | tuple (items : List Datum)
  | mapping (entries : List (Datum × Datum))
  | view (entries : List (Datum × Datum))
deriving Repr, Inhabited

namespace Datum

/-- The name of the kind of datum, as messages give it. -/
def kindName : Datum → String
  | .null => "NoneType"
  | .bool _ => "bool"
  | .int _ => "int"
  | .float _ => "float"
  | .text _ => "str"
  | .list _ => "list"
  | .tuple _ => "tuple"
  | .mapping _ => "dict"
  | .view _ => "mappingproxy"

/-- The entries of a mapping. -/
def entries? : Datum → Option (List (Datum × Datum))
  | .mapping entries => some entries
  | .view entries => some entries
  | _ => none

/-- Is the datum this text? -/
def isText (s : String) : Datum → Bool
  | .text t => t == s
  | _ => false

@[simp] theorem isText_iff {s : String} {d : Datum} : d.isText s = true ↔ d = .text s := by
  cases d <;> simp [isText]

/-- The value under a text. -/
def get? (key : String) : List (Datum × Datum) → Option Datum
  | [] => none
  | (k, v) :: rest => if k.isText key then some v else get? key rest

end Datum

end Abacus
