import Abacus.Expr.Same
import Abacus.Layout

/-!
# Slotted expressions

In a slotted expression every variable has been replaced by its slot, once and for all. It is run on
a row of values, one for each slot; running it needs neither names nor a layout. A slot may also be
counted from the end of the row, as a negative number.
-/

namespace Abacus

/-- A row of values, and whether it is a fixed tuple or a list; that shows in faults only. -/
structure Row where
  values : List Int
  isTuple : Bool := true
deriving DecidableEq, Repr

namespace Row

/-- The largest number that can count positions. -/
def widest : Int := 0x7fffffffffffffff

/-- The value at a position; a negative position counts from the end. -/
def get? (row : Row) (index : Int) : Option Int :=
  if 0 ≤ index then row.values[index.toNat]?
  else if 0 ≤ row.values.length + index then row.values[(row.values.length + index).toNat]?
  else none

/-- A position outside the row is too wide when no row could have it. -/
def get (row : Row) (index : Int) : Except Fault Int :=
  match row.get? index with
  | some v => .ok v
  | none =>
    if widest < index ∨ index < -widest - 1 then .error .positionTooWide
    else .error (.positionOutOfRange (if row.isTuple then "tuple" else "list"))

end Row

inductive Slotted where
  | literal (value : Int)
  | slot (index : Int)
  /-- Two operands with the text of their operator and the operation that is carried out. -/
  | binary (op : String) (operation : Operator) (left right : Slotted)
  | foreign (it : Foreign)
deriving Inhabited

namespace Slotted

def run (row : Row) : Slotted → Except Fault Int
  | .literal v => .ok v
  | .slot index => row.get index
  | .binary _ o l r => do
    let a ← l.run row
    let b ← r.run row
    return o.apply a b
  | .foreign it => .error (.notCallable it.kindName)

def same : Slotted → Slotted → Bool
  | .literal v, .literal w => v == w
  | .slot i, .slot j => i == j
  | .binary op o l r, .binary op' o' l' r' => op == op' && o == o' && l.same l' && r.same r'
  | .foreign x, .foreign y => x.sameAsPart y
  | _, _ => false

/-- The kind of the first part that keeps the expression from being a key. -/
def unhashable? : Slotted → Option String
  | .literal _ => none
  | .slot _ => none
  | .binary _ _ l r =>
    match l.unhashable? with
    | some kind => some kind
    | none => r.unhashable?
  | .foreign it => it.unhashable?

end Slotted

namespace Expr

/-- The tree with the slots of a layout in place of its variables. -/
def slotted (t : Layout) : Expr → Except Fault Slotted
  | .literal v => .ok (.literal v)
  | .var name => do
    let i ← t.slot name
    return .slot i
  | .binary op l r => do
    let o ← operator op
    let left ← l.slotted t
    let right ← r.slotted t
    return .binary op o left right
  | .foreign it => reject it

end Expr

end Abacus
