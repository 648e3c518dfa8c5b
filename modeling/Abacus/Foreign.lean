import Abacus.Datum.Display
import Abacus.Datum.Same

/-!
# Foreign things

Where an expression should stand, something else may stand instead: a node of an unknown kind, a
datum, or an object that is neither. A tree keeps such a thing and says what it is; all that it can
tell of it is the kind, the text that shows it and what it is equal to. Every foreign thing has a
serial number, by which it is known again.
-/

namespace Abacus

/-- What can be told of an object that is neither a node nor a datum. -/
structure Thing where
  kind : String
  shown : String
  /-- Objects are equal when these numbers are. -/
  likeness : Nat
  /-- The datum that the object is equal to, if it is a mapping. -/
  mapping? : Option Datum := none
  /-- The kind of the first part that no key can hold, if there is one. -/
  unhashable? : Option String := none
deriving Repr, Inhabited

inductive Foreign where
  /-- A node of a kind that no traversal knows. -/
  | node (kind : String) (serial : Nat)
  | datum (value : Datum) (serial : Nat)
  | object (thing : Thing) (serial : Nat)
deriving Repr, Inhabited

namespace Foreign

def kindName : Foreign → String
  | .node kind _ => kind
  | .datum value _ => value.kindName
  | .object thing _ => thing.kind

def serial : Foreign → Nat
  | .node _ serial => serial
  | .datum _ serial => serial
  | .object _ serial => serial

def describe : Foreign → String
  | .node kind _ => s!"<{kind}>"
  | .datum value _ => value.display
  | .object thing _ => thing.shown

/-- The kind of the first part that keeps the thing from being a key. -/
def unhashable? : Foreign → Option String
  | .node _ _ => none
  | .datum value _ => value.unhashable?
  | .object thing _ => thing.unhashable?

/-- Equality of foreign things. A float that is no number equals nothing, not even itself. -/
def same : Foreign → Foreign → Bool
  | .node _ m, .node _ n => m == n
  | .datum (.float x) _, .datum y _ => (Datum.float x).same y
  | .datum x m, .datum y n => m == n || x.same y
  | .object a _, .object b _ => a.likeness == b.likeness
  | .object a _, .datum y _ => a.mapping?.any (·.same y)
  | .datum x _, .object b _ => b.mapping?.any x.same
  | _, _ => false

/-- Equality of foreign things as parts of greater ones: there every thing is equal to itself. -/
def sameAsPart (a b : Foreign) : Bool := a.serial == b.serial || a.same b

@[simp] theorem sameAsPart_self (a : Foreign) : a.sameAsPart a = true := by
  simp [sameAsPart]

end Foreign

end Abacus
