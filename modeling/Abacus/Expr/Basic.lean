import Abacus.Fault
import Abacus.Foreign

/-!
# Expressions

Trees of whole-number literals, variables and binary operators. A tree may also be badly built: an
operator is kept as the text it was given, and an operand may be something that is no expression at
all. `WellFormed` names the trees of the language proper; every traversal says what it does with
the others.
-/

namespace Abacus

inductive Operator where
  | plus
  | times
deriving DecidableEq, Repr

namespace Operator

def symbol : Operator → String
  | .plus => "+"
  | .times => "*"

def ofSymbol? (op : String) : Option Operator :=
  if op = "+" then some .plus else if op = "*" then some .times else none

def apply : Operator → Int → Int → Int
  | .plus, a, b => a + b
  | .times, a, b => a * b

@[simp] theorem ofSymbol?_symbol (o : Operator) : ofSymbol? o.symbol = some o := by
  cases o <;> decide

theorem ofSymbol?_eq_some_iff {op : String} {o : Operator} :
    ofSymbol? op = some o ↔ op = o.symbol := by
  constructor
  · intro h
    unfold ofSymbol? at h
    split at h
    · cases h; assumption
    · split at h <;> cases h
      assumption
  · rintro rfl
    exact ofSymbol?_symbol o

end Operator

inductive Expr where
  | literal (value : Int)
  | var (name : String)
  | binary (op : String) (left right : Expr)
  | foreign (it : Foreign)
deriving Inhabited

namespace Expr

/-- A sum. -/
abbrev add (left right : Expr) : Expr := .binary Operator.plus.symbol left right

/-- A product. -/
abbrev mul (left right : Expr) : Expr := .binary Operator.times.symbol left right

/-- Built from literals, variables and the two operators alone. -/
def WellFormed : Expr → Prop
  | .literal _ => True
  | .var _ => True
  | .binary op l r => (Operator.ofSymbol? op).isSome ∧ WellFormed l ∧ WellFormed r
  | .foreign _ => False

instance decidableWellFormed : (e : Expr) → Decidable e.WellFormed
  | .literal _ => .isTrue trivial
  | .var _ => .isTrue trivial
  | .binary op l r =>
    have := decidableWellFormed l
    have := decidableWellFormed r
    inferInstanceAs (Decidable ((Operator.ofSymbol? op).isSome ∧ WellFormed l ∧ WellFormed r))
  | .foreign _ => .isFalse id

/-- Well-formed trees by the operator at the root. -/
theorem wellFormed_binary_iff {op : String} {l r : Expr} :
    WellFormed (.binary op l r) ↔ ∃ o : Operator, op = o.symbol ∧ WellFormed l ∧ WellFormed r := by
  simp only [WellFormed, Option.isSome_iff_exists, Operator.ofSymbol?_eq_some_iff]
  constructor
  · rintro ⟨⟨o, rfl⟩, hl, hr⟩
    exact ⟨o, rfl, hl, hr⟩
  · rintro ⟨o, rfl, hl, hr⟩
    exact ⟨⟨o, rfl⟩, hl, hr⟩

/-- The operator that a text names. -/
def operator (op : String) : Except Fault Operator :=
  match Operator.ofSymbol? op with
  | some o => .ok o
  | none => .error (.unrecognizedOperator op)

@[simp] theorem operator_symbol (o : Operator) : operator o.symbol = .ok o := by
  simp [operator]

/-- The fault that a traversal reports at something that is no known node. -/
def reject {α : Type} (it : Foreign) : Except Fault α :=
  .error (.unrecognizedNode it.kindName)

end Expr

end Abacus
