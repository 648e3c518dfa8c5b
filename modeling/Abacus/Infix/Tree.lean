import Abacus.Expr.Basic
import Abacus.Infix.Token

/-!
# Operand trees

What reading infix text yields: sums and products over the tokens of the operands, which know their
places in the text. Parentheses leave no node behind.
-/

namespace Abacus.Infix

inductive Tree where
  | number (token : Placed)
  | name (token : Placed)
  | sum (left right : Tree)
  | product (left right : Tree)
deriving DecidableEq, Repr

/-- The operands from left to right. -/
def Tree.leaves : Tree → List Placed
  | .number t => [t]
  | .name t => [t]
  | .sum l r => l.leaves ++ r.leaves
  | .product l r => l.leaves ++ r.leaves

/-- The operators from left to right. -/
def Tree.operators : Tree → List Operator
  | .number _ => []
  | .name _ => []
  | .sum l r => l.operators ++ .plus :: r.operators
  | .product l r => l.operators ++ .times :: r.operators

/-- The expression that an operand tree writes. -/
def Tree.toExpr : Tree → Expr
  | .number t => .literal t.token.toInt
  | .name t => .var t.token.text
  | .sum l r => .add l.toExpr r.toExpr
  | .product l r => .mul l.toExpr r.toExpr

end Abacus.Infix
