import Abacus.Expr.Basic

/-!
# The value of a tree, and its text

An environment gives whole numbers to names. It keeps its bindings in the order in which they were
given; the first binding of a name counts.

Evaluation looks at an operator before its operands and at the left operand before the right one,
and it needs the values of all variables, also of those that a factor of zero makes irrelevant.
Infix text is written in the same order; every operator stands between its operands inside one pair
of parentheses.

The limits of the runtime are left out: a whole number is written however many digits it has,
and no tree is too deep.
-/

namespace Abacus

structure Env where
  bindings : List (String × Int)
deriving DecidableEq, Repr, Inhabited

namespace Env

def get? (env : Env) (name : String) : Option Int :=
  env.bindings.lookup name

/-- The value of a variable. -/
def value (env : Env) (name : String) : Except Fault Int :=
  match env.get? name with
  | some v => .ok v
  | none => .error (.unboundVariable name)

/-- The environment as messages show it. -/
def display (env : Env) : String :=
  (Datum.mapping (env.bindings.map fun b => (.text b.1, .int b.2))).display

end Env

namespace Expr

def eval (env : Env) : Expr → Except Fault Int
  | .literal v => .ok v
  | .var name => env.value name
  | .binary op l r => do
    let o ← operator op
    let a ← l.eval env
    let b ← r.eval env
    return o.apply a b
  | .foreign it => reject it

def print : Expr → Except Fault String
  | .literal v => .ok (toString v)
  | .var name => .ok name
  | .binary op l r => do
    let o ← operator op
    let left ← l.print
    let right ← r.print
    return "(" ++ left ++ o.symbol ++ right ++ ")"
  | .foreign it => reject it

end Expr

end Abacus
