import Abacus.Expr.Basic

/-!
# Size, depth and variables of a tree, and all small trees

The walks look at the shape of a tree only. They do not mind an unknown operator, and they fail
exactly at the leftmost thing that is no expression. The corpus is every tree over given leaves up
to a given depth.
-/

namespace Abacus.Expr

/-- The number of nodes. -/
def size : Expr → Except Fault Nat
  | .literal _ => .ok 1
  | .var _ => .ok 1
  | .binary _ l r => do
    let m ← l.size
    let n ← r.size
    return 1 + m + n
  | .foreign it => reject it

/-- The number of operators on the longest way down. -/
def depth : Expr → Except Fault Nat
  | .literal _ => .ok 0
  | .var _ => .ok 0
  | .binary _ l r => do
    let m ← l.depth
    let n ← r.depth
    return 1 + max m n
  | .foreign it => reject it

/-- The names of the variables from left to right, as often as they occur. -/
def occurrences : Expr → Except Fault (List String)
  | .literal _ => .ok []
  | .var name => .ok [name]
  | .binary _ l r => do
    let xs ← l.occurrences
    let ys ← r.occurrences
    return xs ++ ys
  | .foreign it => reject it

/-- Order of texts by their code points. -/
def textLE (s t : String) : Bool := decide (s ≤ t)

/-- The names of the variables, each once, in the order of their code points. -/
def freeVariables (e : Expr) : Except Fault (List String) := do
  let names ← e.occurrences
  return names.eraseDups.mergeSort textLE

/-- The tree with every variable renamed. -/
def rename (f : String → String) : Expr → Expr
  | .literal v => .literal v
  | .var name => .var (f name)
  | .binary op l r => .binary op (l.rename f) (r.rename f)
  | .foreign it => .foreign it

/-! ## All small trees -/

def leaves (literals : List Int) (names : List String) : List Expr :=
  literals.map .literal ++ names.map .var

/-- Every sum and then every product of two trees of a list. -/
def pairs (trees : List Expr) : List Expr :=
  [add, mul].flatMap fun build => trees.flatMap fun l => trees.map fun r => build l r

/-- Every tree of at most this depth: the leaves first, then what can be built from the trees of at
most one less. -/
def corpus (literals : List Int) (names : List String) : Nat → List Expr
  | 0 => leaves literals names
  | depth + 1 => leaves literals names ++ pairs (corpus literals names depth)

/-- The literals that are used when none are given. -/
def defaultLiterals : List Int := [0, 1, 2]

/-- The names that are used when none are given. -/
def defaultNames : List String := ["x", "y"]

end Abacus.Expr
