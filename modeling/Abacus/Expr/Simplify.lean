import Abacus.Expr.Basic

/-!
# Simplification

Both operands are simplified first, then the first rule that fits the root is applied:

* `0 + e` and `e + 0` become `e`, and a sum of two literals becomes their sum;
* a product of two literals becomes their product, `0 * e` and `e * 0` become `0`, and `1 * e` and
  `e * 1` become `e`.

A tree that is not well-formed is refused at the first fault from the leaves upwards.
-/

namespace Abacus.Expr

/-- Is the tree this literal? -/
def isLiteral (v : Int) : Expr → Bool
  | .literal w => w == v
  | _ => false

@[simp] theorem isLiteral_iff {v : Int} {e : Expr} : e.isLiteral v = true ↔ e = .literal v := by
  cases e <;> simp [isLiteral]

/-- The rules for a sum of simplified operands. -/
def simplifySum (l r : Expr) : Expr :=
  if l.isLiteral 0 then r
  else if r.isLiteral 0 then l
  else
    match l, r with
    | .literal a, .literal b => .literal (a + b)
    | l, r => add l r

@[simp] theorem simplifySum_zero_left (e : Expr) : simplifySum (.literal 0) e = e := rfl

@[simp] theorem simplifySum_zero_right (e : Expr) : simplifySum e (.literal 0) = e := by
  unfold simplifySum
  split
  · rename_i h
    exact (isLiteral_iff.1 h).symm
  · rfl

@[simp] theorem simplifySum_literals (a b : Int) :
    simplifySum (.literal a) (.literal b) = .literal (a + b) := by
  unfold simplifySum
  split
  · rename_i h
    cases isLiteral_iff.1 h
    rw [Int.zero_add]
  · split
    · rename_i h
      cases isLiteral_iff.1 h
      rw [Int.add_zero]
    · rfl

/-- The rules for a product of simplified operands. -/
def simplifyProduct (l r : Expr) : Expr :=
  match l, r with
  | .literal a, .literal b => .literal (a * b)
  | l, r =>
    if l.isLiteral 0 || r.isLiteral 0 then .literal 0
    else if l.isLiteral 1 then r
    else if r.isLiteral 1 then l
    else mul l r

@[simp] theorem simplifyProduct_literals (a b : Int) :
    simplifyProduct (.literal a) (.literal b) = .literal (a * b) := rfl

@[simp] theorem simplifyProduct_zero_left (e : Expr) :
    simplifyProduct (.literal 0) e = .literal 0 := by
  cases e <;> simp [simplifyProduct]

@[simp] theorem simplifyProduct_zero_right (e : Expr) :
    simplifyProduct e (.literal 0) = .literal 0 := by
  cases e <;> simp [simplifyProduct]

@[simp] theorem simplifyProduct_one_left (e : Expr) : simplifyProduct (.literal 1) e = e := by
  cases e <;> simp [simplifyProduct]

@[simp] theorem simplifyProduct_one_right (e : Expr) : simplifyProduct e (.literal 1) = e := by
  cases e <;> simp [simplifyProduct]

def simplifyRoot : Operator → Expr → Expr → Expr
  | .plus => simplifySum
  | .times => simplifyProduct

def simplify : Expr → Except Fault Expr
  | .literal v => .ok (.literal v)
  | .var name => .ok (.var name)
  | .binary op l r => do
    let l' ← l.simplify
    let r' ← r.simplify
    let o ← operator op
    return simplifyRoot o l' r'
  | .foreign it => reject it

end Abacus.Expr
