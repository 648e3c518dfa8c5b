import Abacus.Expr.Basic

/-!
# Equality of trees

Two trees are equal when they have the same nodes in the same places; foreign things in them are
compared as parts. A tree can be a key unless something in it cannot.
-/

namespace Abacus

namespace Expr

def same : Expr → Expr → Bool
  | .literal v, .literal w => v == w
  | .var x, .var y => x == y
  | .binary o l r, .binary p l' r' => o == p && l.same l' && r.same r'
  | .foreign x, .foreign y => x.sameAsPart y
  | _, _ => false

/-- The kind of the first part that keeps the tree from being a key. -/
def unhashable? : Expr → Option String
  | .literal _ => none
  | .var _ => none
  | .binary _ l r =>
    match l.unhashable? with
    | some kind => some kind
    | none => r.unhashable?
  | .foreign it => it.unhashable?

@[simp] theorem same_self (e : Expr) : e.same e = true := by
  induction e with
  | binary op l r ihl ihr => simp [same, ihl, ihr]
  | _ => simp [same]

/-- On well-formed trees this is equality. -/
theorem same_iff_eq {e f : Expr} (he : e.WellFormed) : e.same f = true ↔ e = f := by
  induction e generalizing f with
  | literal v => cases f <;> simp [same]
  | var x => cases f <;> simp [same]
  | binary op l r ihl ihr =>
    cases f with
    | binary op' l' r' => simp [same, ihl he.2.1, ihr he.2.2, and_assoc]
    | _ => simp [same]
  | foreign it => exact he.elim

end Expr

end Abacus
