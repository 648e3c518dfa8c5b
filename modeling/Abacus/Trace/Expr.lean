import Abacus.Expr.Eval
import Abacus.Expr.Same
import Abacus.Expr.Simplify
import Abacus.Slotted
import Abacus.Trace.Traced

/-!
# Traces of expressions

The traced forms of evaluation, simplification and the replacement of variables do the same work and
tell a debugging writer about it: evaluation about every operation that it completes, simplification
about every node that it changes, and replacement about every variable that it finds a slot for.
-/

namespace Abacus.Expr

open Traced (debugLine)

def evalTraced (env : Env) : Expr → Traced Int
  | .literal v => pure v
  | .var name => env.value name
  | .binary op l r => do
    let o ← operator op
    let a ← l.evalTraced env
    let b ← r.evalTraced env
    let c := o.apply a b
    debugLine s!"[({a}) {op} ({b}) => {c}]"
    return c
  | .foreign it => Traced.ofExcept (reject it)

/-- Tells what a node has become, if it is no longer the same. -/
def traceChange (before after : Expr) : Traced Unit :=
  Traced.whenDebugging do
    if after.same before then return ()
    let old ← before.print
    let new ← after.print
    debugLine s!"[{old} => {new}]"

def simplifyTraced : Expr → Traced Expr
  | .literal v => pure (.literal v)
  | .var name => pure (.var name)
  | .binary op l r => do
    let (l', r') ← Block.around .indented do
      let l' ← l.simplifyTraced
      let r' ← r.simplifyTraced
      return (l', r')
    let o ← operator op
    let result := simplifyRoot o l' r'
    traceChange (.binary op l r) result
    return result
  | .foreign it => Traced.ofExcept (reject it)

def slottedTraced (t : Layout) : Expr → Traced Slotted
  | .literal v => pure (.literal v)
  | .var name => do
    let i ← t.slot name
    debugLine s!"[{name} => slot {i}]"
    return .slot i
  | .binary op l r => do
    let o ← operator op
    let left ← l.slottedTraced t
    let right ← r.slottedTraced t
    return .binary op o left right
  | .foreign it => Traced.ofExcept (reject it)

end Abacus.Expr
