import Abacus.Compile

/-!
# Constructor text

Trees, slotted expressions, host languages and compiled expressions are shown with every part and
its name, in the order of the parts, so that the text shows their structure exactly, that of badly
built ones included.
-/

namespace Abacus

def Expr.describe : Expr → String
  | .literal v => s!"Literal(value={v})"
  | .var name => s!"Variable(name={Text.quoted name})"
  | .binary op l r =>
    s!"BinaryOp(op={Text.quoted op}, left={l.describe}, right={r.describe})"
  | .foreign it => it.describe

/-- How the operation itself is shown. -/
def Operator.describe : Operator → String
  | .plus => "<built-in function add>"
  | .times => "<built-in function mul>"

def Slotted.describe : Slotted → String
  | .literal v => s!"Constant(value={v})"
  | .slot index => s!"Slot(index={index})"
  | .binary op o l r =>
    s!"Combine(op={Text.quoted op}, apply={o.describe}, left={l.describe}, right={r.describe})"
  | .foreign it => it.describe

/-- The least and the greatest literal in parentheses. -/
def Host.describeBounds : Option (Int × Int) → String
  | none => Datum.null.display
  | some (low, high) => (Datum.tuple [.int low, .int high]).display

def Host.describe (h : Host) : String :=
  s!"HostSyntax(name={Text.quoted h.name}, array_name={Text.quoted h.array}, " ++
  s!"function_template={Text.quoted h.template}, literal_bounds={Host.describeBounds h.bounds})"

def Compiled.describe (c : Compiled) : String :=
  s!"CompiledExpression(expression={c.expression.describe}, table={c.layout.display}, " ++
  s!"staged={c.slotted.describe})"

end Abacus
