import Abacus.Host.Basic
import Abacus.Host.Template
import Abacus.Slotted
import Abacus.Trace.Expr

/-!
# Text of a host language

A slotted expression becomes text that reads its variables from an array. For a tree, the slots come
first, then the target is looked up, and then the text is made; for a whole function the target is
looked up before anything else and the template is filled at the end.
-/

namespace Abacus

namespace Slotted

/-- The expression in a host language, every operation in parentheses. -/
def textIn (h : Host) : Slotted → Except Fault String
  | .literal v => h.literal v
  | .slot index => .ok (h.read index)
  | .binary op _ l r => do
    let left ← l.textIn h
    let right ← r.textIn h
    return "(" ++ left ++ op ++ right ++ ")"
  | .foreign it => .error (.unrecognizedNode it.kindName)

def hostText (target : Target) (s : Slotted) : Except Fault String := do
  let h ← target.host
  s.textIn h

end Slotted

/-- A function of the host language with the given name and body. -/
def Host.function (h : Host) (name body : String) : Except Fault String :=
  Template.fill [("name", name), ("array", h.array), ("body", body)] h.template

namespace Expr

def hostText (t : Layout) (target : Target) (e : Expr) : Except Fault String := do
  let s ← e.slotted t
  s.hostText target

def hostFunction (t : Layout) (target : Target) (name : String) (e : Expr) :
    Except Fault String := do
  let h ← target.host
  let body ← e.hostText t (.described h)
  h.function name body

def hostTextTraced (t : Layout) (target : Target) (e : Expr) : Traced String := do
  let s ← e.slottedTraced t
  s.hostText target

def hostFunctionTraced (t : Layout) (target : Target) (name : String) (e : Expr) :
    Traced String := do
  let h ← target.host
  let body ← e.hostTextTraced t (.described h)
  h.function name body

end Expr

end Abacus
