import Abacus.Host.Text

/-!
# Compiled expressions

Compiling simplifies a tree, unless told not to, lays out the variables that are left, and replaces
them by their slots.
-/

namespace Abacus

structure Compiled where
  expression : Expr
  layout : Layout
  slotted : Slotted

/-- The name of a host function when none is given. -/
def Compiled.defaultName : String := "staged"

namespace Expr

def compile (simplified : Bool) (e : Expr) : Except Fault Compiled := do
  let e ← if simplified then e.simplify else .ok e
  let layout ← e.layout
  let slotted ← e.slotted layout
  return ⟨e, layout, slotted⟩

def compileTraced (simplified : Bool) (e : Expr) : Traced Compiled := do
  let e ← if simplified then e.simplifyTraced else pure e
  let layout ← e.layout
  let slotted ← e.slottedTraced layout
  return ⟨e, layout, slotted⟩

end Expr

namespace Compiled

/-- The value under an environment. -/
def run (c : Compiled) (env : Env) : Except Fault Int := do
  let values ← c.layout.values env
  c.slotted.run ⟨values, true⟩

/-- The values under several environments; the first fault ends them all. -/
def runMany (c : Compiled) (envs : List Env) : Except Fault (List Int) :=
  envs.mapM c.run

def hostText (c : Compiled) (target : Target) : Except Fault String :=
  c.expression.hostText c.layout target

def hostFunction (c : Compiled) (target : Target) (name : String) : Except Fault String :=
  c.expression.hostFunction c.layout target name

def hostTextTraced (c : Compiled) (target : Target) : Traced String :=
  c.expression.hostTextTraced c.layout target

def hostFunctionTraced (c : Compiled) (target : Target) (name : String) : Traced String :=
  c.expression.hostFunctionTraced c.layout target name

end Compiled

end Abacus
