import Abacus.Compile

/-!
# A demonstration

One polynomial is shown, evaluated, compiled and written in both built-in host languages. The last
step traces to a writer of its own, which debugs if new writers do.
-/

namespace Abacus.Demo

open Traced (print printLine newline withWriter)

/-- `(x * x + 0) * 1 + (2 * 3) * y`. -/
def polynomial : Expr :=
  let x := Expr.var "x"
  let y := Expr.var "y"
  .add (.mul (.add (.mul x x) (.literal 0)) (.literal 1)) (.mul (.mul (.literal 2) (.literal 3)) y)

def envs : List Env := [⟨[("x", 3), ("y", 4)]⟩, ⟨[("x", -2), ("y", 10)]⟩]

def resultLine (env : Env) (value : Int) : Traced Unit :=
  printLine s!"{env.display} -> {value}"

def shown (e : Expr) : Traced Unit := do
  printLine "POLYNOMIAL"
  let text ← e.print
  printLine s!"source      {text}"

def evaluated (e : Expr) : Traced Unit := do
  printLine "interpreted"
  newline true
  for env in envs do
    resultLine env (← e.evalTraced env)

def compiled (c : Compiled) : Traced Unit := do
  printLine "staged"
  let text ← c.expression.print
  printLine s!"simplified  {text}"
  printLine s!"slots       {c.layout.toDatum.display}"
  let results ← c.runMany envs
  for (env, result) in envs.zip results do
    resultLine env result

def written (fresh : Writer) (c : Compiled) : Traced Unit := do
  printLine "generated"
  for host in [Host.python, Host.c] do
    let function := c.hostFunctionTraced (.named host.name) Compiled.defaultName
    print (← withWriter fresh function)

/-- The demonstration. `debugging` says whether new writers debug. -/
def run (debugging : Bool) : Traced Unit := do
  Block.around (.boxed true) (shown polynomial)
  Block.around (.boxed true) (evaluated polynomial)
  let c ← polynomial.compileTraced true
  Block.around (.boxed true) (compiled c)
  Block.around (.boxed false) (written (Writer.byDefault debugging) c)

end Abacus.Demo
