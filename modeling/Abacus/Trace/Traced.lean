import Abacus.Fault
import Abacus.Trace.Writer

/-!
# Computations that write

A traced computation is given a writer. It has an answer, which may be a fault, it leaves the writer
at some level, and it leaves behind what it wrote, also when it ends in a fault. A block of text is
closed however its body ends.
-/

namespace Abacus

/-- What a traced computation leaves behind. -/
structure Outcome (α : Type) where
  answer : Except Fault α
  level : Int
  written : Transcript

/-- A computation that writes with a given writer. -/
def Traced (α : Type) : Type := Writer → Outcome α

namespace Traced

/-- The second computation goes on with the first one's result at the level that it left. -/
def andThen {α β : Type} (m : Traced α) (f : α → Traced β) : Traced β := fun w =>
  let first := m w
  match first.answer with
  | .error fault => ⟨.error fault, first.level, first.written⟩
  | .ok a =>
    let second := f a (w.atLevel first.level)
    ⟨second.answer, second.level, first.written ++ second.written⟩

instance : Monad Traced where
  pure a := fun w => ⟨.ok a, w.level, []⟩
  bind := andThen

/-- An answer that writes nothing. -/
def ofExcept {α : Type} (answer : Except Fault α) : Traced α := fun w => ⟨answer, w.level, []⟩

instance : MonadLift (Except Fault) Traced := ⟨ofExcept⟩

/-- Writes a text that may depend on the writer. -/
def write (text : Writer → String) : Traced Unit := fun w => ⟨.ok (), w.level, [⟨w.stream, text w⟩]⟩

/-- Carries out a computation if the writer is a debugging one. -/
def whenDebugging (m : Traced Unit) : Traced Unit := fun w =>
  if w.debugging then m w else ⟨.ok (), w.level, []⟩

/-- Carries out a computation with a writer of its own. -/
def withWriter {α : Type} (writer : Writer) (m : Traced α) : Traced α := fun w =>
  let o := m writer
  { o with level := w.level }

/-! ## What a writer can do -/

/-- Text for debugging writers, behind the margin. -/
def debug (message : String) : Traced Unit :=
  whenDebugging (write fun w => w.margin ++ message)

/-- A line of text for debugging writers. -/
def debugLine (message : String) : Traced Unit :=
  whenDebugging (write fun w => w.margin ++ message ++ "\n")

/-- A horizontal rule of dashes; a negative size counts as zero. -/
def rule (size : Int := 80) : Traced Unit :=
  write fun _ => Writer.repeated '-' size.toNat ++ "\n"

/-- Text behind the margin, with a rule before and after it if it is boxed. -/
def print (message : String) (boxed : Bool := false) : Traced Unit := do
  if boxed then rule
  write fun w => w.margin ++ message
  if boxed then rule

/-- A line of text behind the margin. -/
def printLine (message : String) (boxed : Bool := false) : Traced Unit :=
  print (message ++ "\n") boxed

/-- Changes the level of a debugging writer. -/
def shift (steps : Int) : Traced Unit := fun w =>
  ⟨.ok (), if w.debugging then w.level + steps else w.level, []⟩

def indent : Traced Unit := shift 1

def dedent : Traced Unit := shift (-1)

def newline (onlyDebugging : Bool := false) : Traced Unit :=
  if onlyDebugging then whenDebugging (write fun _ => "\n") else write fun _ => "\n"

end Traced

/-- A stretch of text that is marked off from the text around it. -/
inductive Block where
  /-- One level deeper. -/
  | indented
  /-- Between rules; the lower one may be left out. -/
  | boxed (omitLower : Bool)
deriving DecidableEq, Repr

namespace Block

def enter : Block → Traced Unit
  | .indented => Traced.indent
  | .boxed _ => Traced.rule

def leave : Block → Traced Unit
  | .indented => Traced.dedent
  | .boxed omitLower => if omitLower then pure () else Traced.rule

/-- Carries out the body inside the block. The block is left however the body ends, and the body's
answer is the answer. -/
def around {α : Type} (block : Block) (body : Traced α) : Traced α := do
  block.enter
  fun w =>
    let inner := body w
    let last := block.leave (w.atLevel inner.level)
    ⟨inner.answer, last.level, inner.written ++ last.written⟩

end Block

end Abacus
