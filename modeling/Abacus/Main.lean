import Abacus.Demo

/-!
# The command line

Running the program shows the demonstration on the standard output.
-/

namespace Abacus

/-- The text that the program shows. -/
def shown : String :=
  Transcript.on .standard (Demo.run false (Writer.byDefault false)).written

end Abacus

def main : IO Unit :=
  IO.print Abacus.shown
