/-!
# Writers

A writer puts text on a stream. A debugging writer keeps a level of indentation and puts that many
margins in front of what it prints; any other writer prints without a margin and drops debug text.

The limits of the runtime are left out: no margin is too wide to be a text, and the numbers in
messages are shown however many digits they have.
-/

namespace Abacus

/-- Where text goes. -/
inductive Stream where
  | standard
  | named (name : String)
deriving DecidableEq, Repr, Inhabited

structure Writer where
  /-- The width of one margin; a negative width counts as none. -/
  indentSize : Int := 3
  /-- The number of margins; a negative number counts as none. -/
  level : Int := 0
  debugging : Bool := false
  stream : Stream := .standard
deriving DecidableEq, Repr, Inhabited

/-- A text put on a stream. -/
structure Write where
  stream : Stream
  text : String
deriving DecidableEq, Repr

/-- All that was written, in order. -/
abbrev Transcript := List Write

/-- The text that a stream received. -/
def Transcript.on (stream : Stream) (t : Transcript) : String :=
  t.foldl (fun text w => if w.stream = stream then text ++ w.text else text) ""

theorem Transcript.on_mk (stream : Stream) (texts : List String) :
    Transcript.on stream (texts.map (Write.mk stream)) = String.join texts := by
  rw [Transcript.on, List.foldl_map]
  simp only [if_true]
  rfl

theorem Transcript.on_mk_of_ne {stream other : Stream} (h : stream ≠ other) (texts : List String) :
    Transcript.on other (texts.map (Write.mk stream)) = "" := by
  induction texts with
  | nil => rfl
  | cons text texts ih =>
    rw [List.map_cons, Transcript.on, List.foldl_cons, if_neg h]
    exact ih

namespace Writer

def repeated (c : Char) (count : Nat) : String :=
  String.ofList (List.replicate count c)

/-- What a debugging writer puts in front of a message. -/
def margin (w : Writer) : String :=
  if w.debugging then repeated ' ' (w.indentSize.toNat * w.level.toNat) else ""

/-- The writer at another level. -/
def atLevel (w : Writer) (level : Int) : Writer := { w with level }

/-- The writer that is used when none is given. -/
def byDefault (debugging : Bool) : Writer := { debugging }

end Writer

end Abacus
