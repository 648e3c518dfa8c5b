import Abacus.Fault
import Abacus.Foreign

/-!
# Host languages

How a host language spells a literal, a read from an array and a function. Two languages are built
in, and any other may be described by the same few parts.

The limits of the runtime are left out: literals and slots are spelled however many digits they
have, and no text is too long.
-/

namespace Abacus

structure Host where
  name : String
  /-- The name of the array that functions read their variables from. -/
  array : String
  /-- The text of a function, with fields for its name, its array and its body. -/
  template : String
  /-- The least and the greatest literal that can be written; every literal can if there are no
  bounds. Results at run time are the host's affair. -/
  bounds : Option (Int × Int) := none
deriving DecidableEq, Repr, Inhabited

namespace Host

def c : Host where
  name := "c"
  array := "arr"
  template :=
    "long long \x7bname\x7d(const long long *\x7barray\x7d) \x7b\x7b\n" ++
    "    return \x7bbody\x7d;\n" ++
    "\x7d\x7d\n"
  bounds := some (-0x7fffffffffffffff, 0x7fffffffffffffff)

def python : Host where
  name := "python"
  array := "arr"
  template := "def \x7bname\x7d(\x7barray\x7d):\n    return \x7bbody\x7d\n"

/-- The built-in languages in the order of their names. -/
def builtIn : List Host := [c, python]

/-- Can the literal be written directly? -/
def admits (h : Host) (v : Int) : Bool :=
  match h.bounds with
  | none => true
  | some (low, high) => decide (low ≤ v) && decide (v ≤ high)

/-- The text of a literal; a negative one stands in parentheses. -/
def literalText (v : Int) : String :=
  if v < 0 then "(" ++ toString v ++ ")" else toString v

def literal (h : Host) (v : Int) : Except Fault String :=
  if h.admits v then .ok (literalText v) else .error (.literalOutOfRange v h.name)

/-- The text that reads the array at a position. -/
def read (h : Host) (index : Int) : String :=
  h.array ++ "[" ++ toString index ++ "]"

end Host

/-- What a caller may give as the language of a text: a name, the description of a language, or
something that is neither. -/
inductive Target where
  | named (name : String)
  | described (host : Host)
  | other (it : Foreign)
deriving Inhabited

namespace Target

/-- The target that is used when none is given. -/
def byDefault : Target := .named "python"

/-- No language goes by what is shown. -/
def unknown (shown : String) : Fault := .unknownTarget shown (Host.builtIn.map (·.name))

/-- The language that a target stands for. What is no name is still looked up among the names, so
that it has to be something that can be a key. -/
def host : Target → Except Fault Host
  | .described h => .ok h
  | .named name =>
    match Host.builtIn.find? (·.name == name) with
    | some h => .ok h
    | none => .error (unknown (Text.quoted name))
  | .other it =>
    match it.unhashable? with
    | some kind => .error (.unhashable kind)
    | none => .error (unknown it.describe)

end Target

end Abacus
