import Abacus.Infix.Tree

/-!
# Reading infix text

Products bind tighter than sums, and both group to the left. The reader takes the tokens one after
the other. It waits either for an operand or for what may follow one, and in both cases it keeps
what stands to the left of it at every level of parentheses. So a fault is found at the first token
with which the text cannot go on.

It stands for the reader that LALR(1) tables drive, with a contextual lexer, for the grammar

    sum     → product | sum `+` product
    product → atom | product `*` atom
    atom    → INT | NAME | `(` sum `)`

Assumed of the tables is that they are those of this grammar, which has no conflicts, and that the
reductions a token calls for are done before the token is found not to fit; what is then listed is
every token that the state has an entry for. Assumed of the lexer is that it skips blanks, that it
looks for the tokens the state has an entry for, and that it takes any other token as one that does
not fit.
-/

namespace Abacus.Infix

/-- What was found where the reader could not go on. -/
inductive Found where
  | stray (c : Char)
  | token (t : Token)
  | nothing
deriving DecidableEq, Repr

/-- The place of the fault, what was found there, and what could have stood there instead. The end
of the text is placed at the last token before it. -/
structure ReadFault where
  found : Found
  place : Text.Place
  expected : List String
deriving DecidableEq, Repr

/-- What stands to the left of an awaited operand at its level: a sum that it is to be added to,
and a product that it is to be multiplied with. -/
structure Pending where
  sum : Option Tree
  factor : Option Tree
deriving DecidableEq, Repr

def Pending.nothing : Pending := ⟨none, none⟩

inductive State where
  /-- An operand must follow. -/
  | operand (pending : Pending) (outer : List Pending)
  /-- An operator may follow, or the end of the level. -/
  | joint (sum : Option Tree) (product : Tree) (outer : List Pending)
deriving DecidableEq, Repr

namespace State

def start : State := .operand .nothing []

/-- The tree of a level that has come to its end. -/
def total (sum : Option Tree) (product : Tree) : Tree :=
  match sum with
  | none => product
  | some s => .sum s product

/-- The awaited operand has been read. -/
def place (pending : Pending) (outer : List Pending) (t : Tree) : State :=
  .joint pending.sum (match pending.factor with | none => t | some f => .product f t) outer

def operandLabels : List String := ["INT", "LPAR", "NAME"]
def jointLabels : List String := ["PLUS", "RPAR", "STAR"]

/-- What can be read next, as far as the kinds of tokens tell. -/
def labels : State → List String
  | .operand _ _ => operandLabels
  | .joint _ _ _ => jointLabels

/-- The state behind one more token, or what could have stood in its place. -/
def step : State → Placed → Except (List String) State
  | .operand pending outer, t =>
    match t.token.kind with
    | .int => .ok (place pending outer (.number t))
    | .name => .ok (place pending outer (.name t))
    | .leftParen => .ok (.operand .nothing (pending :: outer))
    | _ => .error operandLabels
  | .joint sum product outer, t =>
    match t.token.kind with
    | .plus => .ok (.operand ⟨some (total sum product), none⟩ outer)
    | .star => .ok (.operand ⟨sum, some product⟩ outer)
    | .rightParen =>
      match outer with
      | [] => .error ["$END", "PLUS"]
      | pending :: outer => .ok (place pending outer (total sum product))
    | _ => .error jointLabels

/-- The tree of a text that has come to its end. -/
def finish : State → Except (List String) Tree
  | .operand _ _ => .error operandLabels
  | .joint sum product [] => .ok (total sum product)
  | .joint _ _ (_ :: _) => .error ["PLUS", "RPAR"]

/-- Takes the remaining tokens. `last` is the place of the token before them. -/
def run (s : State) (last : Text.Place) (stray : Option (Char × Text.Place)) :
    List Placed → Except ReadFault Tree
  | [] =>
    match stray with
    | some (c, place) => .error ⟨.stray c, place, s.labels⟩
    | none =>
      match s.finish with
      | .ok t => .ok t
      | .error expected => .error ⟨.nothing, last, expected⟩
  | t :: ts =>
    match s.step t with
    | .ok s' => s'.run t.place stray ts
    | .error expected => .error ⟨.token t.token, t.place, expected⟩

end State

/-- Reads a text as an operand tree. -/
def Tree.read (text : String) : Except ReadFault Tree :=
  let lexed := lex .start text.toList
  State.start.run .start lexed.stray lexed.tokens

/-- Reads a text as an expression. -/
def parse (text : String) : Except ReadFault Expr :=
  (Tree.read text).map Tree.toExpr

end Abacus.Infix
