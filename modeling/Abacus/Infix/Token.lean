import Abacus.Text.Place

/-!
# Tokens of the infix language

Whole numbers with an optional minus sign, names, the two operators and parentheses, all in ASCII,
with blanks between them at will. Each token is told by its first character, and it is read as long
as it goes on; the sign belongs to the number behind it.

The limits of the runtime are left out: a number has its value however many digits it has.
-/

namespace Abacus.Infix

inductive Kind where
  | int
  | name
  | plus
  | star
  | leftParen
  | rightParen
deriving DecidableEq, Repr

/-- The name under which faults list a kind of token. -/
def Kind.label : Kind → String
  | .int => "INT"
  | .name => "NAME"
  | .plus => "PLUS"
  | .star => "STAR"
  | .leftParen => "LPAR"
  | .rightParen => "RPAR"

structure Token where
  kind : Kind
  lexeme : List Char
deriving DecidableEq, Repr

/-- A token and the place of its first character. -/
structure Placed where
  token : Token
  place : Text.Place
deriving DecidableEq, Repr

def isBlank (c : Char) : Bool :=
  c == ' ' || c == '\t' || c == '\x0c' || c == '\r' || c == '\n'

def isNameStart (c : Char) : Bool := c.isAlpha || c == '_'

def isNameChar (c : Char) : Bool := c.isAlphanum || c == '_'

namespace Token

def text (t : Token) : String := String.ofList t.lexeme

/-- The value of a number's lexeme. -/
def toInt (t : Token) : Int :=
  match t.lexeme with
  | '-' :: ds => -(Nat.ofDigitChars 10 ds 0 : Int)
  | ds => Nat.ofDigitChars 10 ds 0

/-- The kind of the tokens that are one fixed character. -/
def single? (c : Char) : Option Kind :=
  if c = '+' then some .plus
  else if c = '*' then some .star
  else if c = '(' then some .leftParen
  else if c = ')' then some .rightParen
  else none

/-- The token that begins with `c` and goes on as far as it can into `rest`, and what follows. -/
def read? (c : Char) (rest : List Char) : Option (Token × List Char) :=
  match single? c with
  | some kind => some (⟨kind, [c]⟩, rest)
  | none =>
    if c.isDigit || (c == '-' && (rest.head?.any Char.isDigit)) then
      some (⟨.int, c :: rest.takeWhile Char.isDigit⟩, rest.dropWhile Char.isDigit)
    else if isNameStart c then
      some (⟨.name, c :: rest.takeWhile isNameChar⟩, rest.dropWhile isNameChar)
    else none

/-- Reading a token splits the text behind the token's lexeme. -/
theorem lexeme_append_of_read? {c : Char} {rest after : List Char} {t : Token}
    (h : read? c rest = some (t, after)) : t.lexeme ++ after = c :: rest := by
  unfold read? at h
  split at h
  · cases h; rfl
  · split at h
    · cases h; simp
    · split at h
      · cases h; simp
      · cases h

/-- The first character belongs to the token. -/
theorem length_of_read? {c : Char} {rest after : List Char} {t : Token}
    (h : read? c rest = some (t, after)) : after.length ≤ rest.length := by
  unfold read? at h
  split at h
  · cases h; exact Nat.le_refl _
  · split at h
    · cases h; exact (List.dropWhile_suffix _).length_le
    · split at h
      · cases h; exact (List.dropWhile_suffix _).length_le
      · cases h

end Token

/-- The tokens of a text up to its end or up to the first character that begins no token. -/
structure Lexed where
  tokens : List Placed
  stray : Option (Char × Text.Place)
deriving DecidableEq, Repr

def Lexed.cons (t : Placed) (l : Lexed) : Lexed := ⟨t :: l.tokens, l.stray⟩

/-- Cuts the characters, the first of which stands at the given place, into tokens. -/
def lex (place : Text.Place) : List Char → Lexed
  | [] => ⟨[], none⟩
  | c :: rest =>
    if isBlank c then lex (place.after c) rest
    else
      match _h : Token.read? c rest with
      | none => ⟨[], some (c, place)⟩
      | some (t, after) =>
        (lex (place.advance t.lexeme) after).cons ⟨t, place⟩
termination_by cs => cs.length
decreasing_by
  · exact Nat.lt_succ_self rest.length
  · exact Nat.lt_succ_of_le (Token.length_of_read? _h)

end Abacus.Infix
