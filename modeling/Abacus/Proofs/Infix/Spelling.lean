import Abacus.Proofs.Expr.Value
import Abacus.Proofs.Infix.CutInto
import Abacus.Proofs.Infix.Grammar
import Abacus.Proofs.Text.Decimal

/-!
# The spellings of an expression

Printing puts every operator into parentheses of its own. Precedence and grouping to the left make
many of them redundant, and more may be added around anything, as may blanks between the tokens. All
texts that come about in this way are read as the same tree.
-/

namespace Abacus.Infix

open Answer

/-- A tree that can be written: every name in it is one that can be read. -/
structure Readable (e : Expr) : Prop where
  wellFormed : e.WellFormed
  names : ∀ x ∈ e.vars, IsName x.toList

/-- Where an expression stands: at the root or in added parentheses, or beside an operator. -/
inductive Spot where
  | whole
  | left (operator : Operator)
  | right (operator : Operator)
deriving DecidableEq, Repr

/-- A node of the operator needs no parentheses at the spot. -/
def Spot.Redundant : Spot → Operator → Prop
  | .whole, _ => True
  | .left .plus, _ => True
  | .right .plus, o => o = .times
  | .left .times, o => o = .times
  | .right .times, _ => False

/-- What is read at the spot. -/
def Spot.level : Spot → Level
  | .whole => .sum
  | .left .plus => .sum
  | .right .plus => .product
  | .left .times => .product
  | .right .times => .atom

namespace Token

def ofInt (v : Int) : Token := ⟨.int, (toString v).toList⟩

def ofName (x : String) : Token := ⟨.name, x.toList⟩

def ofOperator : Operator → Token
  | .plus => ⟨.plus, ['+']⟩
  | .times => ⟨.star, ['*']⟩

def opening : Token := ⟨.leftParen, ['(']⟩

def closing : Token := ⟨.rightParen, [')']⟩

end Token

/-- The tokens write the expression at the spot. A node without parentheses of its own is `bare`,
and there may be any number of them around anything. -/
inductive Spelling : Spot → Expr → List Token → Prop where
  | literal {spot : Spot} (v : Int) : Spelling spot (.literal v) [.ofInt v]
  | var {spot : Spot} (x : String) : Spelling spot (.var x) [.ofName x]
  | bare {spot : Spot} {o : Operator} {l r : Expr} {ts us : List Token} (h : spot.Redundant o)
    (hl : Spelling (.left o) l ts) (hr : Spelling (.right o) r us) :
    Spelling spot (.binary o.symbol l r) (ts ++ .ofOperator o :: us)
  | pair {spot : Spot} {e : Expr} {ts : List Token} (h : Spelling .whole e ts) :
    Spelling spot e (.opening :: (ts ++ [.closing]))

/-- The text writes the expression, with blanks at will. -/
def Spells (text : String) (e : Expr) : Prop :=
  ∃ ts, Spelling .whole e ts ∧ Spaced text.toList ts

/-! ## Operands -/

namespace Token

theorem toInt_of_digits {ds : List Char} (h : ∀ d ∈ ds, d.isDigit) (k : Kind) :
    toInt ⟨k, ds⟩ = Nat.ofDigitChars 10 ds 0 := by
  unfold toInt
  split
  · rename_i tail heq
    change ds = '-' :: tail at heq
    rw [heq] at h
    exact absurd (h '-' List.mem_cons_self) (by decide)
  · rfl

theorem toInt_ofInt (v : Int) : (ofInt v).toInt = v := by
  rcases Text.toList_toString_cases v with ⟨n, rfl, h⟩ | ⟨n, -, rfl, h⟩ <;> rw [ofInt, h]
  · rw [toInt_of_digits Text.isDigit_of_mem_toDigits, Nat.ofDigitChars_ten_toDigits]
  · have hminus : toInt ⟨.int, '-' :: Nat.toDigits 10 n⟩ =
        -(Nat.ofDigitChars 10 (Nat.toDigits 10 n) 0 : Int) := rfl
    rw [hminus, Nat.ofDigitChars_ten_toDigits]

theorem valid_ofInt (v : Int) : (ofInt v).Valid := by
  rcases Text.toList_toString_cases v with ⟨n, -, h⟩ | ⟨n, -, -, h⟩ <;> rw [ofInt, h]
  · exact ⟨_, Nat.toDigits_ne_nil, Text.isDigit_of_mem_toDigits, .inl rfl⟩
  · exact ⟨_, Nat.toDigits_ne_nil, Text.isDigit_of_mem_toDigits, .inr rfl⟩

theorem text_ofName (x : String) : (ofName x).text = x := String.ofList_toList

theorem valid_ofOperator (o : Operator) : (ofOperator o).Valid := by
  cases o <;> exact ⟨_, rfl, rfl⟩

theorem valid_opening : opening.Valid := ⟨'(', rfl, rfl⟩

theorem valid_closing : closing.Valid := ⟨')', rfl, rfl⟩

end Token

/-! ## Spellings as phrases -/

theorem Phrase.of_atom {ts : List Token} {e : Expr} (h : Phrase .atom ts e) (level : Level) :
    Phrase level ts e := by
  have hproduct : Phrase .product ts e := .single h
  cases level with
  | atom => exact h
  | product => exact hproduct
  | sum => exact .only hproduct

theorem Spelling.phrase {spot : Spot} {e : Expr} {ts : List Token} (h : Spelling spot e ts) :
    Phrase spot.level ts e := by
  induction h with
  | literal v =>
    have hnumber : Phrase .atom [.ofInt v] (.literal (Token.ofInt v).toInt) := .number rfl
    rw [Token.toInt_ofInt] at hnumber
    exact hnumber.of_atom _
  | var x =>
    have hname : Phrase .atom [.ofName x] (.var (Token.ofName x).text) := .name rfl
    rw [Token.text_ofName] at hname
    exact hname.of_atom _
  | @bare spot o l r ts us h hl hr ihl ihr =>
    cases o with
    | plus =>
      have hsum : Phrase .sum (ts ++ .ofOperator .plus :: us) (.add l r) := .plus ihl rfl ihr
      match spot, h with
      | .whole, _ => exact hsum
      | .left .plus, _ => exact hsum
    | times =>
      have hproduct : Phrase .product (ts ++ .ofOperator .times :: us) (.mul l r) :=
        .times ihl rfl ihr
      match spot, h with
      | .whole, _ => exact .only hproduct
      | .left .plus, _ => exact .only hproduct
      | .right .plus, _ => exact hproduct
      | .left .times, _ => exact hproduct
  | @pair spot e ts h ih =>
    have hgroup : Phrase .atom (.opening :: (ts ++ [.closing])) e := .group rfl ih rfl
    exact hgroup.of_atom _

theorem Spelling.valid {spot : Spot} {e : Expr} {ts : List Token} (h : Spelling spot e ts)
    (hnames : ∀ x ∈ e.vars, IsName x.toList) : ∀ t ∈ ts, t.Valid := by
  induction h with
  | literal v => exact List.forall_mem_singleton.2 (Token.valid_ofInt v)
  | var x => exact List.forall_mem_singleton.2 (hnames x (List.mem_singleton_self x))
  | bare h hl hr ihl ihr =>
    rw [Expr.vars, List.forall_mem_append] at hnames
    rw [List.forall_mem_append, List.forall_mem_cons]
    exact ⟨ihl hnames.1, Token.valid_ofOperator _, ihr hnames.2⟩
  | pair h ih =>
    rw [List.forall_mem_cons, List.forall_mem_append, List.forall_mem_singleton]
    exact ⟨Token.valid_opening, ih hnames, Token.valid_closing⟩

/-- A text is read as the expression that it writes. -/
theorem parse_of_spells {text : String} {e : Expr} (h : Spells text e)
    (hnames : ∀ x ∈ e.vars, IsName x.toList) : parse text = .ok e := by
  obtain ⟨ts, hspelling, hspaced⟩ := h
  have hphrase : Phrase .sum ts e := hspelling.phrase
  obtain ⟨hstray, htokens⟩ := lex_of_spaced hspaced (hspelling.valid hnames) hphrase.apart .start
  rw [parse_eq_ok, htokens]
  exact ⟨hstray, hphrase⟩

/-! ## The printed spelling -/

theorem spaced_flatMap_lexeme (ts : List Token) : Spaced (ts.flatMap Token.lexeme) ts := by
  have hgap : Blank [] := fun c hc => (nomatch hc)
  induction ts with
  | nil => exact .nil hgap
  | cons t ts ih => exact .cons hgap ih

/-- Printed text has no blanks, and parentheses around every operator. -/
theorem print_spelling {e : Expr} (he : e.WellFormed) : ∃ text ts, e.print = .ok text ∧
    text.toList = ts.flatMap Token.lexeme ∧ ∀ spot, Spelling spot e ts := by
  induction e, he using Expr.wellFormed_induction with
  | literal v =>
    refine ⟨toString v, [.ofInt v], rfl, ?_, fun _ => .literal v⟩
    rw [List.flatMap_singleton, Token.ofInt]
  | var x =>
    refine ⟨x, [.ofName x], rfl, ?_, fun _ => .var x⟩
    rw [List.flatMap_singleton, Token.ofName]
  | binary o l r hl hr ihl ihr =>
    obtain ⟨left, ts, hleft, hts, hspellsl⟩ := ihl
    obtain ⟨right, us, hright, hus, hspellsr⟩ := ihr
    have hsymbol : o.symbol.toList = (Token.ofOperator o).lexeme := by
      cases o <;> rfl
    refine ⟨"(" ++ left ++ o.symbol ++ right ++ ")",
      .opening :: ((ts ++ .ofOperator o :: us) ++ [.closing]), ?_, ?_, fun _ => ?_⟩
    · exact Expr.print_binary_eq_ok.2 ⟨o, rfl, left, right, hleft, hright, rfl⟩
    · simp only [String.toList_append, hts, hus, hsymbol, List.flatMap_cons, List.flatMap_append,
        List.flatMap_nil, List.append_assoc, List.append_nil]
      rfl
    · exact .pair (.bare trivial (hspellsl _) (hspellsr _))

theorem spells_of_print {e : Expr} {text : String} (he : e.WellFormed)
    (h : e.print = .ok text) : Spells text e := by
  obtain ⟨printed, ts, hprint, hlist, hspelling⟩ := print_spelling he
  rw [h, Except.ok.injEq] at hprint
  subst hprint
  refine ⟨ts, hspelling .whole, ?_⟩
  rw [hlist]
  exact spaced_flatMap_lexeme ts

theorem Phrase.readable {level : Level} {ts : List Token} {e : Expr} (h : Phrase level ts e)
    (hvalid : ∀ t ∈ ts, t.Valid) : Readable e := by
  induction h with
  | number h => exact ⟨trivial, fun x hx => (nomatch hx)⟩
  | @name t h =>
    obtain ⟨k, cs⟩ := t
    cases h
    have hname : Token.Valid ⟨.name, cs⟩ := List.forall_mem_singleton.1 hvalid
    refine ⟨trivial, List.forall_mem_singleton.2 ?_⟩
    rw [Token.text, String.toList_ofList]
    exact hname
  | group ho h hc ih =>
    rw [List.forall_mem_cons, List.forall_mem_append] at hvalid
    exact ih hvalid.2.1
  | single h ih => exact ih hvalid
  | only h ih => exact ih hvalid
  | times hl ho hr ihl ihr | plus hl ho hr ihl ihr =>
    rw [List.forall_mem_append, List.forall_mem_cons] at hvalid
    have hl := ihl hvalid.1
    have hr := ihr hvalid.2.2
    exact ⟨Expr.wellFormed_symbol_iff.2 ⟨hl.wellFormed, hr.wellFormed⟩,
      List.forall_mem_append.2 ⟨hl.names, hr.names⟩⟩

theorem readable_of_parse {text : String} {e : Expr} (h : parse text = .ok e) : Readable e := by
  obtain ⟨hstray, hphrase⟩ := parse_eq_ok.1 h
  exact hphrase.readable (cutInto_of_lex .start hstray).spaced.2

/-- Reading takes printing back, and with it every other spelling of the tree. All that can be read
at all can be printed and read again. -/
theorem parse_print :
    (∀ e : Expr, Readable e → ∃ text, e.print = .ok text ∧ Spells text e ∧ parse text = .ok e ∧
      ∀ other, Spells other e → parse other = .ok e) ∧
    ∀ (text : String) (e : Expr), parse text = .ok e →
      Readable e ∧ ∃ printed, e.print = .ok printed ∧ parse printed = .ok e := by
  have back : ∀ e : Expr, Readable e → ∃ text, e.print = .ok text ∧ Spells text e ∧
      parse text = .ok e ∧ ∀ other, Spells other e → parse other = .ok e := by
    intro e he
    obtain ⟨text, hprint⟩ := Expr.exists_print he.wellFormed
    have hspells : Spells text e := spells_of_print he.wellFormed hprint
    exact ⟨text, hprint, hspells, parse_of_spells hspells he.names,
      fun other hother => parse_of_spells hother he.names⟩
  refine ⟨back, ?_⟩
  intro text e h
  have he : Readable e := readable_of_parse h
  obtain ⟨printed, hprint, -, hparse, -⟩ := back e he
  exact ⟨he, printed, hprint, hparse⟩

/-- Both printed pairs are missing, another one is there, and a sign stands behind an operator. -/
theorem parse_print_loose :
    Readable (.add (.var "x") (.mul (.literal (-3)) (.var "y"))) ∧
      Spells "x+-3 *(y)" (.add (.var "x") (.mul (.literal (-3)) (.var "y"))) ∧
      parse "x+-3 *(y)" = .ok (.add (.var "x") (.mul (.literal (-3)) (.var "y"))) := by
  have hx : IsName "x".toList := ⟨'x', [], rfl, by decide, fun c hc => (nomatch hc)⟩
  have hy : IsName "y".toList := ⟨'y', [], rfl, by decide, fun c hc => (nomatch hc)⟩
  have he : Readable (.add (.var "x") (.mul (.literal (-3)) (.var "y"))) :=
    ⟨by decide, List.forall_mem_cons.2 ⟨hx, List.forall_mem_singleton.2 hy⟩⟩
  have hgap : Blank [] := fun c hc => (nomatch hc)
  have hspace : Blank [' '] := List.forall_mem_singleton.2 rfl
  have hspells : Spells "x+-3 *(y)" (.add (.var "x") (.mul (.literal (-3)) (.var "y"))) := by
    have hspaced := Spaced.cons (t := .ofName "x") hgap <| .cons (t := .ofOperator .plus) hgap <|
      .cons (t := .ofInt (-3)) hgap <| .cons (t := .ofOperator .times) hspace <|
      .cons (t := .opening) hgap <| .cons (t := .ofName "y") hgap <|
      .cons (t := .closing) hgap <| .nil hgap
    exact ⟨_, .bare trivial (.var "x") (.bare rfl (.literal (-3)) (.pair (.var "y"))), hspaced⟩
  obtain ⟨text, -, -, -, hread⟩ := parse_print.1 _ he
  exact ⟨he, hspells, hread _ hspells⟩

end Abacus.Infix
