import Abacus.Proofs.Infix.Grammar
import Abacus.Proofs.Text.Decimal

/-!
# Cutting with the state in view

The reader cuts a text into tokens before it looks at any of them. It could as well cut one token at
a time and try only the kinds that its state can go on with. Both come to the same: every kind of
token has first characters of its own, so that a kind which is not tried could only have led to a
token with which the state cannot go on.
-/

namespace Abacus.Infix

open Answer
open Text (startsNumber startsNumber_iff)

/-- The longest lexeme of the kind that begins with `c`, and what follows it. -/
def Kind.cut? (k : Kind) (c : Char) (rest : List Char) : Option (List Char × List Char) :=
  match k with
  | .int =>
    if startsNumber c rest then
      some (c :: rest.takeWhile Char.isDigit, rest.dropWhile Char.isDigit)
    else none
  | .name =>
    if isNameStart c then some (c :: rest.takeWhile isNameChar, rest.dropWhile isNameChar)
    else none
  | k => if k.single? = some c then some ([c], rest) else none

theorem single?_of_startsNumber {c : Char} {rest : List Char} (h : startsNumber c rest) :
    Token.single? c = none := by
  rcases startsNumber_iff.1 h with hc | ⟨rfl, -⟩
  · exact single?_of_isNameChar (isNameChar_of_isDigit hc)
  · decide

theorem not_startsNumber_of_isNameStart {c : Char} (h : isNameStart c) (rest : List Char) :
    ¬startsNumber c rest := by
  rw [startsNumber_iff]
  rintro (hc | ⟨rfl, -⟩)
  · exact not_isDigit_of_isNameStart h hc
  · revert h
    decide

theorem Kind.cut?_eq_some_of_read? {k : Kind} {c : Char} {rest lexeme after : List Char}
    (h : Token.read? c rest = some (⟨k, lexeme⟩, after)) :
    k.cut? c rest = some (lexeme, after) := by
  unfold Token.read? at h
  split at h
  · rename_i kind hs
    cases h
    have hk : k.single? = some c := single?_eq_some.1 hs
    cases k with
    | int | name => cases hk
    | plus | star | leftParen | rightParen => exact if_pos hk
  · split at h
    · rename_i hn
      cases h
      exact if_pos hn
    · split at h
      · rename_i hname
        cases h
        exact if_pos hname
      · cases h

theorem read?_of_cut?_eq_some {k : Kind} {c : Char} {rest lexeme after : List Char}
    (h : k.cut? c rest = some (lexeme, after)) :
    Token.read? c rest = some (⟨k, lexeme⟩, after) := by
  cases k with
  | int =>
    rw [Kind.cut?, Option.ite_none_right_eq_some] at h
    obtain ⟨hn, h⟩ := h
    cases h
    rw [Token.read?, single?_of_startsNumber hn]
    exact if_pos hn
  | name =>
    rw [Kind.cut?, Option.ite_none_right_eq_some] at h
    obtain ⟨hname, h⟩ := h
    cases h
    rw [Token.read?, single?_of_isNameChar (isNameChar_of_isNameStart hname)]
    exact (if_neg (not_startsNumber_of_isNameStart hname rest)).trans (if_pos hname)
  | plus | star | leftParen | rightParen =>
    obtain ⟨hk, h⟩ := Option.ite_none_right_eq_some.1 h
    cases h
    rw [Token.read?, single?_eq_some.2 hk]

/-- The first character tells the kind of a token, so that the kinds do not compete. -/
theorem Kind.cut?_eq_some {k : Kind} {c : Char} {rest lexeme after : List Char} :
    k.cut? c rest = some (lexeme, after) ↔ Token.read? c rest = some (⟨k, lexeme⟩, after) :=
  ⟨read?_of_cut?_eq_some, Kind.cut?_eq_some_of_read?⟩

namespace State

/-- The kinds of tokens that the state can go on with. -/
def kinds : State → List Kind
  | .operand _ _ => [.int, .leftParen, .name]
  | .joint _ _ _ => [.plus, .rightParen, .star]

/-- The token that begins with `c`, if it is of a kind that the state can go on with. -/
def token? (s : State) (c : Char) (rest : List Char) : Option (Token × List Char) :=
  s.kinds.findSome? fun k => (k.cut? c rest).map fun (lexeme, after) => (⟨k, lexeme⟩, after)

theorem read?_of_token? {s : State} {c : Char} {rest after : List Char} {t : Token}
    (h : s.token? c rest = some (t, after)) :
    Token.read? c rest = some (t, after) ∧ t.kind ∈ s.kinds := by
  obtain ⟨k, hk, hcut⟩ := List.exists_of_findSome?_eq_some h
  obtain ⟨⟨lexeme, rest'⟩, hlexeme, heq⟩ := Option.map_eq_some_iff.1 hcut
  cases heq
  exact ⟨Kind.cut?_eq_some.1 hlexeme, hk⟩

theorem token?_of_read? {s : State} {c : Char} {rest after : List Char} {t : Token}
    (h : Token.read? c rest = some (t, after)) (hk : t.kind ∈ s.kinds) :
    s.token? c rest = some (t, after) := by
  have hcut := Kind.cut?_eq_some.2 h
  obtain ⟨⟨u, rest'⟩, hu⟩ : ∃ found, s.token? c rest = some found := by
    rw [← Option.isSome_iff_exists, token?, List.findSome?_isSome_iff]
    exact ⟨t.kind, hk, by rw [hcut]; rfl⟩
  have hread := (read?_of_token? hu).1
  rw [h] at hread
  rw [hu, hread]

theorem step_of_not_mem_kinds {s : State} {p : Placed} (h : p.token.kind ∉ s.kinds) :
    ∃ expected, s.step p = .error expected := by
  cases s with
  | operand pending outer =>
    refine ⟨operandLabels, ?_⟩
    cases hk : p.token.kind with
    | int | name | leftParen =>
      rw [hk] at h
      exact absurd (by simp [kinds]) h
    | plus | star | rightParen => simp only [step, hk]
  | joint sum product outer =>
    refine ⟨jointLabels, ?_⟩
    cases hk : p.token.kind with
    | plus | star | rightParen =>
      rw [hk] at h
      exact absurd (by simp [kinds]) h
    | int | name | leftParen => simp only [step, hk]

/-- Reads on from the state, with the characters still to be cut, the first of which stands at the
given place. -/
def readOn (s : State) (p : Text.Place) : List Char → Option Tree
  | [] => s.finish.toOption
  | c :: rest =>
    if isBlank c then s.readOn (p.after c) rest
    else
      match _h : s.token? c rest with
      | none => none
      | some (t, after) =>
        match s.step ⟨t, p⟩ with
        | .ok s' => s'.readOn (p.advance t.lexeme) after
        | .error _ => none
termination_by cs => cs.length
decreasing_by
  · exact Nat.lt_succ_self rest.length
  · exact Nat.lt_succ_of_le (Token.length_of_read? (read?_of_token? _h).1)

theorem lex_stray {c : Char} {rest : List Char} (hb : ¬isBlank c)
    (h : Token.read? c rest = none) (p : Text.Place) : lex p (c :: rest) = ⟨[], some (c, p)⟩ := by
  rw [lex, if_neg hb]
  split
  · rfl
  · rename_i hsome
    rw [h] at hsome
    cases hsome

/-- Reading on is cutting first and taking the tokens afterwards. -/
theorem readOn_eq_some {s : State} {p : Text.Place} {cs : List Char} {t : Tree} :
    s.readOn p cs = some t ↔ (lex p cs).stray = none ∧
      ∃ s' : State, (lex p cs).tokens.foldlM step s = .ok s' ∧ s'.finish = .ok t := by
  fun_induction readOn s p cs with
  | case1 s p =>
    rw [lex_nil]
    cases hf : s.finish <;> simp [Except.toOption, hf]
  | case2 s p c rest hb ih => rw [lex_blank hb, ih]
  | case3 s p c rest hb hnone =>
    cases hread : Token.read? c rest with
    | none =>
      rw [lex_stray hb hread]
      simp
    | some found =>
      obtain ⟨u, after⟩ := found
      have hk : u.kind ∉ s.kinds := fun hk => by
        rw [token?_of_read? hread hk] at hnone
        cases hnone
      obtain ⟨expected, hstep⟩ := step_of_not_mem_kinds (p := ⟨u, p⟩) hk
      rw [lex_token hb hread, Lexed.cons, List.foldlM_cons, hstep]
      simp
  | case4 s p c rest hb u after hu s' hstep ih =>
    rw [lex_token hb (read?_of_token? hu).1, Lexed.cons, foldlM_step_cons hstep, ih]
  | case5 s p c rest hb u after hu expected hstep =>
    rw [lex_token hb (read?_of_token? hu).1, Lexed.cons, List.foldlM_cons, hstep]
    simp

end State

/-- Reads a text as an expression, each token with the state in view. -/
def parseInContext (text : String) : Option Expr :=
  (State.start.readOn .start text.toList).map Tree.toExpr

/-- Looking at the state while cutting makes no difference. -/
theorem parseInContext_eq_some {text : String} {e : Expr} :
    parseInContext text = some e ↔ parse text = .ok e := by
  rw [parse_eq_ok_iff_read, parseInContext, Option.map_eq_some_iff]
  refine exists_congr fun t => and_congr_left fun _ => ?_
  rw [State.readOn_eq_some, Tree.read, State.run_eq_ok]

end Abacus.Infix
