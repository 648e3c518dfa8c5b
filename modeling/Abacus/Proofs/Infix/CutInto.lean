import Abacus.Proofs.Infix.Token
import Abacus.Proofs.Text.Line

/-!
# Texts cut in part

Of all that follows a token only the next character matters to it, and where no token begins it is
at most the character behind a minus sign that decides on that. So a text that has been cut up to
some place is cut there in the same way whenever it goes on with the same character. The tokens cut
off stand in the text where their lines and columns say, each behind those before it.
-/

namespace Abacus.Infix

open Text (startsNumber startsNumber_iff)

/-- A token begins with its own character, with the digit or sign of a number or as a name. -/
theorem isSome_read? (c : Char) (rest : List Char) : (Token.read? c rest).isSome =
    ((Token.single? c).isSome || startsNumber c rest || isNameStart c) := by
  unfold Token.read?
  cases Token.single? c with
  | some k => rfl
  | none =>
    simp only [Option.isSome_none, Bool.false_or]
    change Option.isSome (if startsNumber c rest then _ else _) = _
    by_cases hn : startsNumber c rest
    · simp [hn]
    · by_cases hname : isNameStart c <;> simp [hn, hname]

/-- Whether a token begins depends on the next character behind a minus sign only. -/
theorem read?_eq_none_of_head {c : Char} {rest rest' : List Char}
    (h : Token.read? c rest = none) (hnext : c = '-' → rest'.head? = rest.head?) :
    Token.read? c rest' = none := by
  have hnumber : startsNumber c rest' = startsNumber c rest := by
    rw [Bool.eq_iff_iff, startsNumber_iff, startsNumber_iff]
    refine or_congr_right (and_congr_right fun hc => ?_)
    rw [hnext hc]
  rw [← Option.isNone_iff_eq_none, ← Option.isSome_eq_false_iff, isSome_read?] at h ⊢
  rw [hnumber, h]

/-- The characters, the first of which stands at the given place, are blanks and the tokens, and no
token goes on into what is behind it in the text, which ends with `rest`. -/
inductive CutInto (rest : List Char) : Text.Place → List Char → List Placed → Prop where
  | nil {p : Text.Place} : CutInto rest p [] []
  | blank {p : Text.Place} {c : Char} {cs : List Char} {ts : List Placed} (hc : isBlank c)
    (h : CutInto rest (p.after c) cs ts) : CutInto rest p (c :: cs) ts
  | token {p : Text.Place} {t : Token} {cs : List Char} {ts : List Placed} (ht : t.Valid)
    (hends : t.kind.EndsAt (cs ++ rest)) (h : CutInto rest (p.advance t.lexeme) cs ts) :
    CutInto rest p (t.lexeme ++ cs) (⟨t, p⟩ :: ts)

/-- Where nothing is stray, the text is cut into the tokens. -/
theorem cutInto_of_lex {cs : List Char} (p : Text.Place) (h : (lex p cs).stray = none) :
    CutInto [] p cs (lex p cs).tokens := by
  fun_induction lex p cs with
  | case1 p => exact .nil
  | case2 p c rest hb ih => exact .blank hb (ih h)
  | case3 p c rest hb hread => cases h
  | case4 p c rest hb t after hread ih =>
    obtain ⟨ht, happend, hends⟩ := read?_eq_some.1 hread
    rw [← happend]
    rw [← List.append_nil after] at hends
    exact .token ht hends (ih h)

namespace CutInto

variable {rest cs : List Char} {p : Text.Place} {ts : List Placed}

/-- Cutting the whole text comes to these tokens first. -/
theorem lex_append (h : CutInto rest p cs ts) :
    lex p (cs ++ rest) = ⟨ts ++ (lex (p.advance cs) rest).tokens,
      (lex (p.advance cs) rest).stray⟩ := by
  induction h with
  | nil => rfl
  | blank hc h ih => rw [List.cons_append, lex_blank hc, ih, Text.Place.advance_cons]
  | @token p t cs ts ht hends h ih =>
    obtain ⟨c, lexeme, hl, hb, -⟩ := ht.exists_cons
    have hread : Token.read? c (lexeme ++ (cs ++ rest)) = some (t, cs ++ rest) := by
      rw [read?_eq_some, hl]
      exact ⟨ht, rfl, hends⟩
    rw [hl, List.cons_append, List.cons_append, List.append_assoc, lex_token hb hread, ih,
      ← Text.Place.advance_append, hl, Lexed.cons]
    rfl

/-- Only what ends the tokens matters of the text that follows. -/
theorem resume {rest' : List Char} (h : CutInto rest p cs ts)
    (hrest : ∀ k : Kind, k.EndsAt rest → k.EndsAt rest') : CutInto rest' p cs ts := by
  induction h with
  | nil => exact .nil
  | blank hc h ih => exact .blank hc ih
  | token ht hends h ih => exact .token ht (Kind.endsAt_append hends (hrest _)) ih

theorem spaced (h : CutInto rest p cs ts) :
    Spaced cs (ts.map Placed.token) ∧ ∀ t ∈ ts.map Placed.token, t.Valid := by
  induction h with
  | nil => exact ⟨.nil blank_nil, fun t ht => (nomatch ht)⟩
  | blank hc h ih => exact ⟨ih.1.blank hc, ih.2⟩
  | token ht hends h ih => exact ⟨.cons blank_nil ih.1, List.forall_mem_cons.2 ⟨ht, ih.2⟩⟩

/-- Every token stands where its place says. -/
theorem place_eq (h : CutInto rest p cs ts) {t : Placed} (ht : t ∈ ts) :
    ∃ before after, cs = before ++ (t.token.lexeme ++ after) ∧ t.place = p.advance before := by
  induction h with
  | nil => cases ht
  | @blank p c cs ts hc h ih =>
    obtain ⟨before, after, rfl, hp⟩ := ih ht
    exact ⟨c :: before, after, rfl, hp⟩
  | @token p u cs ts hu hends h ih =>
    rcases List.mem_cons.1 ht with rfl | ht
    · exact ⟨[], cs, rfl, rfl⟩
    · obtain ⟨before, after, rfl, hp⟩ := ih ht
      refine ⟨u.lexeme ++ before, after, by rw [List.append_assoc], ?_⟩
      rw [hp, Text.Place.advance_append]

theorem valid (h : CutInto rest p cs ts) : ∀ t ∈ ts, t.token.Valid :=
  List.forall_mem_map.1 h.spaced.2

/-- The line and column of a token show it in the text. -/
theorem shows (h : CutInto rest .start cs ts) : ∀ t ∈ ts, t.place.Shows cs t.token.lexeme := by
  intro t ht
  obtain ⟨before, after, rfl, hp⟩ := h.place_eq ht
  have hline : '\n' ∉ t.token.lexeme := fun hmem => (h.valid t ht).not_isBlank _ hmem rfl
  rw [hp]
  exact Text.Place.shows_advance hline before after

theorem pairwise_precedes (h : CutInto rest p cs ts) :
    ts.Pairwise fun t u => t.place.Precedes u.place := by
  induction h with
  | nil => exact .nil
  | blank hc h ih => exact ih
  | @token p t cs ts ht hends h ih =>
    refine .cons ?_ ih
    intro u hu
    obtain ⟨before, after, -, hp⟩ := h.place_eq hu
    obtain ⟨c, lexeme, hl, -, -⟩ := ht.exists_cons
    have hne : t.lexeme ++ before ≠ [] := by
      rw [hl]
      exact List.cons_ne_nil c _
    rw [hp, ← Text.Place.advance_append]
    exact Text.Place.precedes_advance hne p

end CutInto

end Abacus.Infix
