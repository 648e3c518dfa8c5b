import Abacus.Infix.Token
import Abacus.Proofs.Text.Decimal
import Mathlib.Data.List.Chain

/-!
# Tokens and the texts that they stand in

Cutting a text takes every token as long as it can. That loses no other way to cut it, as long as no
number or name stands directly behind another one: everything else that can follow a token ends it.
-/

namespace Abacus.Infix

/-- Digits with an optional minus sign. -/
def IsNumber (cs : List Char) : Prop :=
  ∃ ds : List Char, ds ≠ [] ∧ (∀ d ∈ ds, d.isDigit) ∧ (cs = ds ∨ cs = '-' :: ds)

/-- A letter or underscore, and then letters, digits and underscores. -/
def IsName (cs : List Char) : Prop :=
  ∃ c rest, cs = c :: rest ∧ isNameStart c ∧ ∀ d ∈ rest, isNameChar d

/-- The fixed character of a kind of token, if it has one. -/
def Kind.single? : Kind → Option Char
  | .int => none
  | .name => none
  | .plus => some '+'
  | .star => some '*'
  | .leftParen => some '('
  | .rightParen => some ')'

/-- Numbers and names are the operands. -/
def Kind.IsOperand (k : Kind) : Prop := k = .int ∨ k = .name

instance (k : Kind) : Decidable k.IsOperand :=
  inferInstanceAs (Decidable (k = .int ∨ k = .name))

/-- The lexeme is one of the token's kind. -/
def Token.Valid : Token → Prop
  | ⟨.int, cs⟩ => IsNumber cs
  | ⟨.name, cs⟩ => IsName cs
  | ⟨k, cs⟩ => ∃ c, k.single? = some c ∧ cs = [c]

def Blank (cs : List Char) : Prop := ∀ c ∈ cs, isBlank c

theorem blank_nil : Blank [] := List.forall_mem_nil _

/-- The text consists of the tokens in order, with any blanks before, between and behind them. -/
inductive Spaced : List Char → List Token → Prop where
  | nil {gap : List Char} (hg : Blank gap) : Spaced gap []
  | cons {gap cs : List Char} {t : Token} {ts : List Token} (hg : Blank gap) (h : Spaced cs ts) :
    Spaced (gap ++ (t.lexeme ++ cs)) (t :: ts)

/-- No operand follows another one directly. -/
def Apart (ts : List Token) : Prop :=
  ts.IsChain fun a b => ¬(a.kind.IsOperand ∧ b.kind.IsOperand)

theorem Apart.append_cons {ts us : List Token} {o : Token} (hts : Apart ts)
    (ho : ¬o.kind.IsOperand) (hus : Apart us) : Apart (ts ++ o :: us) := by
  refine List.isChain_append.2 ⟨hts, List.isChain_cons.2 ⟨?_, hus⟩, ?_⟩
  · intro u _ hboth
    exact ho hboth.1
  · intro t _ u hu hboth
    cases hu
    exact ho hboth.2

/-! ## Characters -/

theorem not_isNameChar_of_isBlank {c : Char} (h : isBlank c) : ¬isNameChar c := by
  simp only [isBlank, Bool.or_eq_true, beq_iff_eq] at h
  rcases h with (((rfl | rfl) | rfl) | rfl) | rfl <;> decide

theorem isNameChar_of_isDigit {c : Char} (h : c.isDigit) : isNameChar c := by
  simp [isNameChar, Char.isAlphanum, h]

theorem isNameChar_of_isNameStart {c : Char} (h : isNameStart c) : isNameChar c := by
  simp only [isNameStart, Bool.or_eq_true] at h
  rcases h with h | h
  · simp [isNameChar, Char.isAlphanum, h]
  · simp [isNameChar, h]

theorem single?_eq_some {c : Char} {k : Kind} :
    Token.single? c = some k ↔ k.single? = some c := by
  constructor
  · intro h
    unfold Token.single? at h
    split_ifs at h with h₁ h₂ h₃ h₄ <;> cases h
    · rw [h₁, Kind.single?]
    · rw [h₂, Kind.single?]
    · rw [h₃, Kind.single?]
    · rw [h₄, Kind.single?]
  · intro h
    cases k <;> cases h <;> rfl

theorem not_isNameChar_of_single? {c : Char} {k : Kind} (h : k.single? = some c) :
    ¬isNameChar c := by
  cases k <;> cases h <;> decide

theorem not_isBlank_of_single? {c : Char} {k : Kind} (h : k.single? = some c) : ¬isBlank c := by
  cases k <;> cases h <;> decide

theorem single?_of_isNameChar {c : Char} (h : isNameChar c) : Token.single? c = none := by
  rw [Option.eq_none_iff_forall_ne_some]
  intro k hk
  exact not_isNameChar_of_single? (single?_eq_some.1 hk) h

theorem nine_lt_of_isAlpha {c : Char} (h : c.isAlpha) : '9'.toNat < c.toNat := by
  have hcase : (decide ('A'.val ≤ c.val ∧ c.val ≤ 'Z'.val) ||
      (decide ('a'.val ≤ c.val) && decide (c.val ≤ 'z'.val))) = true := h
  rw [Bool.or_eq_true, Bool.and_eq_true, decide_eq_true_eq, decide_eq_true_eq] at hcase
  have hupper : '9'.toNat < 'A'.val.toNat := by decide
  have hlower : '9'.toNat < 'a'.val.toNat := by decide
  show '9'.toNat < c.val.toNat
  rcases hcase with ⟨hfirst, -⟩ | ⟨hfirst, -⟩
  · have hle := UInt32.le_iff_toNat_le.1 hfirst
    omega
  · have hle := UInt32.le_iff_toNat_le.1 hfirst
    omega

theorem le_nine_of_isDigit {c : Char} (h : c.isDigit) : c.toNat ≤ '9'.toNat := by
  have hboth : (decide ('0'.val ≤ c.val) && decide (c.val ≤ '9'.val)) = true := h
  rw [Bool.and_eq_true, decide_eq_true_eq, decide_eq_true_eq] at hboth
  exact UInt32.le_iff_toNat_le.1 hboth.2

theorem not_isDigit_of_isNameStart {c : Char} (h : isNameStart c) : ¬c.isDigit := by
  intro hd
  have hle : c.toNat ≤ '9'.toNat := le_nine_of_isDigit hd
  simp only [isNameStart, Bool.or_eq_true, beq_iff_eq] at h
  rcases h with halpha | rfl
  · have hlt : '9'.toNat < c.toNat := nine_lt_of_isAlpha halpha
    omega
  · revert hd
    decide

/-! ## One token -/

/-- The characters that a token of the kind takes in when they come next. -/
def Kind.goesOn : Kind → Char → Bool
  | .int => Char.isDigit
  | .name => isNameChar
  | _ => fun _ => false

/-- A token of the kind does not go on into what follows. -/
def Kind.EndsAt (k : Kind) (after : List Char) : Prop := ∀ d ∈ after.head?, ¬k.goesOn d

theorem Kind.operand_of_goesOn {k : Kind} {d : Char} (h : k.goesOn d) :
    k.IsOperand ∧ isNameChar d := by
  cases k with
  | int => exact ⟨.inl rfl, isNameChar_of_isDigit h⟩
  | name => exact ⟨.inr rfl, h⟩
  | plus | star | leftParen | rightParen => cases h

theorem Kind.EndsAt.takeWhile {k : Kind} {after : List Char} (h : k.EndsAt after) :
    after.takeWhile k.goesOn = [] ∧ after.dropWhile k.goesOn = after :=
  Text.span_append (List.forall_mem_nil _) h

theorem Kind.endsAt_dropWhile (k : Kind) (rest : List Char) :
    k.EndsAt (rest.dropWhile k.goesOn) := by
  intro d hd hgoes
  have hnot := List.head?_dropWhile_not k.goesOn rest
  rw [Option.mem_def.1 hd] at hnot
  simp [hgoes] at hnot

theorem Kind.endsAt_of_single? {k : Kind} {c : Char} (h : k.single? = some c)
    (after : List Char) : k.EndsAt after := by
  intro d _ hgoes
  rcases (operand_of_goesOn hgoes).1 with rfl | rfl <;> cases h

theorem Kind.endsAt_append {k : Kind} {cs rest rest' : List Char} (h : k.EndsAt (cs ++ rest))
    (hrest : k.EndsAt rest → k.EndsAt rest') : k.EndsAt (cs ++ rest') := by
  cases cs with
  | nil => exact hrest h
  | cons c cs => exact h

theorem read?_number {c : Char} {cs : List Char} (h : IsNumber (c :: cs)) (after : List Char) :
    Token.read? c (cs ++ after) =
      some (⟨.int, c :: (cs ++ after.takeWhile Char.isDigit)⟩, after.dropWhile Char.isDigit) := by
  obtain ⟨ds, hne, hds, heq | heq⟩ := h
  · subst heq
    obtain ⟨hc, hcs⟩ := List.forall_mem_cons.1 hds
    rw [Token.read?, single?_of_isNameChar (isNameChar_of_isDigit hc)]
    simp only [hc, Bool.true_or, if_true, List.takeWhile_append_of_pos hcs,
      List.dropWhile_append_of_pos hcs]
  · obtain ⟨rfl, rfl⟩ := List.cons.inj heq
    obtain ⟨d, ds, rfl⟩ := List.exists_cons_of_ne_nil hne
    have hs : Token.single? '-' = none := by decide
    have hfirst : ((d :: ds ++ after).head?.any Char.isDigit) = true := by
      simpa using hds d List.mem_cons_self
    rw [Token.read?, hs]
    simp only [hfirst, beq_self_eq_true, Bool.and_self, Bool.or_true, if_true,
      List.takeWhile_append_of_pos hds, List.dropWhile_append_of_pos hds]

theorem read?_name {c : Char} {cs : List Char} (h : IsName (c :: cs)) (after : List Char) :
    Token.read? c (cs ++ after) =
      some (⟨.name, c :: (cs ++ after.takeWhile isNameChar)⟩, after.dropWhile isNameChar) := by
  obtain ⟨c', cs', heq, hc, hcs⟩ := h
  obtain ⟨rfl, rfl⟩ := List.cons.inj heq
  have hminus : (c == '-') = false := by
    rw [beq_eq_false_iff_ne]
    rintro rfl
    revert hc
    decide
  rw [Token.read?, single?_of_isNameChar (isNameChar_of_isNameStart hc)]
  simp only [Bool.eq_false_iff.2 (not_isDigit_of_isNameStart hc), hminus, Bool.false_and,
    Bool.or_self, Bool.false_eq_true, if_false, hc, if_true, List.takeWhile_append_of_pos hcs,
    List.dropWhile_append_of_pos hcs]

/-- A lexeme at the front of a text is the beginning of the token that is cut off there. -/
theorem read?_append {t : Token} {c : Char} {cs : List Char} (ht : t.Valid)
    (hl : t.lexeme = c :: cs) (after : List Char) :
    Token.read? c (cs ++ after) =
      some (⟨t.kind, t.lexeme ++ after.takeWhile t.kind.goesOn⟩,
        after.dropWhile t.kind.goesOn) := by
  obtain ⟨k, lexeme⟩ := t
  cases hl
  cases k with
  | int => exact read?_number ht after
  | name => exact read?_name ht after
  | plus | star | leftParen | rightParen =>
    obtain ⟨c', hk, heq⟩ := ht
    obtain ⟨rfl, rfl⟩ := List.cons.inj heq
    obtain ⟨htake, hdrop⟩ := (Kind.endsAt_of_single? hk after).takeWhile
    rw [htake, hdrop, Token.read?, single?_eq_some.2 hk, List.nil_append, List.append_nil]

theorem forall_mem_takeWhile {p : Char → Bool} (cs : List Char) :
    ∀ d ∈ cs.takeWhile p, p d := by
  intro d hd
  exact List.all_eq_true.1 List.all_takeWhile d hd

theorem valid_of_read? {c : Char} {rest after : List Char} {t : Token}
    (h : Token.read? c rest = some (t, after)) : t.Valid := by
  unfold Token.read? at h
  split at h
  · rename_i k hk
    cases h
    have hc : k.single? = some c := single?_eq_some.1 hk
    cases k <;> cases hc <;> exact ⟨_, rfl, rfl⟩
  · split at h
    · rename_i hfirst
      cases h
      simp only [Bool.or_eq_true, Bool.and_eq_true, beq_iff_eq, Option.any_eq_true] at hfirst
      rcases hfirst with hc | ⟨rfl, d, hd, hdigit⟩
      · refine ⟨c :: rest.takeWhile Char.isDigit, List.cons_ne_nil _ _, ?_, .inl rfl⟩
        exact List.forall_mem_cons.2 ⟨hc, forall_mem_takeWhile rest⟩
      · refine ⟨rest.takeWhile Char.isDigit, ?_, forall_mem_takeWhile rest, .inr rfl⟩
        obtain ⟨tail, rfl⟩ := List.head?_eq_some_iff.1 hd
        rw [List.takeWhile_cons_of_pos hdigit]
        exact List.cons_ne_nil _ _
    · split at h
      · rename_i hc
        cases h
        exact ⟨c, _, rfl, hc, forall_mem_takeWhile rest⟩
      · cases h

theorem endsAt_of_read? {t : Token} {c : Char} {rest after : List Char}
    (h : Token.read? c rest = some (t, after)) : t.kind.EndsAt after := by
  unfold Token.read? at h
  split at h
  · rename_i k hk
    cases h
    exact Kind.endsAt_of_single? (single?_eq_some.1 hk) rest
  · split at h
    · cases h
      exact Kind.endsAt_dropWhile .int rest
    · split at h
      · cases h
        exact Kind.endsAt_dropWhile .name rest
      · cases h

theorem Token.Valid.exists_cons {t : Token} (ht : t.Valid) :
    ∃ c cs, t.lexeme = c :: cs ∧ ¬isBlank c ∧ (isNameChar c → t.kind.IsOperand) := by
  obtain ⟨k, lexeme⟩ := t
  cases k with
  | int =>
    obtain ⟨ds, hne, hds, rfl | rfl⟩ := ht
    · obtain ⟨d, ds, rfl⟩ := List.exists_cons_of_ne_nil hne
      have hd : isNameChar d := isNameChar_of_isDigit (hds d List.mem_cons_self)
      exact ⟨d, ds, rfl, fun hb => not_isNameChar_of_isBlank hb hd, fun _ => .inl rfl⟩
    · exact ⟨'-', ds, rfl, by decide, fun _ => .inl rfl⟩
  | name =>
    obtain ⟨c, rest, rfl, hc, -⟩ := ht
    have hn : isNameChar c := isNameChar_of_isNameStart hc
    exact ⟨c, rest, rfl, fun hb => not_isNameChar_of_isBlank hb hn, fun _ => .inr rfl⟩
  | plus | star | leftParen | rightParen =>
    obtain ⟨c, hk, rfl⟩ := ht
    exact ⟨c, [], rfl, not_isBlank_of_single? hk, fun hn =>
      absurd hn (not_isNameChar_of_single? hk)⟩

theorem Token.Valid.not_isBlank {t : Token} (ht : t.Valid) : ∀ c ∈ t.lexeme, ¬isBlank c := by
  obtain ⟨k, lexeme⟩ := t
  cases k with
  | int =>
    obtain ⟨ds, -, hds, rfl | rfl⟩ := ht
    · exact fun d hd hb => not_isNameChar_of_isBlank hb (isNameChar_of_isDigit (hds d hd))
    · exact List.forall_mem_cons.2 ⟨by decide, fun d hd hb =>
        not_isNameChar_of_isBlank hb (isNameChar_of_isDigit (hds d hd))⟩
  | name =>
    obtain ⟨c, rest, rfl, hc, hrest⟩ := ht
    exact List.forall_mem_cons.2
      ⟨fun hb => not_isNameChar_of_isBlank hb (isNameChar_of_isNameStart hc),
        fun d hd hb => not_isNameChar_of_isBlank hb (hrest d hd)⟩
  | plus | star | leftParen | rightParen =>
    obtain ⟨c, hk, rfl⟩ := ht
    exact List.forall_mem_singleton.2 (not_isBlank_of_single? hk)

/-- What is cut off is the valid token at the front that does not go on. -/
theorem read?_eq_some {t : Token} {c : Char} {rest after : List Char} :
    Token.read? c rest = some (t, after) ↔
      t.Valid ∧ t.lexeme ++ after = c :: rest ∧ t.kind.EndsAt after := by
  constructor
  · intro h
    exact ⟨valid_of_read? h, Token.lexeme_append_of_read? h, endsAt_of_read? h⟩
  · rintro ⟨ht, happend, hends⟩
    obtain ⟨c', cs, hl, -, -⟩ := ht.exists_cons
    rw [hl, List.cons_append] at happend
    obtain ⟨rfl, rfl⟩ := List.cons.inj happend
    rw [read?_append ht hl, hends.takeWhile.1, hends.takeWhile.2, List.append_nil]

/-! ## All tokens of a text -/

theorem lex_nil (p : Text.Place) : lex p [] = ⟨[], none⟩ := by
  rw [lex]

theorem lex_blank {c : Char} (h : isBlank c) (p : Text.Place) (rest : List Char) :
    lex p (c :: rest) = lex (p.after c) rest := by
  rw [lex, if_pos h]

theorem lex_token {c : Char} {rest after : List Char} {t : Token} (hb : ¬isBlank c)
    (h : Token.read? c rest = some (t, after)) (p : Text.Place) :
    lex p (c :: rest) = (lex (p.advance t.lexeme) after).cons ⟨t, p⟩ := by
  rw [lex, if_neg hb]
  split
  · rename_i hnone
    rw [h] at hnone
    cases hnone
  · rename_i hsome
    rw [h] at hsome
    cases hsome
    rfl

theorem lex_gap {gap : List Char} (hg : Blank gap) (p : Text.Place) (cs : List Char) :
    lex p (gap ++ cs) = lex (p.advance gap) cs := by
  induction gap generalizing p with
  | nil => rfl
  | cons c gap ih =>
    obtain ⟨hc, hgap⟩ := List.forall_mem_cons.1 hg
    rw [List.cons_append, lex_blank hc, ih hgap, Text.Place.advance_cons]

/-- A text whose first token is no operand does not go on any token. -/
theorem endsAt_of_spaced {k : Kind} {cs : List Char} {ts : List Token} (h : Spaced cs ts)
    (hv : ∀ t ∈ ts, t.Valid) (ho : k.IsOperand → ∀ t ∈ ts.head?, ¬t.kind.IsOperand) :
    k.EndsAt cs := by
  intro d hd hgoes
  obtain ⟨hk, hn⟩ := Kind.operand_of_goesOn hgoes
  cases h with
  | nil hg => exact not_isNameChar_of_isBlank (hg d (List.mem_of_mem_head? hd)) hn
  | @cons gap cs t ts hg h =>
    cases gap with
    | cons c gap =>
      cases hd
      exact not_isNameChar_of_isBlank (hg d List.mem_cons_self) hn
    | nil =>
      obtain ⟨c, rest, hl, -, hc⟩ := (hv t List.mem_cons_self).exists_cons
      rw [hl] at hd
      cases hd
      exact ho hk t rfl (hc hn)

theorem lex_of_spaced {cs : List Char} {ts : List Token} (h : Spaced cs ts)
    (hv : ∀ t ∈ ts, t.Valid) (ha : Apart ts) (p : Text.Place) :
    (lex p cs).stray = none ∧ (lex p cs).tokens.map Placed.token = ts := by
  induction h generalizing p with
  | @nil gap hg =>
    have hlex := lex_gap hg p []
    rw [List.append_nil, lex_nil] at hlex
    rw [hlex]
    exact ⟨rfl, rfl⟩
  | @cons gap cs t ts hg h ih =>
    obtain ⟨ht, hts⟩ := List.forall_mem_cons.1 hv
    obtain ⟨hnext, hapart⟩ := List.isChain_cons.1 ha
    obtain ⟨c, rest, hl, hb, -⟩ := ht.exists_cons
    have hends : t.kind.EndsAt cs :=
      endsAt_of_spaced h hts fun ho u hu hop => hnext u hu ⟨ho, hop⟩
    have hread : Token.read? c (rest ++ cs) = some (t, cs) := by
      rw [read?_eq_some, hl]
      exact ⟨ht, rfl, hends⟩
    rw [lex_gap hg, hl, List.cons_append, lex_token hb hread]
    obtain ⟨hstray, htokens⟩ := ih hts hapart (((p.advance gap)).advance t.lexeme)
    refine ⟨hstray, ?_⟩
    rw [Lexed.cons, List.map_cons, htokens]

theorem Spaced.blank {c : Char} {cs : List Char} {ts : List Token} (hc : isBlank c)
    (h : Spaced cs ts) : Spaced (c :: cs) ts := by
  cases h with
  | nil hg => exact .nil (List.forall_mem_cons.2 ⟨hc, hg⟩)
  | @cons gap cs t ts hg h =>
    rw [← List.cons_append]
    exact .cons (List.forall_mem_cons.2 ⟨hc, hg⟩) h

end Abacus.Infix
