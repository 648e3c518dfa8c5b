import Abacus.Proofs.Infix.Situation
import Abacus.Proofs.Infix.Spelling

/-!
# Which texts are read

A text is read exactly when there is any way at all to cut it into tokens that are a sum. The reader
always cuts a token as long as it can, and never takes another cut back. It need not: a phrase has
something between any two operands, and that makes the long cut the only one that is a phrase.
-/

namespace Abacus.Infix

/-- The tokens are one way to cut the text, with blanks between them at will. -/
structure Cut (text : String) (ts : List Token) : Prop where
  spaced : Spaced text.toList ts
  valid : ∀ t ∈ ts, t.Valid

/-- A cut that is a phrase is the one that takes every token as long as it can. -/
theorem Cut.lex_eq {text : String} {ts : List Token} {e : Expr} (hc : Cut text ts)
    (h : Phrase .sum ts e) : (lex .start text.toList).stray = none ∧
      (lex .start text.toList).tokens.map Placed.token = ts :=
  lex_of_spaced hc.spaced hc.valid h.apart .start

theorem parse_eq_ok_iff_cut {text : String} {e : Expr} :
    parse text = .ok e ↔ ∃ ts, Cut text ts ∧ Phrase .sum ts e := by
  rw [parse_eq_ok]
  constructor
  · rintro ⟨hstray, h⟩
    obtain ⟨hspaced, hvalid⟩ := (cutInto_of_lex .start hstray).spaced
    exact ⟨_, ⟨hspaced, hvalid⟩, h⟩
  · rintro ⟨ts, hc, h⟩
    obtain ⟨hstray, htokens⟩ := hc.lex_eq h
    exact ⟨hstray, htokens ▸ h⟩

/-- Reading accepts the grammar, whichever way a text is cut, and whether or not the state is looked
at while cutting. No text has two phrases. -/
theorem parse_accepts_grammar :
    (∀ (text : String) (e : Expr),
      (parse text = .ok e ↔ ∃ ts, Cut text ts ∧ Phrase .sum ts e) ∧
      (parseInContext text = some e ↔ ∃ ts, Cut text ts ∧ Phrase .sum ts e)) ∧
    ∀ (text : String) (ts ts' : List Token) (e e' : Expr), Cut text ts → Phrase .sum ts e →
      Cut text ts' → Phrase .sum ts' e' → ts' = ts ∧ e' = e := by
  refine ⟨fun text e => ⟨parse_eq_ok_iff_cut, ?_⟩, ?_⟩
  · rw [parseInContext_eq_some, parse_eq_ok_iff_cut]
  · intro text ts ts' e e' hc h hc' h'
    have htokens : ts' = ts := (hc'.lex_eq h').2.symm.trans (hc.lex_eq h).2
    have hread : parse text = .ok e := parse_eq_ok_iff_cut.2 ⟨ts, hc, h⟩
    have hread' : parse text = .ok e' := parse_eq_ok_iff_cut.2 ⟨ts', hc', h'⟩
    rw [hread, Except.ok.injEq] at hread'
    exact ⟨htokens, hread'.symm⟩

/-- A sign belongs to the number behind it, and two digits are one number. -/
theorem parse_accepts_grammar_signed :
    Cut "x +-12" [.ofName "x", .ofOperator .plus, .ofInt (-12)] ∧
      Phrase .sum [.ofName "x", .ofOperator .plus, .ofInt (-12)]
        (.add (.var "x") (.literal (-12))) ∧
      parse "x +-12" = .ok (.add (.var "x") (.literal (-12))) ∧
      parseInContext "x +-12" = some (.add (.var "x") (.literal (-12))) ∧
      ∀ ts e, Cut "x +-12" ts → Phrase .sum ts e →
        ts = [.ofName "x", .ofOperator .plus, .ofInt (-12)] ∧
          e = .add (.var "x") (.literal (-12)) := by
  have hbare : Spot.whole.Redundant .plus := trivial
  have hspelling := Spelling.bare hbare (.var "x") (.literal (-12))
  have hphrase := hspelling.phrase
  have hgap : Blank [] := fun c hc => (nomatch hc)
  have hspace : Blank [' '] := List.forall_mem_singleton.2 rfl
  have hspaced := Spaced.cons (t := .ofName "x") hgap <|
    .cons (t := .ofOperator .plus) hspace <| .cons (t := .ofInt (-12)) hgap <| .nil hgap
  have hname : IsName "x".toList := ⟨'x', [], rfl, by decide, fun c hc => (nomatch hc)⟩
  have hcut : Cut "x +-12" [.ofName "x", .ofOperator .plus, .ofInt (-12)] :=
    ⟨hspaced, hspelling.valid (List.forall_mem_singleton.2 hname)⟩
  obtain ⟨accepts, unique⟩ := parse_accepts_grammar
  obtain ⟨hparse, hcontext⟩ := accepts "x +-12" (.add (.var "x") (.literal (-12)))
  exact ⟨hcut, hphrase, hparse.2 ⟨_, hcut, hphrase⟩, hcontext.2 ⟨_, hcut, hphrase⟩,
    fun ts e hc h => unique _ _ ts _ e hcut hphrase hc h⟩

end Abacus.Infix
