import Abacus.Json.Reader
import Abacus.Proofs.Text.Decimal

/-!
# Whole numbers as JSON

A whole number within the limit is read back from its decimal text, as long as nothing follows that
could go on it. The words that stand for a value do not get in the way: none of them starts like a
number.
-/

namespace Abacus.Json

open Text (startsNumber EndsNumeral)

theorem exists_of_mem_words {w : List Char × Datum} (hw : w ∈ words) :
    ∃ a b tail, w.1 = a :: b :: tail ∧ startsNumber a [b] = false := by
  simp only [words, List.mem_cons, List.not_mem_nil, or_false] at hw
  rcases hw with rfl | rfl | rfl | rfl | rfl | rfl <;> exact ⟨_, _, _, rfl, rfl⟩

theorem readWord?_of_startsNumber {c : Char} {rest : List Char} (h : startsNumber c rest) :
    readWord? (c :: rest) = none := by
  rw [readWord?, List.findSome?_eq_none_iff]
  intro w hw
  refine if_neg fun hprefix => ?_
  obtain ⟨a, b, word, heq, hstart⟩ := exists_of_mem_words hw
  obtain ⟨more, hmore⟩ := List.isPrefixOf_iff_prefix.1 hprefix
  rw [heq] at hmore
  cases hmore
  exact Bool.false_ne_true (hstart.symm.trans h)

variable {limit : Option Nat}

/-! ## Within a limit -/

/-- The number of digits that a whole number is written with. -/
def digitCount (v : Int) : Nat := (Nat.toDigits 10 v.natAbs).length

/-- The limit, if there is one, allows the whole number. -/
def Fits (limit : Option Nat) (v : Int) : Prop := ∀ most ∈ limit, digitCount v ≤ most

theorem fits_none (v : Int) : Fits none v := fun _ h => nomatch h

theorem exceeded?_eq_none_iff {count : Nat} :
    exceeded? limit count = none ↔ ∀ most ∈ limit, count ≤ most := by
  simp only [exceeded?, Option.filter_eq_none_iff, decide_eq_true_eq, Nat.not_lt, Option.mem_def]

theorem ofNumeral_of_not_exceeded {n : Text.Numeral} (hwhole : n.isWhole)
    (h : exceeded? limit n.whole.length = none) : ofNumeral limit n = .ok (.int n.toInt) := by
  rw [ofNumeral, if_pos hwhole, h]

theorem readScalar_of_read? {c : Char} {rest after : List Char} {n : Text.Numeral}
    (hc : startsNumber c rest) (h : Text.Numeral.read? (c :: rest) = some (n, after)) :
    readScalar limit (c :: rest) = (ofNumeral limit n).map fun d => (d, after) := by
  rw [readScalar, readWord?_of_startsNumber hc]
  simp only [h]

theorem not_isBlank_of_startsNumber {c : Char} {rest : List Char} (h : startsNumber c rest) :
    ¬isBlank c := by
  have hne : ∀ d : Char, ¬d.isDigit → d ≠ '-' → c ≠ d := fun d => Text.ne_of_startsNumber h
  simp only [isBlank, Bool.or_eq_true, beq_iff_eq, not_or]
  refine ⟨⟨⟨hne _ ?_ ?_, hne _ ?_ ?_⟩, hne _ ?_ ?_⟩, hne _ ?_ ?_⟩ <;> decide

/-- Where a value may stand and a number starts, the number decides. -/
theorem startValue_of_startsNumber {c : Char} {rest : List Char} (h : startsNumber c rest)
    (frames : List Frame) : startValue limit frames c rest =
      (readScalar limit (c :: rest)).map fun found => (⟨.after found.1, frames⟩, found.2) := by
  have hne : ∀ d : Char, ¬d.isDigit → d ≠ '-' → c ≠ d := fun d => Text.ne_of_startsNumber h
  have hquote : c ≠ Text.doubleQuote := hne _ (by decide) (by decide)
  have hbrace : c ≠ '\x7b' := hne _ (by decide) (by decide)
  have hbracket : c ≠ '[' := hne _ (by decide) (by decide)
  rw [startValue, if_neg hquote, if_neg hbrace, if_neg hbracket]

/-- A whole number in its decimal text, up to something that cannot go on it. -/
theorem readScalar_toString {v : Int} (hv : Fits limit v) {more : List Char}
    (hm : EndsNumeral more) : readScalar limit ((toString v).toList ++ more) = .ok (.int v, more) := by
  obtain ⟨c, rest, heq, hstart⟩ := Text.exists_startsNumber_toString v more
  obtain ⟨n, hread, hwhole, hvalue, hdigits⟩ := Text.Numeral.exists_read?_toString v hm
  rw [heq] at hread ⊢
  have hfits : exceeded? limit n.whole.length = none := by
    rw [exceeded?_eq_none_iff, hdigits]
    exact hv
  rw [readScalar_of_read? hstart hread, ofNumeral_of_not_exceeded hwhole hfits, hvalue]
  rfl

end Abacus.Json
