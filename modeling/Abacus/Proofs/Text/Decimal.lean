import Abacus.Text.Numeral
import Mathlib.Data.Nat.Notation

/-!
# Decimal text of whole numbers

A whole number is written in digits without needless zeros, with a minus sign in front of them if it
is negative. The digits end where something else follows.
-/

namespace Abacus.Text

/-! ## Runs of characters -/

/-- A run of characters of one class ends where a character of another class follows. -/
theorem span_append {p : Char → Bool} {cs rest : List Char} (hcs : ∀ c ∈ cs, p c)
    (hrest : ∀ c ∈ rest.head?, ¬p c) :
    (cs ++ rest).takeWhile p = cs ∧ (cs ++ rest).dropWhile p = rest := by
  rw [List.takeWhile_append_of_pos hcs, List.dropWhile_append_of_pos hcs]
  cases rest with
  | nil => simp
  | cons c rest =>
    have hc : ¬p c := hrest c rfl
    rw [List.takeWhile_cons_of_neg hc, List.dropWhile_cons_of_neg hc, List.append_nil]
    exact ⟨rfl, rfl⟩

theorem eq_of_span_append {p : Char → Bool} {cs ds xs ys : List Char} (hcs : ∀ c ∈ cs, p c)
    (hds : ∀ d ∈ ds, p d) (hx : ∀ c ∈ xs.head?, ¬p c) (hy : ∀ c ∈ ys.head?, ¬p c)
    (h : cs ++ xs = ds ++ ys) : cs = ds ∧ xs = ys := by
  obtain ⟨htake, hdrop⟩ := span_append hcs hx
  obtain ⟨htake', hdrop'⟩ := span_append hds hy
  exact ⟨by rw [← htake, h, htake'], by rw [← hdrop, h, hdrop']⟩

/-! ## Written numbers -/

theorem isDigit_of_mem_toDigits {n : Nat} : ∀ d ∈ Nat.toDigits 10 n, d.isDigit := by
  intro d hd
  exact Nat.isDigit_of_mem_toDigits (by omega) (by omega) hd

/-- The two forms of a written number. -/
theorem toList_toString_cases (v : Int) :
    (∃ n : Nat, v = n ∧ (toString v).toList = Nat.toDigits 10 n) ∨
      ∃ n : Nat, 0 < n ∧ v = -n ∧ (toString v).toList = '-' :: Nat.toDigits 10 n := by
  have hrepr : toString v = v.repr := rfl
  rw [hrepr, Int.repr_eq_if]
  by_cases hv : 0 ≤ v
  · refine .inl ⟨v.toNat, by omega, ?_⟩
    rw [if_pos hv, Nat.toList_repr]
  · refine .inr ⟨(-v).toNat, by omega, by omega, ?_⟩
    rw [if_neg hv, String.toList_append, Nat.toList_repr]
    rfl

/-- No number but zero is written with a zero in front. -/
theorem eq_zero_of_toDigits {n : Nat} {ds : List Char} (h : Nat.toDigits 10 n = '0' :: ds) :
    n = 0 := by
  induction n using Nat.strongRecOn generalizing ds with
  | ind n ih =>
    by_cases hn : n < 10
    · rw [Nat.toDigits_of_lt_base hn] at h
      exact Nat.digitChar_eq_zero.1 (List.cons.inj h).1
    · rw [Nat.toDigits_of_base_le (by omega) (by omega)] at h
      obtain ⟨d, rest, hd⟩ := List.exists_cons_of_ne_nil (@Nat.toDigits_ne_nil (n / 10) 10)
      rw [hd, List.cons_append] at h
      obtain ⟨rfl, -⟩ := List.cons.inj h
      have hzero : n / 10 = 0 := ih (n / 10) (by omega) hd
      omega

/-- No digit comes next. -/
def NoDigit (rest : List Char) : Prop := ∀ c ∈ rest.head?, ¬c.isDigit

theorem noDigit_cons {c : Char} (h : ¬c.isDigit) (rest : List Char) : NoDigit (c :: rest) := by
  intro d hd
  cases hd
  exact h

theorem Numeral.digits_eq {ds rest : List Char} (hds : ∀ d ∈ ds, d.isDigit) (hr : NoDigit rest) :
    digits (ds ++ rest) = (ds, rest) := by
  obtain ⟨htake, hdrop⟩ := span_append hds hr
  rw [digits, htake, hdrop]

/-! ## Where a number starts -/

/-- A digit, or a minus sign with a digit behind it. -/
def startsNumber (c : Char) (rest : List Char) : Bool :=
  c.isDigit || (c == '-' && (rest.head?.any Char.isDigit))

theorem startsNumber_iff {c : Char} {rest : List Char} : startsNumber c rest ↔
    c.isDigit ∨ c = '-' ∧ rest.head?.any Char.isDigit := by
  rw [startsNumber, Bool.or_eq_true, Bool.and_eq_true, beq_iff_eq]

theorem ne_of_startsNumber {c d : Char} {rest : List Char} (h : startsNumber c rest)
    (hd : ¬d.isDigit) (hm : d ≠ '-') : c ≠ d := by
  rintro rfl
  rcases startsNumber_iff.1 h with hc | ⟨hc, -⟩
  · exact hd hc
  · exact hm hc

theorem exists_startsNumber_toString (v : Int) (more : List Char) :
    ∃ c rest, (toString v).toList ++ more = c :: rest ∧ startsNumber c rest := by
  have hdigits (n : Nat) : ∃ d ds, Nat.toDigits 10 n = d :: ds ∧ d.isDigit := by
    obtain ⟨d, ds, hd⟩ := List.exists_cons_of_ne_nil (@Nat.toDigits_ne_nil n 10)
    exact ⟨d, ds, hd, isDigit_of_mem_toDigits d (hd ▸ List.mem_cons_self)⟩
  rcases toList_toString_cases v with ⟨n, -, hn⟩ | ⟨n, -, -, hn⟩
  · obtain ⟨d, ds, hd, hdigit⟩ := hdigits n
    exact ⟨d, ds ++ more, by rw [hn, hd, List.cons_append], startsNumber_iff.2 (.inl hdigit)⟩
  · obtain ⟨d, ds, hd, hdigit⟩ := hdigits n
    refine ⟨'-', d :: (ds ++ more), by rw [hn, hd, List.cons_append, List.cons_append], ?_⟩
    exact startsNumber_iff.2 (.inr ⟨rfl, hdigit⟩)

/-! ## Reading a written number -/

/-- Nothing comes next that could go on a numeral. -/
def EndsNumeral (rest : List Char) : Prop :=
  ∀ c ∈ rest.head?, ¬c.isDigit ∧ c ≠ '.' ∧ c ≠ 'e' ∧ c ≠ 'E'

theorem endsNumeral_nil : EndsNumeral [] := by
  intro c hc
  cases hc

theorem endsNumeral_cons {c : Char} (h : ¬c.isDigit ∧ c ≠ '.' ∧ c ≠ 'e' ∧ c ≠ 'E')
    (rest : List Char) : EndsNumeral (c :: rest) := by
  intro d hd
  cases hd
  exact h

theorem EndsNumeral.noDigit {rest : List Char} (h : EndsNumeral rest) : NoDigit rest :=
  fun c hc => (h c hc).1

namespace Numeral

variable {rest : List Char}

/-- Digits in front of a point: at least one, and none is a needless zero. -/
structure Whole (ds : List Char) : Prop where
  nonempty : ds ≠ []
  digits : ∀ d ∈ ds, d.isDigit
  zero : ds.head? = some '0' → ds = ['0']

theorem whole_toDigits (n : Nat) : Whole (Nat.toDigits 10 n) := by
  refine ⟨Nat.toDigits_ne_nil, isDigit_of_mem_toDigits, fun hzero => ?_⟩
  obtain ⟨ds, hds⟩ := List.head?_eq_some_iff.1 hzero
  rw [eq_zero_of_toDigits hds]
  rfl

theorem Whole.exists_cons {ds : List Char} (h : Whole ds) : ∃ d tail, ds = d :: tail ∧ d.isDigit := by
  obtain ⟨d, tail, rfl⟩ := List.exists_cons_of_ne_nil h.nonempty
  exact ⟨d, tail, rfl, h.digits d List.mem_cons_self⟩

theorem readWhole?_eq {ds : List Char} (h : Whole ds) (hr : NoDigit rest) :
    readWhole? (ds ++ rest) = some (ds, rest) := by
  unfold readWhole?
  split
  · rename_i tail heq
    obtain ⟨d, ds, rfl, -⟩ := h.exists_cons
    obtain ⟨rfl, rfl⟩ := List.cons.inj heq
    obtain ⟨-, rfl⟩ := List.cons.inj (h.zero rfl)
    rfl
  · rw [digits_eq h.digits hr]
    simp only [List.isEmpty_iff, h.nonempty, if_false]

theorem readPart_eq (hr : EndsNumeral rest) : readPart rest = ([], rest) := by
  unfold readPart
  split
  · exact absurd rfl (hr '.' rfl).2.1
  · rfl

theorem readTens_eq (hr : EndsNumeral rest) : readTens rest = (none, rest) := by
  unfold readTens
  split
  · rename_i mark tail
    obtain ⟨-, -, he, hE⟩ := hr mark rfl
    rw [if_neg (not_or.2 ⟨he, hE⟩)]
  · rfl

theorem readMinus_eq {ds : List Char} (h : Whole ds) :
    readMinus (ds ++ rest) = (false, ds ++ rest) := by
  obtain ⟨d, tail, rfl, hdigit⟩ := h.exists_cons
  unfold readMinus
  split
  · rename_i heq
    obtain ⟨rfl, -⟩ := List.cons.inj heq
    exact absurd hdigit (by decide)
  · rfl

theorem read?_eq {ds : List Char} (h : Whole ds) (hr : EndsNumeral rest) :
    read? (ds ++ rest) = some (⟨false, ds, [], none⟩, rest) := by
  rw [read?]
  simp only [readMinus_eq h, readWhole?_eq h hr.noDigit, readPart_eq hr, readTens_eq hr]

theorem read?_minus_eq {ds : List Char} (h : Whole ds) (hr : EndsNumeral rest) :
    read? ('-' :: (ds ++ rest)) = some (⟨true, ds, [], none⟩, rest) := by
  have hminus : readMinus ('-' :: (ds ++ rest)) = (true, ds ++ rest) := rfl
  rw [read?]
  simp only [hminus, readWhole?_eq h hr.noDigit, readPart_eq hr, readTens_eq hr]

theorem significand_toDigits (negative : Bool) (n : Nat) :
    significand ⟨negative, Nat.toDigits 10 n, [], none⟩ = n := by
  rw [significand, List.append_nil, Nat.ofDigitChars_ten_toDigits]

/-- A written number is read as a numeral of the same value and the same digits. -/
theorem exists_read?_toString (v : Int) (hr : EndsNumeral rest) :
    ∃ n, read? ((toString v).toList ++ rest) = some (n, rest) ∧ n.isWhole = true ∧ n.toInt = v ∧
      n.whole = Nat.toDigits 10 v.natAbs := by
  rcases toList_toString_cases v with ⟨m, rfl, hm⟩ | ⟨m, -, rfl, hm⟩
  · refine ⟨⟨false, Nat.toDigits 10 m, [], none⟩, ?_, rfl, ?_, rfl⟩
    · rw [hm, read?_eq (whole_toDigits m) hr]
    · rw [toInt, significand_toDigits, if_neg Bool.false_ne_true]
  · refine ⟨⟨true, Nat.toDigits 10 m, [], none⟩, ?_, rfl, ?_, ?_⟩
    · rw [hm, List.cons_append, read?_minus_eq (whole_toDigits m) hr]
    · rw [toInt, significand_toDigits, if_pos rfl]
    · rw [Int.natAbs_neg, Int.natAbs_natCast]

/-! ## The digits of a numeral in the text -/

end Numeral

end Abacus.Text
