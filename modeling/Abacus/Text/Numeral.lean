/-!
# Decimal numerals

A numeral is an optional minus sign, digits without a needless leading zero, and optionally digits
behind a point and a power of ten, as in `-12.5e-3`. Reading takes the longest numeral that a text
begins with.
-/

namespace Abacus.Text

structure Numeral where
  negative : Bool
  whole : List Char
  /-- The digits behind the point; empty when there is no point. -/
  part : List Char
  /-- The written power of ten, if one is written. -/
  tens : Option Int
deriving DecidableEq, Repr

namespace Numeral

/-- A numeral without point and without power of ten. -/
def isWhole (n : Numeral) : Bool := n.part.isEmpty && n.tens.isNone

/-- All digits read as one number. -/
def significand (n : Numeral) : Nat := Nat.ofDigitChars 10 (n.whole ++ n.part) 0

/-- The power of ten that goes with the significand. -/
def power (n : Numeral) : Int := n.tens.getD 0 - n.part.length

/-- The value of a numeral that `isWhole`. -/
def toInt (n : Numeral) : Int :=
  if n.negative then -(n.significand : Int) else n.significand

/-- The leading run of decimal digits and what follows it. -/
def digits (cs : List Char) : List Char × List Char :=
  (cs.takeWhile Char.isDigit, cs.dropWhile Char.isDigit)

/-- A zero stands alone in front of the point. -/
def readWhole? (cs : List Char) : Option (List Char × List Char) :=
  match cs with
  | '0' :: rest => some (['0'], rest)
  | _ =>
    let (ds, rest) := digits cs
    if ds.isEmpty then none else some (ds, rest)

/-- A point counts only with a digit behind it. -/
def readPart (cs : List Char) : List Char × List Char :=
  match cs with
  | '.' :: rest =>
    let (ds, rest) := digits rest
    if ds.isEmpty then ([], cs) else (ds, rest)
  | _ => ([], cs)

/-- A sign in front of an exponent's digits. -/
def readSign (cs : List Char) : Bool × List Char :=
  match cs with
  | '-' :: rest => (true, rest)
  | '+' :: rest => (false, rest)
  | _ => (false, cs)

/-- An exponent mark counts only with a digit behind it and its sign. -/
def readTens (cs : List Char) : Option Int × List Char :=
  match cs with
  | mark :: rest =>
    if mark = 'e' ∨ mark = 'E' then
      let (negative, rest) := readSign rest
      let (ds, rest) := digits rest
      if ds.isEmpty then (none, cs)
      else
        let n : Int := Nat.ofDigitChars 10 ds 0
        (some (if negative then -n else n), rest)
    else (none, cs)
  | [] => (none, [])

/-- A minus sign in front of the digits. -/
def readMinus (cs : List Char) : Bool × List Char :=
  match cs with
  | '-' :: rest => (true, rest)
  | _ => (false, cs)

/-- The longest numeral at the head of the characters, and what follows it. -/
def read? (cs : List Char) : Option (Numeral × List Char) :=
  let (negative, rest) := readMinus cs
  match readWhole? rest with
  | none => none
  | some (whole, rest) =>
    let (part, rest) := readPart rest
    let (tens, rest) := readTens rest
    some (⟨negative, whole, part, tens⟩, rest)

/-! ## What reading leaves

What follows a numeral is an end of the text, and the first character is not part of it. -/

theorem suffix_digits (cs : List Char) : (digits cs).2 <:+ cs :=
  List.dropWhile_suffix Char.isDigit

theorem suffix_of_readWhole? {cs ds rest : List Char} (h : readWhole? cs = some (ds, rest)) :
    rest <:+ cs.tail := by
  unfold readWhole? at h
  split at h
  · cases h
    exact List.suffix_refl rest
  · simp only [Option.ite_none_left_eq_some, Option.some.injEq, Prod.mk.injEq] at h
    obtain ⟨hne, -, rfl⟩ := h
    cases cs with
    | nil => exact absurd rfl hne
    | cons c cs =>
      have hc : c.isDigit := by
        by_cases hc : c.isDigit
        · exact hc
        · exact absurd (by rw [digits, List.takeWhile_cons_of_neg hc]; rfl) hne
      rw [digits, List.dropWhile_cons_of_pos hc]
      exact List.dropWhile_suffix Char.isDigit

theorem suffix_readPart (cs : List Char) : (readPart cs).2 <:+ cs := by
  unfold readPart
  split
  · rename_i rest
    dsimp only
    split
    · exact List.suffix_refl _
    · exact (suffix_digits rest).trans (List.suffix_cons _ rest)
  · exact List.suffix_refl cs

theorem suffix_readSign (cs : List Char) : (readSign cs).2 <:+ cs := by
  unfold readSign
  split
  · exact List.suffix_cons _ _
  · exact List.suffix_cons _ _
  · exact List.suffix_refl cs

theorem suffix_tail_readMinus (cs : List Char) : (readMinus cs).2.tail <:+ cs.tail := by
  unfold readMinus
  split
  · exact List.tail_suffix _
  · exact List.suffix_refl cs.tail

theorem suffix_readTens (cs : List Char) : (readTens cs).2 <:+ cs := by
  unfold readTens
  split
  · rename_i mark rest
    dsimp only
    split
    · split
      · exact List.suffix_refl _
      · exact ((suffix_digits _).trans (suffix_readSign rest)).trans (List.suffix_cons _ rest)
    · exact List.suffix_refl _
  · exact List.suffix_refl _

theorem suffix_of_read? {cs rest : List Char} {n : Numeral} (h : read? cs = some (n, rest)) :
    rest <:+ cs.tail := by
  unfold read? at h
  dsimp only at h
  split at h
  · cases h
  · rename_i whole after hwhole
    cases h
    have hafter : after <:+ cs.tail :=
      (suffix_of_readWhole? hwhole).trans (suffix_tail_readMinus cs)
    exact ((suffix_readTens _).trans (suffix_readPart after)).trans hafter

end Numeral

end Abacus.Text
