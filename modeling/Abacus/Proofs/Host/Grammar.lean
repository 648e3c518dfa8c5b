import Abacus.Proofs.Expr.Shape
import Abacus.Proofs.Text.Decimal

/-!
# The language of generated expressions

An expression in a host language is a run of digits, a negative number in parentheses, a read from
the array `arr`, or a sum or product in parentheses. Numbers, slots and operations share their
characters, but the first two tell the forms apart and whatever follows a run of digits ends it. So
no text has two derivations.
-/

namespace Abacus.Host

open Text (NoDigit noDigit_cons)

/-- A run of decimal digits. -/
structure Digits where
  chars : List Char
  nonempty : chars ≠ []
  isDigit : ∀ c ∈ chars, c.isDigit

namespace Digits

@[ext] theorem ext {ds es : Digits} (h : ds.chars = es.chars) : ds = es := by
  cases ds; cases es; cases h; rfl

def value (ds : Digits) : Nat := Nat.ofDigitChars 10 ds.chars 0

def ofNat (n : Nat) : Digits :=
  ⟨Nat.toDigits 10 n, Nat.toDigits_ne_nil, Text.isDigit_of_mem_toDigits⟩

@[simp] theorem value_ofNat (n : Nat) : (ofNat n).value = n := Nat.ofDigitChars_ten_toDigits

theorem append_ne (ds : Digits) {c : Char} (hc : ¬c.isDigit) (xs ys : List Char) :
    ds.chars ++ xs ≠ c :: ys := by
  intro h
  obtain ⟨d, rest, hd⟩ := List.exists_cons_of_ne_nil ds.nonempty
  rw [hd, List.cons_append] at h
  obtain ⟨rfl, -⟩ := List.cons.inj h
  exact hc (ds.isDigit d (hd ▸ List.mem_cons_self))

/-- What follows a run of digits tells where it ends. -/
theorem eq_of_append {ds es : Digits} {xs ys : List Char} (h : ds.chars ++ xs = es.chars ++ ys)
    (hx : NoDigit xs) (hy : NoDigit ys) : ds = es ∧ xs = ys := by
  obtain ⟨hchars, hrest⟩ := Text.eq_of_span_append ds.isDigit es.isDigit hx hy h
  exact ⟨ext hchars, hrest⟩

theorem eq_of_append_cons {ds es : Digits} {c : Char} (hc : ¬c.isDigit) {xs ys : List Char}
    (h : ds.chars ++ c :: xs = es.chars ++ c :: ys) : ds = es ∧ xs = ys := by
  obtain ⟨rfl, htail⟩ := eq_of_append h (noDigit_cons hc xs) (noDigit_cons hc ys)
  exact ⟨rfl, (List.cons.inj htail).2⟩

end Digits

/-- A derivation in the language, with one constructor for each form of expression. -/
inductive Derivation where
  | number (ds : Digits)
  | negative (ds : Digits)
  | element (ds : Digits)
  | operation (o : Operator) (left right : Derivation)

namespace Derivation

def chars : Derivation → List Char
  | .number ds => ds.chars
  | .negative ds => '(' :: '-' :: (ds.chars ++ [')'])
  | .element ds => 'a' :: 'r' :: 'r' :: '[' :: (ds.chars ++ [']'])
  | .operation o l r => '(' :: (l.chars ++ (o.symbol.toList ++ (r.chars ++ [')'])))

/-- The text that is derived. -/
def text (d : Derivation) : String := String.ofList d.chars

/-- The value over whole numbers, with the given contents of the array. -/
def value (arr : List Int) : Derivation → Option Int
  | .number ds => some ds.value
  | .negative ds => some (-ds.value)
  | .element ds => arr[ds.value]?
  | .operation o l r => do
    let a ← l.value arr
    let b ← r.value arr
    return o.apply a b

theorem noDigit_symbol_append (o : Operator) (xs : List Char) :
    NoDigit (o.symbol.toList ++ xs) := by
  cases o <;> exact noDigit_cons (by decide) xs

theorem append_ne_minus (d : Derivation) (xs ys : List Char) : d.chars ++ xs ≠ '-' :: ys := by
  cases d with
  | number ds => exact ds.append_ne (by decide) xs ys
  | negative ds | element ds | operation o l r =>
    intro h
    exact absurd (List.cons.inj h).1 (by decide)

/-- A text that goes on behind an expression tells where the expression ends. -/
theorem eq_of_append {d d' : Derivation} {xs ys : List Char} (h : d.chars ++ xs = d'.chars ++ ys)
    (hx : NoDigit xs) (hy : NoDigit ys) : d = d' ∧ xs = ys := by
  induction d generalizing d' xs ys with
  | number ds =>
    cases d' with
    | number es =>
      obtain ⟨rfl, rfl⟩ := Digits.eq_of_append h hx hy
      exact ⟨rfl, rfl⟩
    | negative es | element es | operation o l r => exact absurd h (ds.append_ne (by decide) xs _)
  | negative ds =>
    cases d' with
    | number es => exact absurd h.symm (es.append_ne (by decide) ys _)
    | negative es =>
      simp only [chars, List.cons_append, List.append_assoc, List.cons.injEq, true_and,
        List.nil_append] at h
      obtain ⟨rfl, rfl⟩ := Digits.eq_of_append_cons (by decide) h
      exact ⟨rfl, rfl⟩
    | element es => exact absurd (List.cons.inj h).1 (by decide)
    | operation o l r =>
      simp only [chars, List.cons_append, List.append_assoc, List.cons.injEq, true_and] at h
      exact absurd h.symm (l.append_ne_minus _ _)
  | element ds =>
    cases d' with
    | number es => exact absurd h.symm (es.append_ne (by decide) ys _)
    | element es =>
      simp only [chars, List.cons_append, List.append_assoc, List.cons.injEq, true_and,
        List.nil_append] at h
      obtain ⟨rfl, rfl⟩ := Digits.eq_of_append_cons (by decide) h
      exact ⟨rfl, rfl⟩
    | negative es | operation o l r => exact absurd (List.cons.inj h).1 (by decide)
  | operation o l r ihl ihr =>
    cases d' with
    | number es => exact absurd h.symm (es.append_ne (by decide) ys _)
    | negative es =>
      simp only [chars, List.cons_append, List.append_assoc, List.cons.injEq, true_and] at h
      exact absurd h (l.append_ne_minus _ _)
    | element es => exact absurd (List.cons.inj h).1 (by decide)
    | operation o' l' r' =>
      simp only [chars, List.cons_append, List.append_assoc, List.cons.injEq, true_and,
        List.nil_append] at h
      obtain ⟨rfl, hrest⟩ := ihl h (noDigit_symbol_append o _) (noDigit_symbol_append o' _)
      obtain ⟨rfl, htail⟩ := Operator.symbol_append_inj hrest
      obtain ⟨rfl, hend⟩ :=
        ihr htail (noDigit_cons (by decide) xs) (noDigit_cons (by decide) ys)
      exact ⟨rfl, (List.cons.inj hend).2⟩

/-- The language is unambiguous. -/
theorem text_injective {d d' : Derivation} (h : d.text = d'.text) : d = d' := by
  have hchars : d.chars = d'.chars := String.ofList_injective h
  have hend : NoDigit [] := fun c hc => (nomatch hc)
  have happend : d.chars ++ [] = d'.chars ++ [] := by rw [hchars]
  exact (eq_of_append happend hend hend).1

end Derivation

end Abacus.Host
