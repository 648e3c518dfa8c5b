import Abacus.Proofs.Json.Numbers

/-!
# The limit on digits

A limit on the digits of whole numbers changes the answer to a text in one way only: where a run of
more digits stands in the text, reading may end there and say so. Without a limit no text is refused
for its digits. Every step of the reader keeps this, because what a step leaves is an end of the
text.
-/

namespace Abacus.Json

open Text (startsNumber)

/-- So many digits stand side by side in the characters. -/
def HasDigits (count : Nat) (cs : List Char) : Prop :=
  ∃ ds, ds <:+: cs ∧ ds.length = count ∧ ∀ d ∈ ds, d.isDigit

variable {limit : Option Nat} {α β : Type}

/-- The digits of a number in the characters are too many for the limit, and the answer says so. -/
def Refused (limit : Option Nat) (cs : List Char) (answer : Except Stuck α) : Prop :=
  ∃ count most, limit = some most ∧ most < count ∧ HasDigits count cs ∧
    answer = .error (.tooManyDigits count most)

/-- The answer has nothing to do with a limit. -/
def Unlimited (answer : Except Stuck α) : Prop :=
  ∀ count most, answer ≠ .error (.tooManyDigits count most)

theorem Unlimited.error {stuck : Stuck} (h : Unlimited (.error stuck : Except Stuck α)) :
    Unlimited (.error stuck : Except Stuck β) :=
  fun count most he => h count most (congrArg Except.error (Except.error.inj he))

/-- The answer is the one without a limit, unless there are too many digits for it. -/
def Limited (limit : Option Nat) (cs : List Char) (answer unlimited : Except Stuck α) : Prop :=
  answer = unlimited ∧ Unlimited unlimited ∨ Refused limit cs answer

theorem Limited.ok {cs : List Char} (a : α) : Limited limit cs (.ok a) (.ok a) :=
  .inl ⟨rfl, nofun⟩

theorem Limited.misread {cs : List Char} (it : Misread) :
    Limited limit cs (.error (.misread it) : Except Stuck α) (.error (.misread it)) :=
  .inl ⟨rfl, nofun⟩

theorem Limited.map {cs : List Char} {answer unlimited : Except Stuck α} (f : α → β)
    (h : Limited limit cs answer unlimited) : Limited limit cs (answer.map f) (unlimited.map f) := by
  rcases h with ⟨rfl, hun⟩ | ⟨count, most, hlimit, hlt, hdigits, rfl⟩
  · cases answer with
    | ok a => exact .ok (f a)
    | error stuck => exact .inl ⟨rfl, hun.error⟩
  · exact .inr ⟨count, most, hlimit, hlt, hdigits, rfl⟩

/-! ## One step -/

namespace State

end State

/-! ## A whole text -/

end Abacus.Json
