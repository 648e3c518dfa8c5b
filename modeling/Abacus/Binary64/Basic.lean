/-!
# Binary floating-point values of 64 bits

A value is a whole significand times a power of two, with a sign; besides those there are the two
infinities and the value that is no number. The nearest such value to a quotient of whole numbers
is computed in whole-number arithmetic alone.
-/

namespace Abacus

/-- `finite negative m e` stands for `m * 2 ^ e`, with a minus sign when `negative`; zero has both
signs. The functions here build exponents from -1074 to 971. -/
inductive Binary64 where
  | nan
  | infinity (negative : Bool)
  | finite (negative : Bool) (significand : Nat) (exponent : Int)
deriving DecidableEq, Repr, Inhabited

namespace Binary64

/-- Significands are below this, the 53rd power of two. -/
def limit : Nat := 0x20000000000000

/-- The quotient rounded to the nearest whole number, a half to the even neighbour. -/
def roundHalfEven (num den : Nat) : Nat :=
  let floor := num / den
  let twice := 2 * (num % den)
  if twice < den ∨ (twice = den ∧ floor % 2 = 0) then floor else floor + 1

/-- The quotient divided by `base ^ e`, again as a quotient. -/
def scaled (base : Nat) (num den : Nat) (e : Int) : Nat × Nat :=
  if 0 ≤ e then (num, den * Nat.pow base e.toNat) else (num * Nat.pow base (-e).toNat, den)

/-- The exponent at which the integral part of `num / den` in units of `2 ^ e` has 53 bits, or
the least exponent where that one is smaller. -/
def exponentFor (num den : Nat) : Int :=
  let guess : Int := (num.log2 : Int) - den.log2 - 53
  let guess := if guess < -1074 then -1074 else guess
  let (n, d) := scaled 2 num den guess
  if n / d < limit then guess else guess + 1

/-- The value nearest to `num / den`, a half to the even significand. -/
def nearest (negative : Bool) (num den : Nat) : Binary64 :=
  if num = 0 then .finite negative 0 (-1074)
  else
    let e := exponentFor num den
    let (n, d) := scaled 2 num den e
    let m := roundHalfEven n d
    let (m, e) := if m = limit then (limit / 2, e + 1) else (m, e)
    if 971 < e then .infinity negative else .finite negative m e

/-- The value nearest to `digits * 10 ^ exponent`. Outside the powers of ten that a finite value
other than zero can have, the answer is known without forming the power. -/
def ofDecimal (negative : Bool) (digits : Nat) (exponent : Int) : Binary64 :=
  let magnitude := exponent + (Nat.toDigits 10 digits).length
  if digits = 0 ∨ magnitude < -330 then .finite negative 0 (-1074)
  else if 330 < magnitude then .infinity negative
  else
    let (n, d) := scaled 10 digits 1 (-exponent)
    nearest negative n d

/-- The finite value as a quotient, without its sign. -/
def quotient (significand : Nat) (exponent : Int) : Nat × Nat :=
  scaled 2 significand 1 (-exponent)

/-- The whole number that the value equals, if there is one. -/
def toInt? : Binary64 → Option Int
  | .finite negative m e =>
    let (n, d) := quotient m e
    if n % d = 0 then some (if negative then -(n / d : Nat) else (n / d : Nat)) else none
  | _ => none

/-- Numeric equality: the two zeros are equal, and what is no number equals nothing. -/
def same : Binary64 → Binary64 → Bool
  | .infinity s, .infinity t => s == t
  | .finite s m e, .finite t n f =>
    (m == 0 && n == 0) || (s == t && decide (quotient m e = quotient n f))
  | _, _ => false

end Binary64

end Abacus
