import Abacus.Binary64.Basic
import Abacus.Text.Numeral

/-!
# The decimal text of a binary floating-point value

A finite value is written with the fewest significant digits that read back as the same value; of
several such texts the one nearest to the value is taken, and of two equally near ones the one with
the even last digit. Powers of ten from -4 to 15 are written positionally.
-/

namespace Abacus.Binary64

/-- `digits * 10 ^ exponent`. -/
structure Decimal where
  digits : Nat
  exponent : Int
deriving DecidableEq, Repr

/-- The power of ten of the first significant digit of `num / den`, which is not zero. -/
def leadingPower (num den : Nat) : Int :=
  let low := Int.fdiv (((num.log2 : Int) - den.log2 - 1) * 30103) 100000 - 1
  let reaches (p : Int) : Bool :=
    let (n, d) := scaled 10 num den p
    decide (d ≤ n)
  if reaches (low + 3) then low + 3
  else if reaches (low + 2) then low + 2
  else if reaches (low + 1) then low + 1
  else low

/-- The digit counts that are tried: seventeen digits tell all values apart. -/
def digitCounts : List Nat := (List.range 17).map (· + 1)

/-- The nearer of the two neighbours of `num / den` on the grid of decimals with `count` digits,
among those that read back as the value. -/
def readsBack? (significand : Nat) (exponent : Int) (power : Int) (count : Nat) : Option Decimal :=
  let (num, den) := quotient significand exponent
  let unit := power - count + 1
  let (n, d) := scaled 10 num den unit
  let floor := n / d
  let reads (k : Nat) : Bool :=
    (ofDecimal false k unit).same (.finite false significand exponent)
  let twice := 2 * (n % d)
  let above : Bool := decide (d < twice) || (decide (twice = d) && floor % 2 == 1)
  if reads floor && !(above && reads (floor + 1)) then some ⟨floor, unit⟩
  else if reads (floor + 1) then some ⟨floor + 1, unit⟩
  else none

/-- The shortest decimal that reads back as the value `significand * 2 ^ exponent`. -/
def shortest (significand : Nat) (exponent : Int) : Decimal :=
  if significand = 0 then ⟨0, 0⟩
  else
    let (num, den) := quotient significand exponent
    let power := leadingPower num den
    (digitCounts.findSome? (readsBack? significand exponent power)).getD ⟨0, 0⟩

/-- Zeros behind the last significant digit carry no information. -/
def dropTrailingZeros (ds : List Char) : List Char :=
  (ds.reverse.dropWhile (· == '0')).reverse

/-- The exponent with its sign and at least two digits. -/
def exponentText (e : Int) : List Char :=
  let ds := Nat.toDigits 10 e.natAbs
  (if e < 0 then '-' else '+') :: (if ds.length < 2 then '0' :: ds else ds)

/-- Decimal text of a number with significant digits `ds`, the first of which has the power of ten
`power`. -/
def layOut (ds : List Char) (power : Int) : List Char :=
  if -4 ≤ power ∧ power < 16 then
    if power < 0 then
      '0' :: '.' :: List.replicate (-power - 1).toNat '0' ++ ds
    else
      let point := power.toNat + 1
      let whole := ds.take point ++ List.replicate (point - ds.length) '0'
      let part := ds.drop point
      whole ++ '.' :: (if part.isEmpty then ['0'] else part)
  else
    ds.take 1 ++ (if ds.length ≤ 1 then [] else '.' :: ds.drop 1) ++ 'e' :: exponentText power

/-- The text of the value without its sign. -/
def magnitudeText (significand : Nat) (exponent : Int) : List Char :=
  let decimal := shortest significand exponent
  if decimal.digits = 0 then ['0', '.', '0']
  else
    let ds := Nat.toDigits 10 decimal.digits
    layOut (dropTrailingZeros ds) (decimal.exponent + ds.length - 1)

def text : Binary64 → String
  | .nan => "nan"
  | .infinity negative => if negative then "-inf" else "inf"
  | .finite negative m e =>
    String.ofList (if negative then '-' :: magnitudeText m e else magnitudeText m e)

/-- The value a numeral denotes, to the nearest. -/
def ofNumeral (n : Text.Numeral) : Binary64 :=
  ofDecimal n.negative n.significand n.power

/-- Reads a decimal with any sign and any digits before or behind the point, or the text of a value
that has no decimal. -/
def ofText? (s : String) : Option Binary64 :=
  if s = "nan" then some .nan
  else if s = "inf" then some (.infinity false)
  else if s = "-inf" then some (.infinity true)
  else
    let (negative, rest) := Text.Numeral.readSign s.toList
    let (whole, rest) := Text.Numeral.digits rest
    let (part, rest) :=
      match rest with
      | '.' :: rest => Text.Numeral.digits rest
      | _ => ([], rest)
    let (tens, rest) := Text.Numeral.readTens rest
    if rest.isEmpty && !(whole.isEmpty && part.isEmpty) then
      some (ofNumeral ⟨negative, whole, part, tens⟩)
    else none

end Abacus.Binary64
