import Residency.Binary64
import Residency.Document.Reader

/-!
Numbers as a document writes them: a sign, digits without a leading zero, a fraction, an exponent.

`numeral` reads the written form only. What a form stands for is asked afterwards: whether it is a
natural number of 64 bits, and whether the double that approximates it is finite. As in
`serde_json`, a number of a declared field beyond the double range is a flaw of the text, whatever
kind of value the field holds.
-/

namespace Residency.Document

/-- The written form of a number. -/
structure Numeral where
  negative : Bool
  whole : List Char
  /-- Empty if no fraction is written. -/
  fraction : List Char
  exponent : Option Int
deriving DecidableEq, Repr

/-- Digits, at least one. -/
def someDigits : Reader (List Char)
  | [] => .error .truncated
  | c :: rest =>
    if c.isDigit then
      .ok (c :: rest.takeWhile Char.isDigit, rest.dropWhile Char.isDigit)
    else
      .error .malformed

/-- The digits in front of the point. No digit may follow a leading zero. -/
def wholeDigits : Reader (List Char) := fun cs => do
  let (digits, rest) ← someDigits cs
  if digits.head? = some '0' ∧ digits ≠ ['0'] then
    throw .malformed
  else
    return (digits, rest)

/-- The number that digits write. -/
def digitsValue (digits : List Char) : Nat :=
  digits.foldl (fun n d => n * 10 + (d.toNat - '0'.toNat)) 0

/-- The digits behind a point, if there is one. -/
def fractionPart : Reader (List Char)
  | '.' :: rest => someDigits rest
  | cs => .ok ([], cs)

/-- The sign that may stand in front of the digits of an exponent. -/
def exponentSign : List Char → Int × List Char
  | '-' :: rest => (-1, rest)
  | '+' :: rest => (1, rest)
  | cs => (1, cs)

/-- The exponent, if there is one. -/
def exponentPart : Reader (Option Int)
  | [] => .ok (none, [])
  | c :: rest =>
    if c = 'e' ∨ c = 'E' then do
      let (sign, rest) := exponentSign rest
      let (digits, rest) ← someDigits rest
      return (some (sign * digitsValue digits), rest)
    else
      .ok (none, c :: rest)

/-- The written form of a number behind its sign. -/
def unsignedNumeral (negative : Bool) : Reader Numeral := fun cs => do
  let (whole, rest) ← wholeDigits cs
  let (fraction, rest) ← fractionPart rest
  let (exponent, rest) ← exponentPart rest
  return (⟨negative, whole, fraction, exponent⟩, rest)

/-- The written form of a number. -/
def numeral : Reader Numeral
  | '-' :: rest => unsignedNumeral true rest
  | cs => unsignedNumeral false cs

/-- Takes digits into a 64-bit significand up to the first that does not fit, and answers the
significand with the digits that were left. -/
def absorb (significand : Nat) : List Char → Nat × List Char
  | [] => (significand, [])
  | d :: rest =>
    let next := significand * 10 + (d.toNat - '0'.toNat)
    if next < UInt64.size then absorb next rest else (significand, d :: rest)

namespace Numeral

/-- The natural number of at most 64 bits that a form writes, if it is written as one. -/
def natural? (n : Numeral) : Option Nat :=
  if n.negative ∨ n.fraction ≠ [] ∨ n.exponent ≠ none ∨ UInt64.size ≤ digitsValue n.whole then
    none
  else
    some (digitsValue n.whole)

/-- The significand of at most 64 bits and the power of ten by which a number is approximated:
digits that do not fit are dropped, and each one dropped in front of the point raises the power. -/
def approximation (n : Numeral) : Nat × Int :=
  let (significand, droppedWhole) := absorb 0 n.whole
  let (significand, droppedFraction) := absorb significand n.fraction
  (significand,
    droppedWhole.length - (n.fraction.length - droppedFraction.length) + n.exponent.getD 0)

/-- Whether the double that approximates the number is finite. Small numbers round towards zero
and are never out of range. -/
def isFinite (n : Numeral) : Bool :=
  let (significand, power) := n.approximation
  significand == 0 || power < 0 ||
    (power ≤ 308 &&
      ((Binary64.ofNat significand).mul (Binary64.ofNat (Nat.pow 10 power.toNat))).isFinite)

end Numeral

/-- A number in the double range. -/
def finiteNumeral : Reader Numeral := fun cs => do
  let (n, rest) ← numeral cs
  if n.isFinite then
    return (n, rest)
  else
    throw .malformed

end Residency.Document
