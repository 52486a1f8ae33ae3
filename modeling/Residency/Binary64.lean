/-!
Non-negative binary floating-point numbers of 53 significant bits.

A number is held exactly, as a significand and a power of two. Every operation is the exact result
rounded once to the nearest number, a half going to the even significand. The exponent has no
bounds here; `isFinite` says whether the double-precision format can hold a number, and none that
this library computes comes near the subnormal range.
-/

namespace Residency

/-- The number `significand * 2 ^ exponent`. -/
structure Binary64 where
  significand : Nat
  exponent : Int
deriving DecidableEq, Repr

namespace Binary64

/-- The quotient rounded to the nearest natural number, a half going to the even one. -/
def roundDiv (num den : Nat) : Nat :=
  let quotient := num / den
  let remainder := num % den
  if 2 * remainder < den then
    quotient
  else if den < 2 * remainder then
    quotient + 1
  else
    quotient + quotient % 2

/-- The numerator and denominator of `num / den / 2 ^ exponent`. -/
def unscale (num den : Nat) (exponent : Int) : Nat × Nat :=
  (num <<< (-exponent).toNat, den <<< exponent.toNat)

/-- The power of two that leaves `num / den` an integer part of 53 bits. -/
def leadExponent (num den : Nat) : Int :=
  let low : Int := (num.log2 : Int) - den.log2 - 53
  let (n, d) := unscale num den low
  if n / d < (1 <<< 53) then low else low + 1

/-- The number nearest to `num / den`. -/
def ofRatio (num den : Nat) : Binary64 :=
  if num = 0 then
    ⟨0, 0⟩
  else
    let exponent := leadExponent num den
    let (n, d) := unscale num den exponent
    let significand := roundDiv n d
    if significand = (1 <<< 53) then ⟨1 <<< 52, exponent + 1⟩ else ⟨significand, exponent⟩

/-- The number nearest to a natural number. -/
def ofNat (n : Nat) : Binary64 :=
  ofRatio n 1

/-- The rounded product. -/
def mul (a b : Binary64) : Binary64 :=
  let exponent := a.exponent + b.exponent
  ofRatio ((a.significand * b.significand) <<< exponent.toNat) (1 <<< (-exponent).toNat)

/-- The rounded quotient. -/
def div (a b : Binary64) : Binary64 :=
  let exponent := a.exponent - b.exponent
  ofRatio (a.significand <<< exponent.toNat) (b.significand <<< (-exponent).toNat)

/-- Exact comparison of two numbers, by bringing them to the smaller exponent. -/
def Less (a b : Binary64) : Prop :=
  let low := min a.exponent b.exponent
  a.significand <<< (a.exponent - low).toNat <
    b.significand <<< (b.exponent - low).toNat

instance : LT Binary64 := ⟨Less⟩

instance (a b : Binary64) : Decidable (a < b) :=
  inferInstanceAs (Decidable (_ < (_ : Nat)))

/-- Whether the number lies below the end of the double-precision range, `2 ^ 1024`. -/
def isFinite (x : Binary64) : Bool :=
  x.significand == 0 || x.exponent < 972

/-- The double-precision bit pattern of a normal number or zero. -/
def toBits (x : Binary64) : Nat :=
  if x.significand = 0 then
    0
  else
    ((x.exponent + 1075).toNat <<< 52) + (x.significand - (1 <<< 52))

/-- The exact value to a fixed number of decimal places, a half going to the even digit. -/
def toFixed (places : Nat) (x : Binary64) : String :=
  let scale := Nat.pow 10 places
  let units := roundDiv ((x.significand * scale) <<< x.exponent.toNat)
    (1 <<< (-x.exponent).toNat)
  let fraction := toString (units % scale)
  toString (units / scale) ++ "."
    ++ String.ofList (List.replicate (places - fraction.length) '0') ++ fraction

end Binary64

end Residency
