/-!
# Decimal numbers and their range

A decimal number is kept as a significand of 64 bits and a power of ten.  Digits that do not fit
the significand are counted and not kept.  The number is in range if it has a finite 64-bit float:
its significand and its power are rounded to 53 bits, and then their product.
-/

namespace MacroExpansion.Json

/-- Follows decimal digits after `value` for as long as the value stays below `bound`: the value
of the digits that fit, and the digits from the first one that does not. -/
def gather (bound : Nat) : (value : Nat) → List Char → Nat × List Char
  | value, [] => (value, [])
  | value, c :: cs =>
    let next := value * 10 + (c.toNat - '0'.toNat)
    if next < bound then gather bound next cs else (value, c :: cs)

/-- Rounds a number to 53 significant bits; a tie goes to the even neighbour. -/
def roundToFloat (n : Nat) : Nat :=
  let unit := Nat.pow 2 (n.log2 + 1 - 53)
  let quotient := n / unit
  let excess := 2 * (n % unit)
  if unit < excess ∨ (unit = excess ∧ quotient % 2 = 1) then (quotient + 1) * unit
  else quotient * unit

/-- The number `significand * 10 ^ exponent`. -/
structure Decimal where
  significand : Nat
  exponent : Int
  deriving DecidableEq, Repr

namespace Decimal

/-- The number with some digits before the point and some after it. -/
def ofDigits (whole places : List Char) : Decimal :=
  let (significand, cut) := gather UInt64.size 0 whole
  let (significand, unread) := gather UInt64.size significand places
  ⟨significand, (cut.length : Int) - (places.length - unread.length : Nat)⟩

/-- The number times a power of ten. -/
def shift (d : Decimal) (power : Int) : Decimal := ⟨d.significand, d.exponent + power⟩

/-- The greatest power of ten that is a finite 64-bit float. -/
def maxPower : Nat := 308

/-- Whether the number is a finite 64-bit float when it is rounded. -/
def isFinite (d : Decimal) : Bool :=
  d.significand == 0 || d.exponent < 0
    || (d.exponent.toNat ≤ maxPower
      && roundToFloat (roundToFloat d.significand * roundToFloat (Nat.pow 10 d.exponent.toNat))
        < Nat.pow 2 1024)

end Decimal

end MacroExpansion.Json
