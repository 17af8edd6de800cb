/-! # Decimal numerals and the numbers they stand for

A numeral is a sign, a natural number and a power of ten. Its value is the nearest binary
floating-point number. Numerals whose magnitude lies beyond the range of those numbers are cut off
before any power of ten is computed. -/

namespace ShuffleBuffer.Decimal

structure Numeral where
  negative : Bool
  mantissa : Nat
  exponent : Int
  deriving DecidableEq

/-- The value of a run of decimal digits that follows a number. -/
def digitsValue (start : Nat) (digits : List Char) : Nat :=
  digits.foldl (fun n c => 10 * n + (c.toNat - '0'.toNat)) start

def positiveInfinity : Float := 1.0 / 0.0

def notANumber : Float := 0.0 / 0.0

/-- Magnitudes from `10 ^ hugeExponent` on are infinite, those below `10 ^ tinyExponent` zero. -/
def hugeExponent : Int := 310

def tinyExponent : Int := -330

namespace Numeral

/-- The magnitude of a numeral, rounded to the nearest number. -/
def magnitude (n : Numeral) : Float :=
  let digits : Int := (Nat.toDigits 10 n.mantissa).length
  if n.mantissa = 0 ∨ n.exponent + digits < tinyExponent then 0.0
  else if hugeExponent < n.exponent + digits then positiveInfinity
  else Float.ofScientific n.mantissa (decide (n.exponent < 0)) n.exponent.natAbs

def toFloat (n : Numeral) : Float := if n.negative then -n.magnitude else n.magnitude

/-- Reads an optional sign. -/
def readSign : List Char → Bool × List Char
  | '-' :: rest => (true, rest)
  | '+' :: rest => (false, rest)
  | rest => (false, rest)

/-- Reads the exponent part of a numeral up to its end. -/
def readExponent : List Char → Option Int
  | [] => some 0
  | e :: rest =>
      if e = 'e' ∨ e = 'E' then
        let (negative, digits) := readSign rest
        if digits.isEmpty ∨ ¬ digits.all Char.isDigit then none
        else
          let n : Int := digitsValue 0 digits
          some (if negative then -n else n)
      else none

/-- Reads a whole numeral: sign, digits, perhaps a point and more digits, perhaps an exponent. -/
def ofChars? (text : List Char) : Option Numeral :=
  let (negative, text) := readSign text
  let (whole, text) := text.span Char.isDigit
  let (fraction, text) := match text with
    | '.' :: rest => rest.span Char.isDigit
    | _ => ([], text)
  if whole.isEmpty ∧ fraction.isEmpty then none
  else (readExponent text).map fun e =>
    ⟨negative, digitsValue 0 (whole ++ fraction), e - fraction.length⟩

end Numeral

end ShuffleBuffer.Decimal
