/-! # The shortest decimal text of a number

A finite number is an integer times a power of two, and the reals that round to it are an
interval around it. Its shortest decimal is found on the coarsest grid of multiples of a power of
ten that has a point in that interval: the point nearest to the number, the upper one of two
equally near. All of this is exact integer arithmetic. -/

namespace ShuffleBuffer.Decimal

/-- A positive finite number: `mantissa * 2 ^ exponent`. At the lowest mantissa of a power of two
the numbers below lie half as far apart. -/
structure Binary where
  mantissa : Nat
  exponent : Int
  atPowerOfTwo : Bool
  deriving DecidableEq

inductive Magnitude where
  | zero
  | finite (value : Binary)
  | infinite
  | undefined
  deriving DecidableEq

/-- The sign and the magnitude behind the 64 bits of a number. -/
def ofBits (bits : UInt64) : Bool × Magnitude :=
  let negative := decide (bits >>> 63 = 1)
  let biased := ((bits >>> 52) &&& 0x7FF).toNat
  let fraction := (bits &&& 0xFFFFFFFFFFFFF).toNat
  if biased = 0x7FF then (negative, if fraction = 0 then .infinite else .undefined)
  else if biased = 0 then
    (negative, if fraction = 0 then .zero else .finite ⟨fraction, -1074, false⟩)
  else
    (negative, .finite ⟨0x10000000000000 + fraction, biased - 1075, decide (fraction = 0 ∧ 1 < biased)⟩)

/-- A natural number of units of a power of ten. -/
structure Digits where
  number : Nat
  exponent : Int
  deriving DecidableEq

/-- The numbers on the grid of multiples of `10 ^ e` next to `b`, if one rounds to `b`: the nearer
one. Everything is counted in units of a quarter of the last binary place, and a grid step is
`step` units after both are scaled to integers. -/
def gridPoint? (b : Binary) (e : Int) : Option Nat :=
  let q := b.exponent - 2
  let scale := Nat.pow 2 q.toNat * Nat.pow 10 (-e).toNat
  let step := Nat.pow 10 e.toNat * Nat.pow 2 (-q).toNat
  let value := 4 * b.mantissa * scale
  let low := (if b.atPowerOfTwo then 4 * b.mantissa - 1 else 4 * b.mantissa - 2) * scale
  let high := (4 * b.mantissa + 2) * scale
  let rounds (k : Nat) : Bool :=
    if b.mantissa % 2 = 0 then decide (low ≤ k * step ∧ k * step ≤ high)
    else decide (low < k * step ∧ k * step < high)
  let k := value / step
  match rounds k, rounds (k + 1) with
  | true, true => some (if value - k * step < (k + 1) * step - value then k else k + 1)
  | true, false => some k
  | false, true => some (k + 1)
  | false, false => none

/-- The first grid with a point that rounds to `b`, from `10 ^ e` downwards. -/
def coarsest (b : Binary) : Nat → Int → Digits
  | 0, e => ⟨0, e⟩
  | tries + 1, e =>
      match gridPoint? b e with
      | some k => ⟨k, e⟩
      | none => coarsest b tries (e - 1)

/-- The coarsest grid that can have a point for a finite number. -/
def topExponent : Int := 309

/-- Down to this many grids finer than the top one, some grid has a point for every number. -/
def gridCount : Nat := 700

def shortest (b : Binary) : Digits := coarsest b gridCount topExponent

/-- Digits without an exponent: zeros are filled in on either side as needed, and there is a point
only where digits follow it. -/
def Digits.positional (d : Digits) : String :=
  let digits := Nat.toDigits 10 d.number
  let places := (-d.exponent).toNat
  if places = 0 then String.ofList (digits ++ List.replicate d.exponent.toNat '0')
  else
    let padded := List.replicate (places + 1 - digits.length) '0' ++ digits
    let cut := padded.length - places
    String.ofList (padded.take cut ++ '.' :: padded.drop cut)

/-- The shortest text that reads back as the number, written without an exponent. -/
def positional (x : Float) : String :=
  match ofBits x.toBits with
  | (_, .undefined) => "NaN"
  | (negative, magnitude) =>
      let body := match magnitude with
        | .zero => "0"
        | .finite b => (shortest b).positional
        | _ => "inf"
      if negative then "-" ++ body else body

end ShuffleBuffer.Decimal
