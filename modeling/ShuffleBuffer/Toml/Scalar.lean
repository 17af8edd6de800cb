import ShuffleBuffer.Decimal.Numeral
import ShuffleBuffer.Toml.Text
import ShuffleBuffer.Toml.Value

/-! # Numbers, truth values, dates and times

All of them are one run of letters, digits and a few signs, save that a date and the time of day
may have a blank between. A run is read as a whole or not at all. -/

namespace ShuffleBuffer.Toml

open Decimal

/-- Characters of which numbers, truth values, dates and times consist. -/
def isWordChar (c : Char) : Bool := c.isAlphanum || ['_', '+', '-', '.', ':'].contains c

/-! ## Numbers -/

/-- A run of digits without its underscores, each of which must stand between two digits. -/
def ungroup (isDigit : Char → Bool) : List Char → Option (List Char)
  | [] => none
  | [c] => if isDigit c then some [c] else none
  | c :: '_' :: rest => if isDigit c then (ungroup isDigit rest).map (c :: ·) else none
  | c :: rest => if isDigit c then (ungroup isDigit rest).map (c :: ·) else none

/-- An integer of 64 bits. -/
def ofInteger? (n : Int) : Option Value :=
  if Int64.minValue.toInt ≤ n ∧ n ≤ Int64.maxValue.toInt then some (.integer n) else none

/-- An integer in a power-of-two base, read from behind the letter that names the base. -/
def basedInteger? (base : Nat) (digits : List Char) : Option Value := do
  let isDigit (c : Char) : Bool := (hexValue? c).any (· < base)
  let digits ← ungroup isDigit digits
  ofInteger? (digits.foldl (fun n c => base * n + ((hexValue? c).getD 0 : Nat)) (0 : Nat))

def isDigitOrUnderscore (c : Char) : Bool := c.isDigit || c == '_'

/-- What follows the point of a number, up to its exponent. -/
def fraction? : List Char → Option (List Char × List Char)
  | '.' :: rest =>
      let (digits, rest) := rest.span isDigitOrUnderscore
      (ungroup Char.isDigit digits).map (·, rest)
  | rest => some ([], rest)

/-- The exponent of a number, up to its end. -/
def exponent? : List Char → Option Int
  | [] => some 0
  | e :: rest =>
      if e = 'e' ∨ e = 'E' then do
        let (negative, digits) := Numeral.readSign rest
        let digits ← ungroup Char.isDigit digits
        let n : Int := digitsValue 0 digits
        some (if negative then -n else n)
      else none

/-- A decimal number. With a point or an exponent it is a binary floating-point number, which may
not overflow upwards. -/
def decimal? (word : List Char) : Option Value := do
  let (negative, body) := Numeral.readSign word
  let (whole, rest) := body.span isDigitOrUnderscore
  let whole ← ungroup Char.isDigit whole
  if whole.head? = some '0' ∧ whole ≠ ['0'] then none
  else if rest.isEmpty then
    let n : Int := digitsValue 0 whole
    ofInteger? (if negative then -n else n)
  else
    let (fraction, rest) ← fraction? rest
    let e ← exponent? rest
    let x := Numeral.toFloat ⟨negative, digitsValue 0 (whole ++ fraction), e - fraction.length⟩
    if x == positiveInfinity then none else some (.number x)

def number? (word : List Char) : Option Value :=
  match word with
  | '0' :: 'x' :: digits => basedInteger? 16 digits
  | '0' :: 'o' :: digits => basedInteger? 8 digits
  | '0' :: 'b' :: digits => basedInteger? 2 digits
  | _ =>
      let (negative, body) := Numeral.readSign word
      if body = ['i', 'n', 'f'] then
        some (.number (if negative then -positiveInfinity else positiveInfinity))
      else if body = ['n', 'a', 'n'] then some (.number notANumber)
      else decimal? word

/-! ## Dates and times -/

/-- The number that a few digits stand for. -/
def digits? (digits : List Char) : Option Nat :=
  if digits.all Char.isDigit then some (digitsValue 0 digits) else none

def isLeapYear (year : Nat) : Bool := year % 4 == 0 && (year % 100 != 0 || year % 400 == 0)

def daysIn (year month : Nat) : Nat :=
  if month = 2 then if isLeapYear year then 29 else 28
  else if month = 4 ∨ month = 6 ∨ month = 9 ∨ month = 11 then 30
  else 31

/-- The characters behind a date. -/
def afterDate : List Char → Option (List Char)
  | y1 :: y2 :: y3 :: y4 :: '-' :: m1 :: m2 :: '-' :: d1 :: d2 :: rest => do
      let year ← digits? [y1, y2, y3, y4]
      let month ← digits? [m1, m2]
      let day ← digits? [d1, d2]
      if 1 ≤ month ∧ month ≤ 12 ∧ 1 ≤ day ∧ day ≤ daysIn year month then some rest else none
  | _ => none

/-- The characters behind an hour and a minute. -/
def afterMinute : List Char → Option (List Char)
  | h1 :: h2 :: ':' :: m1 :: m2 :: rest => do
      let hour ← digits? [h1, h2]
      let minute ← digits? [m1, m2]
      if hour < 24 ∧ minute < 60 then some rest else none
  | _ => none

/-- The characters behind a time of day. There may be a leap second. -/
def afterTime (cs : List Char) : Option (List Char) := do
  match ← afterMinute cs with
  | ':' :: s1 :: s2 :: rest =>
      if 60 < (← digits? [s1, s2]) then none
      else
        match rest with
        | '.' :: fraction =>
            match fraction.span Char.isDigit with
            | ([], _) => none
            | (_, rest) => some rest
        | _ => some rest
  | _ => none

/-- A time of day, perhaps with its distance from universal time. -/
def isTimeOfDate (cs : List Char) : Bool :=
  match afterTime cs with
  | some [] | some ['Z'] | some ['z'] => true
  | some ('+' :: offset) | some ('-' :: offset) => afterMinute offset == some []
  | _ => false

/-! ## Words -/

/-- A number, a truth value, a date or a time. -/
def readWord : Reader Value := fun cs =>
  let (word, rest) := cs.span isWordChar
  if word = ['t', 'r', 'u', 'e'] then some (.boolean true, rest)
  else if word = ['f', 'a', 'l', 's', 'e'] then some (.boolean false, rest)
  else if afterTime word = some [] then some (.moment, rest)
  else
    match afterDate word with
    | some [] =>
        match rest with
        | ' ' :: more =>
            let (time, behind) := more.span isWordChar
            if time.isEmpty then some (.moment, rest)
            else if isTimeOfDate time then some (.moment, behind)
            else none
        | _ => some (.moment, rest)
    | some (t :: time) =>
        if (t = 'T' ∨ t = 't') ∧ isTimeOfDate time then some (.moment, rest) else none
    | none => (number? word).map (·, rest)

end ShuffleBuffer.Toml
