import ShuffleBuffer.Bytes

/-! # Reading JSON

A reader takes one value of a known type off the front of the bytes and answers it together with
the bytes behind it, or nothing where the bytes do not start with such a value. Before a value and
around punctuation there may be blanks. The grammar is strict: no leading zeros or plus signs, no
control characters in texts, no comma before a closing bracket, and escaped surrogates only in
pairs. A value that is skipped must follow the grammar too, but what its texts mean does not
matter, and it may be nested to any depth. -/

namespace ShuffleBuffer.Json

abbrev Reader (α : Type) := Bytes → Option (α × Bytes)

/-! ## Bytes of the grammar -/

@[match_pattern] abbrev quotationMark : UInt8 := 34
@[match_pattern] abbrev comma : UInt8 := 44
@[match_pattern] abbrev minusSign : UInt8 := 45
@[match_pattern] abbrev point : UInt8 := 46
@[match_pattern] abbrev zero : UInt8 := 48
@[match_pattern] abbrev colon : UInt8 := 58
@[match_pattern] abbrev openBracket : UInt8 := 91
@[match_pattern] abbrev backslash : UInt8 := 92
@[match_pattern] abbrev closeBracket : UInt8 := 93
@[match_pattern] abbrev letterU : UInt8 := 117
@[match_pattern] abbrev openBrace : UInt8 := 123
@[match_pattern] abbrev closeBrace : UInt8 := 125

def isBlank (b : UInt8) : Bool := b == 32 || b == 9 || b == 10 || b == 13

def isDigit (b : UInt8) : Bool := decide (48 ≤ b ∧ b ≤ 57)

/-- `e` or `E`. -/
def isExponentMark (b : UInt8) : Bool := b == 101 || b == 69

def skipBlanks (bs : Bytes) : Bytes := bs.dropWhile isBlank

/-- The bytes behind a given word. -/
def after (word : Bytes) (bs : Bytes) : Option Bytes :=
  if bs.take word.length = word then some (bs.drop word.length) else none

/-- The bytes behind blanks and one given byte. -/
def afterByte (b : UInt8) (bs : Bytes) : Option Bytes :=
  match skipBlanks bs with
  | x :: rest => if x = b then some rest else none
  | [] => none

/-! ## Numbers -/

def digitsValue (digits : Bytes) : Nat := digits.foldl (fun n d => 10 * n + (d.toNat - 48)) 0

/-- A number without fraction and exponent. Zero has no sign and no digits behind it. -/
def readInteger : Reader Int := fun bs =>
  let (negative, bs) := match bs with
    | minusSign :: rest => (true, rest)
    | rest => (false, rest)
  let (digits, rest) := bs.span isDigit
  let goesOn := match rest with
    | b :: _ => b == point || isExponentMark b
    | [] => false
  match digits with
  | [] => none
  | first :: more =>
      if goesOn ∨ first = zero ∧ (negative ∨ ¬ more.isEmpty) then none
      else
        let n : Int := digitsValue digits
        some (if negative then -n else n, rest)

/-- An integer in a range. -/
def readWithin (low high : Int) : Reader Int := fun bs => do
  let (n, rest) ← readInteger (skipBlanks bs)
  if low ≤ n ∧ n ≤ high then some (n, rest) else none

/-! ## Texts -/

def hexValue? (b : UInt8) : Option Nat :=
  if isDigit b then some (b.toNat - 48)
  else if 97 ≤ b ∧ b ≤ 102 then some (b.toNat - 87)
  else if 65 ≤ b ∧ b ≤ 70 then some (b.toNat - 55)
  else none

/-- The number that four hex digits stand for. -/
def hexUnit? (a b c d : UInt8) : Option Nat := do
  let a ← hexValue? a
  let b ← hexValue? b
  let c ← hexValue? c
  let d ← hexValue? d
  some (((a * 16 + b) * 16 + c) * 16 + d)

/-- The character of a one-letter escape. -/
def simpleEscape? (b : UInt8) : Option UInt8 :=
  match b with
  | 34 => some 34
  | 92 => some 92
  | 47 => some 47
  | 98 => some 8
  | 102 => some 12
  | 110 => some 10
  | 114 => some 13
  | 116 => some 9
  | _ => none

def isHighSurrogate (n : Nat) : Bool := decide (0xD800 ≤ n ∧ n ≤ 0xDBFF)

def isLowSurrogate (n : Nat) : Bool := decide (0xDC00 ≤ n ∧ n ≤ 0xDFFF)

/-- The UTF-8 bytes of a code point. -/
def utf8Of (n : Nat) : Bytes := utf8 (Char.ofNat n).toString

/-- The bytes of a text up to its closing mark, escapes resolved; `read` holds the bytes so far, the
last one first. -/
def readTextBody (read : Bytes) : Reader Bytes
  | [] => none
  | quotationMark :: rest => some (read.reverse, rest)
  | backslash :: letterU :: a :: b :: c :: d :: rest =>
      match hexUnit? a b c d with
      | none => none
      | some unit =>
          if isLowSurrogate unit then none
          else if isHighSurrogate unit then
            match rest with
            | backslash :: letterU :: e :: f :: g :: h :: rest =>
                match hexUnit? e f g h with
                | none => none
                | some low =>
                    if isLowSurrogate low then
                      let point := 0x10000 + (unit - 0xD800) * 0x400 + (low - 0xDC00)
                      readTextBody ((utf8Of point).reverse ++ read) rest
                    else none
            | _ => none
          else readTextBody ((utf8Of unit).reverse ++ read) rest
  | backslash :: b :: rest =>
      match simpleEscape? b with
      | some c => readTextBody (c :: read) rest
      | none => none
  | b :: rest => if b < 32 ∨ b = backslash then none else readTextBody (b :: read) rest

/-- A text in quotation marks; its bytes must be UTF-8. -/
def readText : Reader String := fun bs => do
  let rest ← afterByte quotationMark bs
  let (bytes, rest) ← readTextBody [] rest
  let s ← ofUtf8? bytes
  some (s, rest)

def readChar : Reader Char := fun bs => do
  let (s, rest) ← readText bs
  match s.toList with
  | [c] => some (c, rest)
  | _ => none

def readBool : Reader Bool := fun bs =>
  let bs := skipBlanks bs
  match after (utf8 "true") bs with
  | some rest => some (true, rest)
  | none => (after (utf8 "false") bs).map (false, ·)

/-- `null`, or a value. -/
def readOptional (read : Reader α) : Reader (Option α) := fun bs =>
  match after (utf8 "null") (skipBlanks bs) with
  | some rest => some (none, rest)
  | none => (read bs).map fun (x, rest) => (some x, rest)

/-! ## Skipped values -/

/-- The bytes behind a text's closing mark. -/
def skipTextBody : Bytes → Option Bytes
  | [] => none
  | quotationMark :: rest => some rest
  | backslash :: letterU :: a :: b :: c :: d :: rest =>
      if (hexUnit? a b c d).isSome then skipTextBody rest else none
  | backslash :: b :: rest => if (simpleEscape? b).isSome then skipTextBody rest else none
  | b :: rest => if b < 32 ∨ b = backslash then none else skipTextBody rest

/-- The bytes behind at least one digit. -/
def skipDigits (bs : Bytes) : Option Bytes :=
  match bs with
  | d :: rest => if isDigit d then some (rest.dropWhile isDigit) else none
  | [] => none

/-- The bytes behind a number without its sign. -/
def skipNumber (bs : Bytes) : Option Bytes := do
  let rest ← match bs with
    | zero :: rest => if rest.head?.any isDigit then none else some rest
    | _ => skipDigits bs
  let rest ← match rest with
    | point :: fraction => skipDigits fraction
    | _ => some rest
  match rest with
  | b :: exponent =>
      if isExponentMark b then
        match exponent with
        | s :: digits => if s = 43 ∨ s = minusSign then skipDigits digits else skipDigits exponent
        | [] => none
      else some rest
  | [] => some rest

/-- The bytes behind a value that holds no others. -/
def skipScalar (bs : Bytes) : Option Bytes :=
  match bs with
  | quotationMark :: rest => skipTextBody rest
  | minusSign :: rest => skipNumber rest
  | b :: _ =>
      if isDigit b then skipNumber bs
      else (after (utf8 "true") bs).or ((after (utf8 "false") bs).or (after (utf8 "null") bs))
  | [] => none

/-- The bytes behind a member's name and its colon. -/
def skipName (bs : Bytes) : Option Bytes := do
  let rest ← afterByte quotationMark bs
  let rest ← skipTextBody rest
  afterByte colon rest

inductive Bracket where
  | array
  | object
  deriving DecidableEq

/-- Where a skip stands: before a value, or behind one. -/
inductive Place where
  | before
  | behind
  deriving DecidableEq

/-- The bytes behind a value and behind everything that the open brackets still ask for. Every two
steps take at least one byte, which bounds the steps. -/
def skipWithin : Nat → Place → List Bracket → Bytes → Option Bytes
  | 0, _, _, _ => none
  | steps + 1, .before, brackets, bs =>
      match skipBlanks bs with
      | openBracket :: rest =>
          match afterByte closeBracket rest with
          | some rest => skipWithin steps .behind brackets rest
          | none => skipWithin steps .before (.array :: brackets) rest
      | openBrace :: rest =>
          match afterByte closeBrace rest with
          | some rest => skipWithin steps .behind brackets rest
          | none =>
              match skipName rest with
              | some rest => skipWithin steps .before (.object :: brackets) rest
              | none => none
      | bs =>
          match skipScalar bs with
          | some rest => skipWithin steps .behind brackets rest
          | none => none
  | _ + 1, .behind, [], bs => some bs
  | steps + 1, .behind, .array :: brackets, bs =>
      match skipBlanks bs with
      | comma :: rest => skipWithin steps .before (.array :: brackets) rest
      | closeBracket :: rest => skipWithin steps .behind brackets rest
      | _ => none
  | steps + 1, .behind, .object :: brackets, bs =>
      match skipBlanks bs with
      | comma :: rest =>
          match skipName rest with
          | some rest => skipWithin steps .before (.object :: brackets) rest
          | none => none
      | closeBrace :: rest => skipWithin steps .behind brackets rest
      | _ => none

/-- The bytes behind any one value. -/
def skipValue (bs : Bytes) : Option Bytes := skipWithin (2 * bs.length + 2) .before [] bs

/-! ## Arrays and objects -/

/-- The items of an array from the next one on, up to the closing bracket. -/
def readItems (read : Reader α) : Nat → List α → Reader (List α)
  | 0, _, _ => none
  | steps + 1, items, bs =>
      match read bs with
      | none => none
      | some (x, rest) =>
          match skipBlanks rest with
          | comma :: rest => readItems read steps (x :: items) rest
          | closeBracket :: rest => some ((x :: items).reverse, rest)
          | _ => none

def readArray (read : Reader α) : Reader (List α) := fun bs => do
  let rest ← afterByte openBracket bs
  match afterByte closeBracket rest with
  | some rest => some ([], rest)
  | none => readItems read rest.length [] rest

/-- An array of exactly two values. -/
def readPair (first : Reader α) (second : Reader β) : Reader (α × β) := fun bs => do
  let rest ← afterByte openBracket bs
  let (a, rest) ← first rest
  let rest ← afterByte comma rest
  let (b, rest) ← second rest
  let rest ← afterByte closeBracket rest
  some ((a, b), rest)

/-- The members of an object from the next one on, up to the closing brace; `member` reads the
value behind a name. -/
def readMembers (member : String → σ → Reader σ) : Nat → σ → Reader σ
  | 0, _, _ => none
  | steps + 1, s, bs =>
      match readText bs with
      | none => none
      | some (name, rest) =>
          match afterByte colon rest with
          | none => none
          | some rest =>
              match member name s rest with
              | none => none
              | some (s, rest) =>
                  match skipBlanks rest with
                  | comma :: rest => readMembers member steps s rest
                  | closeBrace :: rest => some (s, rest)
                  | _ => none

def readObject (member : String → σ → Reader σ) (s : σ) : Reader σ := fun bs => do
  let rest ← afterByte openBrace bs
  match afterByte closeBrace rest with
  | some rest => some (s, rest)
  | none => readMembers member rest.length s rest

/-- A member that may stand there once: its value goes where none is yet. -/
def readOnce (read : Reader α) (known : Option α) : Reader (Option α) := fun bs =>
  match known with
  | some _ => none
  | none => (read bs).map fun (x, rest) => (some x, rest)

/-- The one value that the bytes consist of. -/
def readAll (read : Reader α) (bs : Bytes) : Option α := do
  let (x, rest) ← read bs
  if (skipBlanks rest).isEmpty then some x else none

end ShuffleBuffer.Json
