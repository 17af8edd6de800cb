/-! # Blanks, texts and keys of a configuration document

A reader takes something off the front of the characters and answers it with the characters behind
it, or nothing. Texts stand in double or single quotes; only the former know escapes. Three quotes
open a text over several lines: a line break right after them is dropped, every other one reads as
a line feed, and up to two quotes may stand right before the closing three. -/

namespace ShuffleBuffer.Toml

abbrev Reader (α : Type) := List Char → Option (α × List Char)

/-! ## Blanks and line ends -/

def isBlank (c : Char) : Bool := c == ' ' || c == '\t'

/-- Characters that may stand in comments and, their own marks apart, in texts: no controls but the
tab. -/
def isPlain (c : Char) : Bool := c == '\t' || (decide (0x20 ≤ c.toNat) && c.toNat != 0x7F)

def skipBlanks (cs : List Char) : List Char := cs.dropWhile isBlank

/-- The characters behind a line break. -/
def afterBreak : List Char → Option (List Char)
  | '\n' :: rest => some rest
  | '\r' :: '\n' :: rest => some rest
  | _ => none

/-- The characters behind a comment, if there is one. -/
def skipComment : List Char → List Char
  | '#' :: rest => rest.dropWhile isPlain
  | cs => cs

/-- The characters behind the end of a line on which nothing but a comment may follow. -/
def endLine (cs : List Char) : Option (List Char) :=
  match skipComment (skipBlanks cs) with
  | [] => some []
  | cs => afterBreak cs

/-- The characters behind blanks and line breaks. -/
def skipBlankLines : List Char → List Char
  | ' ' :: rest => skipBlankLines rest
  | '\t' :: rest => skipBlankLines rest
  | '\n' :: rest => skipBlankLines rest
  | '\r' :: '\n' :: rest => skipBlankLines rest
  | cs => cs

/-- The characters behind one given character. -/
def afterChar (c : Char) : List Char → Option (List Char)
  | d :: rest => if d = c then some rest else none
  | [] => none

/-! ## Texts -/

def hexValue? (c : Char) : Option Nat :=
  if c.isDigit then some (c.toNat - '0'.toNat)
  else if 'a' ≤ c ∧ c ≤ 'f' then some (c.toNat - 'a'.toNat + 10)
  else if 'A' ≤ c ∧ c ≤ 'F' then some (c.toNat - 'A'.toNat + 10)
  else none

/-- The character whose code point is written in `digits` hex digits. -/
def readCodePoint (digits : Nat) : Reader Char := fun cs =>
  let written := cs.take digits
  if written.length < digits then none
  else do
    let values ← written.mapM hexValue?
    let n := values.foldl (fun n d => 16 * n + d) 0
    if n.isValidChar then some (Char.ofNat n, cs.drop digits) else none

def simpleEscape? : Char → Option Char
  | 'b' => some '\x08'
  | 't' => some '\t'
  | 'n' => some '\n'
  | 'f' => some '\x0c'
  | 'r' => some '\r'
  | '"' => some '"'
  | '\\' => some '\\'
  | _ => none

/-- The character that an escape stands for, read from behind the backslash. -/
def readEscape : Reader Char
  | 'u' :: rest => readCodePoint 4 rest
  | 'U' :: rest => readCodePoint 8 rest
  | c :: rest => (simpleEscape? c).map (·, rest)
  | [] => none

/-- A text on one line, read from behind its opening mark; `read` holds what came before, the last
character first. -/
def readLine (mark : Char) (escapes : Bool) : Nat → List Char → Reader String
  | 0, _, _ => none
  | _ + 1, _, [] => none
  | steps + 1, read, c :: rest =>
      if c = mark then some (String.ofList read.reverse, rest)
      else if escapes ∧ c = '\\' then
        match readEscape rest with
        | some (c, rest) => readLine mark escapes steps (c :: read) rest
        | none => none
      else if isPlain c then readLine mark escapes steps (c :: read) rest
      else none

/-- A text over several lines, read from behind its opening marks. A backslash at the end of a line
drops the line break and all blanks and line breaks after it. -/
def readLines (mark : Char) (escapes : Bool) : Nat → List Char → Reader String
  | 0, _, _ => none
  | _ + 1, _, [] => none
  | steps + 1, read, c :: rest =>
      if c = mark then
        let marks := (rest.takeWhile (· == mark)).length + 1
        if marks < 3 then
          readLines mark escapes steps (List.replicate marks mark ++ read) ((c :: rest).drop marks)
        else
          let kept := min (marks - 3) 2
          let text := (List.replicate kept mark ++ read).reverse
          some (String.ofList text, (c :: rest).drop (kept + 3))
      else if escapes ∧ c = '\\' then
        match afterBreak (skipBlanks rest) with
        | some rest => readLines mark escapes steps read (skipBlankLines rest)
        | none =>
            match readEscape rest with
            | some (c, rest) => readLines mark escapes steps (c :: read) rest
            | none => none
      else
        match afterBreak (c :: rest) with
        | some rest => readLines mark escapes steps ('\n' :: read) rest
        | none => if isPlain c then readLines mark escapes steps (c :: read) rest else none

/-- A text on one line; none where no quote stands in front. -/
def readQuoted : Reader String
  | '"' :: rest => readLine '"' true (rest.length + 1) [] rest
  | '\'' :: rest => readLine '\'' false (rest.length + 1) [] rest
  | _ => none

/-- A text of either kind. -/
def readText : Reader String
  | '"' :: '"' :: '"' :: rest =>
      readLines '"' true (rest.length + 1) [] ((afterBreak rest).getD rest)
  | '\'' :: '\'' :: '\'' :: rest =>
      readLines '\'' false (rest.length + 1) [] ((afterBreak rest).getD rest)
  | cs => readQuoted cs

/-! ## Keys -/

def isBareKeyChar (c : Char) : Bool := c.isAlphanum || c == '_' || c == '-'

/-- One part of a key: bare, or quoted on one line. -/
def readKeyPart : Reader String := fun cs =>
  match cs.span isBareKeyChar with
  | ([], _) => readQuoted cs
  | (bare, rest) => some (String.ofList bare, rest)

/-- A dotted key of at most so many parts, blanks around each of them: the parts but the last, and
the last one. -/
def readKey : Nat → Reader (List String × String)
  | 0 => fun _ => none
  | parts + 1 => fun cs =>
      match readKeyPart (skipBlanks cs) with
      | none => none
      | some (part, rest) =>
          match skipBlanks rest with
          | '.' :: rest =>
              (readKey parts rest).map fun ((path, key), rest) => ((part :: path, key), rest)
          | rest => some (([], part), rest)

end ShuffleBuffer.Toml
