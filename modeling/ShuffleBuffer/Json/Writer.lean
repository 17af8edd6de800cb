import ShuffleBuffer.Bytes

/-! # Writing JSON

Values are written without any blanks. In a text, quotation marks, backslashes and control
characters are escaped, the control characters with a letter where there is one and with four hex
digits otherwise; everything else is written as its UTF-8 bytes. -/

namespace ShuffleBuffer.Json

def hexDigit (n : Nat) : Char := if n < 10 then Char.ofNat (48 + n) else Char.ofNat (87 + n)

/-- One character inside quotation marks. -/
def escaped (c : Char) : String :=
  if c = '"' then "\\\""
  else if c = '\\' then "\\\\"
  else if c = '\x08' then "\\b"
  else if c = '\t' then "\\t"
  else if c = '\n' then "\\n"
  else if c = '\x0c' then "\\f"
  else if c = '\r' then "\\r"
  else if c.toNat < 32 then
    String.ofList ['\\', 'u', '0', '0', hexDigit (c.toNat / 16), hexDigit (c.toNat % 16)]
  else c.toString

def writeText (s : String) : Bytes :=
  utf8 "\"" ++ s.toList.flatMap (fun c => utf8 (escaped c)) ++ utf8 "\""

def writeNat (n : Nat) : Bytes := utf8 (String.ofList (Nat.toDigits 10 n))

def writeInt (n : Int) : Bytes := if n < 0 then utf8 "-" ++ writeNat n.natAbs else writeNat n.natAbs

def writeBool (b : Bool) : Bytes := utf8 (if b then "true" else "false")

def writeNull : Bytes := utf8 "null"

def writeArray (items : List Bytes) : Bytes :=
  utf8 "[" ++ (items.intersperse (utf8 ",")).flatten ++ utf8 "]"

def writeObject (members : List (String × Bytes)) : Bytes :=
  let written := members.map fun (name, value) => writeText name ++ utf8 ":" ++ value
  utf8 "\x7b" ++ (written.intersperse (utf8 ",")).flatten ++ utf8 "\x7d"

/-- Keys of a JSON object are texts, so a map can be written only if all its keys have one. -/
def writeMap? (keyText : κ → Option String) (entries : List (κ × Bytes)) : Option Bytes :=
  (entries.mapM fun entry => (keyText entry.1).map (·, entry.2)).map writeObject

end ShuffleBuffer.Json
