import ShuffleBuffer.Toml.Scalar
import ShuffleBuffer.Toml.Text
import ShuffleBuffer.Toml.Value

/-! # Reading a configuration document

A document is a run of lines. A line sets a value under a key, opens a table by a header in
brackets, adds a table under a repeated header in double brackets, or holds no more than a comment.
Arrays may run over several lines and end in a comma; tables in braces may do neither. -/

namespace ShuffleBuffer.Toml

/-- Arrays and tables in braces may be nested this deep, and a key may have this many parts. -/
def depthLimit : Nat := 79

/-! ## Values -/

/-- The characters behind blanks, line breaks and comments. -/
def skipLines : Nat → List Char → List Char
  | 0, cs => cs
  | steps + 1, cs =>
      match skipComment (skipBlankLines cs) with
      | '\n' :: rest => skipLines steps rest
      | '\r' :: '\n' :: rest => skipLines steps rest
      | rest => rest

/-- The items of an array from the next one on, up to the closing bracket. -/
def readItems (read : Reader Value) : Nat → List Value → Reader (List Value)
  | 0, _, _ => none
  | steps + 1, items, cs =>
      match skipLines cs.length cs with
      | ']' :: rest => some (items.reverse, rest)
      | cs =>
          match read cs with
          | none => none
          | some (item, rest) =>
              match skipLines rest.length rest with
              | ',' :: rest => readItems read steps (item :: items) rest
              | ']' :: rest => some ((item :: items).reverse, rest)
              | _ => none

/-- A key, an equals sign and a value. -/
def readSetting (read : Reader Value) : Reader ((List String × String) × Value) := fun cs => do
  let (key, rest) ← readKey depthLimit cs
  let rest ← afterChar '=' rest
  let (value, rest) ← read (skipBlanks rest)
  some ((key, value), rest)

/-- The entries of a table in braces from the next one on, up to the closing brace. -/
def readEntries (read : Reader Value) : Nat → Entries → Reader Entries
  | 0, _, _ => none
  | steps + 1, entries, cs =>
      match readSetting read cs with
      | none => none
      | some (((path, key), value), rest) =>
          match entries.insert .inline path key value with
          | none => none
          | some entries =>
              match skipBlanks rest with
              | ',' :: rest => readEntries read steps entries rest
              | '}' :: rest => some (entries, rest)
              | _ => none

/-- A value that holds no others. -/
def readScalar : Reader Value := fun cs =>
  match readText cs with
  | some (s, rest) => some (.text s, rest)
  | none => readWord cs

/-- A value in which arrays and tables are nested at most so deep. -/
def readValue : Nat → Reader Value
  | depth + 1, '[' :: rest =>
      (readItems (readValue depth) (rest.length + 1) [] rest).map fun (items, rest) =>
        (.array items, rest)
  | depth + 1, '{' :: rest =>
      match skipBlanks rest with
      | '}' :: rest => some (.table .inline [], rest)
      | rest =>
          (readEntries (readValue depth) (rest.length + 1) [] rest).map fun (entries, rest) =>
            (.table .inline entries, rest)
  | _, cs => readScalar cs

/-! ## Lines -/

/-- What the lines so far amount to: the tables, and the path of the one that is open. -/
structure Draft where
  root : Entries := []
  path : List String := []

namespace Draft

/-- Sets a value in the open table. -/
def set (d : Draft) (path : List String) (key : String) (value : Value) : Option Draft := do
  let root ← d.root.alter false (fun origin t => t.insert origin path key value) d.path .header
  some { d with root }

def openTable (d : Draft) (path : List String) (key : String) : Option Draft := do
  some ⟨← d.root.openTable path key, path ++ [key]⟩

def openRow (d : Draft) (path : List String) (key : String) : Option Draft := do
  some ⟨← d.root.openRow path key, path ++ [key]⟩

end Draft

/-- One line that is neither blank nor a comment. -/
def readStatement (d : Draft) : Reader Draft := fun cs =>
  match cs with
  | '[' :: '[' :: rest => do
      let ((path, key), rest) ← readKey depthLimit rest
      let rest ← afterChar ']' rest
      let rest ← afterChar ']' rest
      some (← d.openRow path key, rest)
  | '[' :: rest => do
      let ((path, key), rest) ← readKey depthLimit rest
      let rest ← afterChar ']' rest
      some (← d.openTable path key, rest)
  | _ => do
      let (((path, key), value), rest) ← readSetting (readValue depthLimit) cs
      some (← d.set path key value, rest)

/-- All lines from here on. -/
def readStatements : Nat → Draft → List Char → Option Entries
  | 0, _, _ => none
  | steps + 1, d, cs =>
      match endLine cs with
      | some [] => some d.root
      | some rest => readStatements steps d rest
      | none =>
          match readStatement d (skipBlanks cs) with
          | none => none
          | some (d, rest) =>
              match endLine rest with
              | some rest => readStatements steps d rest
              | none => none

/-- The tables of a document. A byte order mark in front of it is skipped. -/
def parse? (document : String) : Option Entries :=
  let cs := match document.toList with
    | '\uFEFF' :: rest => rest
    | cs => cs
  readStatements (cs.length + 1) {} cs

end ShuffleBuffer.Toml
