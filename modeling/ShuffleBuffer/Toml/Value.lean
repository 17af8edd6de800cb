/-! # Tables of configuration values

A document is a table: values under keys, where a value may be a table again. How a table came to
be decides who may still add to it. A table written in braces is closed. A table opened by a
header takes more tables through later headers, but not through dotted keys from outside. A table
that is only a step on the way of a header may still be opened by a header of its own, and one made
by a dotted key grows through dotted keys alone. -/

namespace ShuffleBuffer.Toml

/-- What brought a table into being. -/
inductive Origin where
  /-- A header of its own. -/
  | header
  /-- The header of a table inside it. -/
  | implied
  /-- A dotted key. -/
  | dotted
  /-- Braces. -/
  | inline
  deriving DecidableEq

inductive Value where
  | text (content : String)
  | integer (value : Int)
  | number (value : Float)
  | boolean (value : Bool)
  /-- A date, a time of day, or both. -/
  | moment
  | array (items : List Value)
  | table (origin : Origin) (entries : List (String × Value))
  /-- The tables under one repeated header, of which only the last one still grows. -/
  | rows (earlier : List (List (String × Value))) (last : List (String × Value))

abbrev Entries := List (String × Value)

namespace Entries

/-- Puts a value under a key that has one already. -/
def replace (entries : Entries) (key : String) (value : Value) : Entries :=
  entries.map fun (k, v) => if k = key then (k, value) else (k, v)

/-- Changes the table at the end of a path; missing tables on the way are made. The path is that of
a dotted key, or that of a header. -/
def alter (dotted : Bool) (change : Origin → Entries → Option Entries) :
    List String → Origin → Entries → Option Entries
  | [], origin, entries => change origin entries
  | key :: path, _, entries =>
      match entries.lookup key with
      | none =>
          let origin := if dotted then .dotted else .implied
          (alter dotted change path origin []).map fun t => (key, .table origin t) :: entries
      | some (.table origin t) =>
          if origin = .inline ∨ origin = .header ∧ dotted then none
          else (alter dotted change path origin t).map fun t =>
            entries.replace key (.table origin t)
      | some (.rows earlier last) =>
          (alter dotted change path .header last).map fun t =>
            entries.replace key (.rows earlier t)
      | some _ => none

/-- Puts a value under a key that has none yet. -/
def insertNew (entries : Entries) (key : String) (value : Value) : Option Entries :=
  match entries.lookup key with
  | none => some ((key, value) :: entries)
  | some _ => none

/-- Puts a value under a dotted key, whose last part is `key`. A key of several parts must end in a
table that dotted keys made, and a key of one part must not. -/
def insert (entries : Entries) (origin : Origin) (path : List String) (key : String)
    (value : Value) : Option Entries :=
  alter true (fun reached t =>
    if decide (reached = .dotted) = path.isEmpty then none else t.insertNew key value)
    path origin entries

/-- Opens the table of a header. Only a table that was implied so far may be there. -/
def openTable (entries : Entries) (path : List String) (key : String) : Option Entries :=
  alter false (fun _ t =>
    match t.lookup key with
    | none => some ((key, .table .header []) :: t)
    | some (.table .implied inner) => some (t.replace key (.table .header inner))
    | some _ => none) path .header entries

/-- Adds a table under a repeated header. -/
def openRow (entries : Entries) (path : List String) (key : String) : Option Entries :=
  alter false (fun _ t =>
    match t.lookup key with
    | none => some ((key, .rows [] []) :: t)
    | some (.rows earlier last) => some (t.replace key (.rows (earlier ++ [last]) []))
    | some _ => none) path .header entries

end Entries

end ShuffleBuffer.Toml
