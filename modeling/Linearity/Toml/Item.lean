/-! The contents of a TOML document.

A document is a table of items. Tables come from headers, from longer headers that
imply them, or from dotted keys, and where one came from decides what may still be
added to it; `Entries.put`, `openTable` and `openElement` are the three ways to add. -/
namespace Linearity.Toml

/-- What brought a table about. -/
inductive Origin where
  | header
  /-- A header of a table inside it. -/
  | implied
  /-- A key with dots. -/
  | dotted
deriving DecidableEq

inductive Item where
  | text (value : String)
  | integer (value : Int)
  /-- A number with a fraction or an exponent, as it is written. -/
  | float (lexeme : String)
  | boolean (value : Bool)
  /-- A date, a time or both, as written. -/
  | date (lexeme : String)
  | array (items : List Item)
  /-- A table written as a value; nothing can be added to it. -/
  | inline (entries : List (String × Item))
  | table (origin : Origin) (entries : List (String × Item))
  /-- An array of tables from headers, and the last of them. -/
  | tables (earlier : List (List (String × Item))) (last : List (String × Item))

abbrev Entries := List (String × Item)

namespace Entries

def get? (es : Entries) (key : String) : Option Item :=
  (es.find? fun e => e.1 == key).map Prod.snd

/-- The entries with `item` under `key`, in the place of what is there. -/
def set (key : String) (item : Item) : Entries → Entries
  | [] => [(key, item)]
  | e :: rest => if e.1 = key then (key, item) :: rest else e :: set key item rest

/-- A new entry. A key is given once. -/
def put (key : String) (item : Item) (es : Entries) : Option Entries :=
  match es.get? key with
  | none => some (es.set key item)
  | some _ => none

/-- Change the table that dotted keys lead to. Keys lead through tables that no header
has opened, and the table that they end at must have come from dotted keys. -/
def atKeys (change : Entries → Option Entries) : List String → Entries → Option Entries
  | [], es => change es
  | key :: rest, es =>
    match es.get? key with
    | none => do
      let sub ← atKeys change rest []
      some (es.set key (.table .dotted sub))
    | some (.table origin sub) => do
      guard (origin ≠ .header ∧ (rest = [] → origin = .dotted))
      let sub ← atKeys change rest sub
      some (es.set key (.table origin sub))
    | some (.tables earlier last) => do
      guard (rest ≠ [])
      let last ← atKeys change rest last
      some (es.set key (.tables earlier last))
    | some _ => none

/-- Change the table that the names of a header lead to. Tables that are not there are
implied; of an array of tables the last is meant. -/
def atHeader (change : Entries → Option Entries) : List String → Entries → Option Entries
  | [], es => change es
  | key :: rest, es =>
    match es.get? key with
    | none => do
      let sub ← atHeader change rest []
      some (es.set key (.table .implied sub))
    | some (.table origin sub) => do
      let sub ← atHeader change rest sub
      some (es.set key (.table origin sub))
    | some (.tables earlier last) => do
      let last ← atHeader change rest last
      some (es.set key (.tables earlier last))
    | some _ => none

/-- The header of a table, which may have been implied before. -/
def openTable (key : String) (es : Entries) : Option Entries :=
  match es.get? key with
  | none => some (es.set key (.table .header []))
  | some (.table .implied sub) => some (es.set key (.table .header sub))
  | some _ => none

/-- The header of one more table of an array. -/
def openElement (key : String) (es : Entries) : Option Entries :=
  match es.get? key with
  | none => some (es.set key (.tables [] []))
  | some (.tables earlier last) => some (es.set key (.tables (earlier ++ [last]) []))
  | some _ => none

end Entries

end Linearity.Toml
