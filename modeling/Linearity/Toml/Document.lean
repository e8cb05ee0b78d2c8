import Linearity.Toml.Scalar
import Linearity.Toml.Text

/-! Reading a TOML document.

`Document.parse?` reads a whole text as a table. Arrays and inline tables may nest,
and keys may have dotted parts, up to a fixed depth. -/
namespace Linearity.Toml

/-- Nesting of values and parts of a key stay below it. -/
def depthLimit : Nat := 80

/-! ### Keys -/

def isBare (c : Char) : Bool := c.isAlphanum || c == '_' || c == '-'

/-- One part of a key: bare or quoted. -/
def keyPart (s : List Char) : Option (Taken (List Char) s) :=
  match lineText s with
  | some t => some t
  | none => many isBare s

/-- The parts of a key, with the blanks around them. -/
def keyParts (s : List Char) : Option (Taken (List String) s) := do
  let part ← keyPart (dropBlanks s)
  let part := part.widen (dropBlanks_le s)
  let name := String.ofList part.value
  match exactly '.' (dropBlanks part.rest) with
  | some dot =>
    let more ← keyParts dot.rest
    some ⟨name :: more.value, more.rest, Nat.lt_trans more.shorter (Nat.lt_trans
      (Nat.lt_of_lt_of_le dot.shorter (dropBlanks_le _)) part.shorter)⟩
  | none =>
    some ⟨[name], dropBlanks part.rest, Nat.lt_of_le_of_lt (dropBlanks_le _) part.shorter⟩
termination_by s.length
decreasing_by
  have := part.shorter
  have := dot.shorter
  have := dropBlanks_le part.rest
  omega

/-- A key as the names that lead to it and its own. -/
def key (s : List Char) : Option (Taken (List String × String) s) := do
  let parts ← keyParts s
  guard (parts.value.length < depthLimit)
  let own ← parts.value.getLast?
  some (parts.map fun names => (names.dropLast, own))

/-! ### Values -/

/-- Behind a key: the sign of equality and blanks. -/
def equals (s : List Char) : Option (Taken Unit s) := do
  let sign ← exactly '=' s
  some ⟨(), dropBlanks sign.rest, Nat.lt_of_le_of_lt (dropBlanks_le _) sign.shorter⟩

mutual

/-- A value that stands inside `depth` others. -/
def value (depth : Nat) (s : List Char) : Option (Taken Item s) :=
  match s with
  | '[' :: rest =>
    if depth + 1 < depthLimit then
      (arrayItems (depth + 1) rest).map fun items => (items.map .array).behind '['
    else none
  | '\x7b' :: rest =>
    if depth + 1 < depthLimit then
      match exactly '\x7d' (dropBlanks rest) with
      | some brace =>
        some ⟨.inline [], brace.rest, Nat.lt_succ_of_lt
          (Nat.lt_of_lt_of_le brace.shorter (dropBlanks_le rest))⟩
      | none => (inlineEntries (depth + 1) [] rest).map fun entries => (entries.map .inline).behind '\x7b'
    else none
  | s =>
    match text s with
    | some t => some (t.map fun cs => .text (String.ofList cs))
    | none => scalar s
termination_by (s.length, 0)
decreasing_by
  · exact Prod.Lex.left _ _ (Nat.lt_succ_self _)
  · exact Prod.Lex.left _ _ (Nat.lt_succ_self _)

/-- The items up to the bracket that ends an array. A comma may stand behind each. -/
def arrayItems (depth : Nat) (s : List Char) : Option (Taken (List Item) s) :=
  match exactly ']' (dropGap s) with
  | some bracket => some ((bracket.map fun _ => []).widen (dropGap_le s))
  | none => do
    let item ← value depth (dropGap s)
    match exactly ',' (dropGap item.rest) with
    | some comma =>
      let more ← arrayItems depth comma.rest
      some ⟨item.value :: more.value, more.rest, Nat.lt_trans more.shorter (Nat.lt_of_lt_of_le
        comma.shorter (Nat.le_trans (dropGap_le _) (Nat.le_of_lt (Nat.lt_of_lt_of_le item.shorter
        (dropGap_le s)))))⟩
    | none =>
      let bracket ← exactly ']' (dropGap item.rest)
      some ⟨[item.value], bracket.rest, Nat.lt_trans (Nat.lt_of_lt_of_le bracket.shorter
        (dropGap_le _)) (Nat.lt_of_lt_of_le item.shorter (dropGap_le s))⟩
termination_by (s.length, 1)
decreasing_by
  · have := dropGap_le s
    by_cases h : (dropGap s).length = s.length
    · rw [h]
      exact Prod.Lex.right _ Nat.zero_lt_one
    · exact Prod.Lex.left _ _ (by omega)
  · have := item.shorter
    have := comma.shorter
    have := dropGap_le s
    have := dropGap_le item.rest
    exact Prod.Lex.left _ _ (by omega)

/-- The entries of an inline table up to the brace that ends it, added to `done`. -/
def inlineEntries (depth : Nat) (done : Entries) (s : List Char) : Option (Taken Entries s) := do
  let path ← key s
  let sign ← equals path.rest
  let item ← value depth sign.rest
  let done ← Entries.atKeys (Entries.put path.value.2 item.value) path.value.1 done
  match exactly ',' (dropBlanks item.rest) with
  | some comma =>
    let entries ← inlineEntries depth done comma.rest
    some ⟨entries.value, entries.rest, by
      have := path.shorter
      have := sign.shorter
      have := item.shorter
      have := comma.shorter
      have := entries.shorter
      have := dropBlanks_le item.rest
      omega⟩
  | none =>
    let brace ← exactly '\x7d' (dropBlanks item.rest)
    some ⟨done, brace.rest, by
      have := path.shorter
      have := sign.shorter
      have := item.shorter
      have := brace.shorter
      have := dropBlanks_le item.rest
      omega⟩
termination_by (s.length, 1)
decreasing_by
  · have := path.shorter
    have := sign.shorter
    exact Prod.Lex.left _ _ (by omega)
  · have := path.shorter
    have := sign.shorter
    have := item.shorter
    have := comma.shorter
    have := dropBlanks_le item.rest
    exact Prod.Lex.left _ _ (by omega)

end

/-! ### Lines -/

/-- A document part way: what it holds so far, and the table that keys go into. -/
structure Document where
  root : Entries := []
  header : List String := []

/-- One line's worth: a header, or a key with its value. -/
inductive Line where
  | header (parents : List String) (name : String)
  | element (parents : List String) (name : String)
  | entry (path : List String) (name : String) (value : Item)

def Document.add (d : Document) : Line → Option Document
  | .header parents name => do
    let root ← Entries.atHeader (Entries.openTable name) parents d.root
    some ⟨root, parents ++ [name]⟩
  | .element parents name => do
    let root ← Entries.atHeader (Entries.openElement name) parents d.root
    some ⟨root, parents ++ [name]⟩
  | .entry path name value => do
    let root ← Entries.atHeader (Entries.atKeys (Entries.put name value) path) d.header d.root
    some {d with root}

def line (s : List Char) : Option (Taken Line s) :=
  match s with
  | '[' :: '[' :: rest => do
    let path ← key rest
    let inner ← exactly ']' path.rest
    let outer ← exactly ']' inner.rest
    some ⟨.element path.value.1 path.value.2, outer.rest, by
      have := path.shorter
      have := inner.shorter
      have := outer.shorter
      simp only [List.length_cons]
      omega⟩
  | '[' :: rest => do
    let path ← key rest
    let bracket ← exactly ']' path.rest
    some ⟨.header path.value.1 path.value.2, bracket.rest, by
      have := path.shorter
      have := bracket.shorter
      simp only [List.length_cons]
      omega⟩
  | s => do
    let path ← key s
    let sign ← equals path.rest
    let item ← value 0 sign.rest
    some ⟨.entry path.value.1 path.value.2 item.value, item.rest, by
      have := path.shorter
      have := sign.shorter
      have := item.shorter
      omega⟩

/-- Read line after line. A line ends with its comment, or with the text. -/
def Document.read (d : Document) (s : List Char) : Option Document :=
  match _hs : dropGap s with
  | [] => some d
  | c :: rest => do
    let next ← line (c :: rest)
    let d ← d.add next.value
    if dropComment next.rest = [] then some d
    else
      let eol ← newline (dropComment next.rest)
      d.read eol.rest
termination_by s.length
decreasing_by
  have hle := dropGap_le s
  rw [_hs] at hle
  have := next.shorter
  have := eol.shorter
  have := dropComment_le next.rest
  omega

/-- The table that a document is, if it is one. A byte order mark may precede it. -/
def Document.parse? (text : String) : Option Entries :=
  let chars := match text.toList with
    | '\uFEFF' :: rest => rest
    | chars => chars
  (Document.read {} chars).map Document.root

end Linearity.Toml
