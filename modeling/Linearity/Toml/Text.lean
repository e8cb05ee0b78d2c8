import Linearity.Toml.Reader

/-! Quoted texts of a TOML document.

A basic text stands in double quotes and may hold escapes; a literal text stands in
single quotes and holds what is written. In triple quotes either may run over
several lines. -/
namespace Linearity.Toml

/-- The character of a code point. -/
def ofCode? (n : Nat) : Option Char := if n.isValidChar then some (Char.ofNat n) else none

/-- Something read off the front of `s` that may be nothing, and the rest. -/
abbrev Passed (α : Type) (s : List Char) := α × {rest : List Char // rest.length ≤ s.length}

/-- Exactly `n` hexadecimal digits, as a number. -/
def hexCode : Nat → Nat → (s : List Char) → Option (Passed Nat s)
  | 0, code, s => some (code, ⟨s, Nat.le_refl _⟩)
  | n + 1, code, c :: s => do
    let digit ← hexDigit? c
    let (code, rest) ← hexCode n (16 * code + digit) s
    some (code, ⟨rest, Nat.le_succ_of_le rest.2⟩)
  | _ + 1, _, [] => none

def codePoint (digits : Nat) (s : List Char) : Option (Passed Char s) := do
  let (code, rest) ← hexCode digits 0 s
  some (← ofCode? code, rest)

/-- What stands behind a backslash. -/
def escape : Reader Char
  | 'b' :: _ => some (.one '\x08')
  | 't' :: _ => some (.one '\t')
  | 'n' :: _ => some (.one '\n')
  | 'f' :: _ => some (.one '\x0c')
  | 'r' :: _ => some (.one '\r')
  | '"' :: _ => some (.one '"')
  | '\\' :: _ => some (.one '\\')
  | 'u' :: rest => do
    let (c, tail) ← codePoint 4 rest
    some ⟨c, tail, Nat.lt_succ_of_le tail.2⟩
  | 'U' :: rest => do
    let (c, tail) ← codePoint 8 rest
    some ⟨c, tail, Nat.lt_succ_of_le tail.2⟩
  | _ => none

/-- The rest of a basic text, behind its opening quote. -/
def basic (s : List Char) : Option (Taken (List Char) s) :=
  match s with
  | '"' :: _ => some (.one [])
  | '\\' :: rest => do
    let c ← escape rest
    let text ← basic c.rest
    some ((c.before text (· :: ·)).behind '\\')
  | c :: rest =>
    if isPlain c then (basic rest).map fun text => (text.map (c :: ·)).behind c else none
  | [] => none
termination_by s.length
decreasing_by
  · have := c.shorter
    simp only [List.length_cons]
    omega
  · exact Nat.lt_succ_self _

/-- The rest of a literal text, behind its opening quote. -/
def literal (s : List Char) : Option (Taken (List Char) s) :=
  match s with
  | '\x27' :: _ => some (.one [])
  | c :: rest =>
    if isPlain c then (literal rest).map fun text => (text.map (c :: ·)).behind c else none
  | [] => none

/-! ### Several lines -/

/-- Three quotes end a text; up to two more before them belong to it. -/
def closing (quote : Char) : Reader (List Char)
  | a :: b :: c :: rest =>
    if a = quote ∧ b = quote ∧ c = quote then
      match rest with
      | d :: e :: tail =>
        if d = quote ∧ e = quote then
          some ⟨[quote, quote], tail, by simp only [List.length_cons]; omega⟩
        else if d = quote then some ⟨[quote], e :: tail, by simp⟩
        else some ⟨[], d :: e :: tail, by simp⟩
      | [d] =>
        if d = quote then some ⟨[quote], [], by simp⟩ else some ⟨[], [d], by simp⟩
      | [] => some ⟨[], [], by simp⟩
    else none
  | _ => none

/-- Blanks and ends of lines. -/
def dropLines (s : List Char) : List Char :=
  match newline (dropBlanks s) with
  | some t => dropLines t.rest
  | none => dropBlanks s
termination_by s.length
decreasing_by
  have := t.shorter
  have := dropBlanks_le s
  omega

theorem dropLines_le (s : List Char) : (dropLines s).length ≤ s.length := by
  fun_induction dropLines s with
  | case1 s t _ ih =>
    have := t.shorter
    have := dropBlanks_le s
    omega
  | case2 s _ => exact dropBlanks_le s

/-- A backslash at the end of a line takes the blanks and the ends of lines behind it
away. -/
def continuation (s : List Char) : Option (Taken Unit s) := do
  let t ← newline (dropBlanks s)
  some ⟨(), dropLines t.rest, Nat.lt_of_le_of_lt (dropLines_le _)
    (Nat.lt_of_lt_of_le t.shorter (dropBlanks_le s))⟩

/-- The rest of a basic text over several lines. -/
def basicLines (s : List Char) : Option (Taken (List Char) s) :=
  match closing '"' s with
  | some t => some t
  | none =>
    match newline s with
    | some t => (basicLines t.rest).map fun text => t.before text fun _ cs => '\n' :: cs
    | none =>
      match s with
      | '\\' :: rest =>
        match continuation rest with
        | some t => (basicLines t.rest).map fun text => (t.before text fun _ cs => cs).behind '\\'
        | none =>
          match escape rest with
          | some c => (basicLines c.rest).map fun text => (c.before text (· :: ·)).behind '\\'
          | none => none
      | c :: rest =>
        if isPlain c then (basicLines rest).map fun text => (text.map (c :: ·)).behind c else none
      | [] => none
termination_by s.length
decreasing_by
  · exact t.shorter
  · exact Nat.lt_succ_of_lt t.shorter
  · exact Nat.lt_succ_of_lt c.shorter
  · exact Nat.lt_succ_self _

/-- The rest of a literal text over several lines. -/
def literalLines (s : List Char) : Option (Taken (List Char) s) :=
  match closing '\x27' s with
  | some t => some t
  | none =>
    match newline s with
    | some t => (literalLines t.rest).map fun text => t.before text fun _ cs => '\n' :: cs
    | none =>
      match s with
      | c :: rest =>
        if isPlain c then (literalLines rest).map fun text => (text.map (c :: ·)).behind c else none
      | [] => none
termination_by s.length
decreasing_by
  · exact t.shorter
  · exact Nat.lt_succ_self _

/-- The end of the line that the opening quotes stand on is not part of the text. -/
def dropFirstLine (s : List Char) : List Char := ((newline s).map Taken.rest).getD s

theorem dropFirstLine_le (s : List Char) : (dropFirstLine s).length ≤ s.length := by
  unfold dropFirstLine
  cases h : newline s with
  | none => exact Nat.le_refl _
  | some t => exact Nat.le_of_lt t.shorter

/-- A text on one line, as a key may be. -/
def lineText : Reader (List Char)
  | '"' :: rest => (basic rest).map (Taken.behind '"')
  | '\x27' :: rest => (literal rest).map (Taken.behind '\x27')
  | _ => none

/-- Any text. -/
def text : Reader (List Char)
  | '"' :: '"' :: '"' :: rest =>
    (basicLines (dropFirstLine rest)).map fun t =>
      t.widen (Nat.le_trans (dropFirstLine_le rest) (by simp only [List.length_cons]; omega))
  | '\x27' :: '\x27' :: '\x27' :: rest =>
    (literalLines (dropFirstLine rest)).map fun t =>
      t.widen (Nat.le_trans (dropFirstLine_le rest) (by simp only [List.length_cons]; omega))
  | s => lineText s

end Linearity.Toml
