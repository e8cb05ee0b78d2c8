/-! Reading from the front of a text.

A reader takes something off the front of a list of characters and says what is
left, which is shorter: that is what ends every loop of the readers built on it. -/
namespace Linearity.Toml

/-- Something read off the front of `s`, and the rest. -/
structure Taken (α : Type) (s : List Char) where
  value : α
  rest : List Char
  shorter : rest.length < s.length

namespace Taken
variable {α β γ : Type} {s : List Char}

def map (f : α → β) (t : Taken α s) : Taken β s := ⟨f t.value, t.rest, t.shorter⟩

/-- One character, which stands for `value`. -/
def one {c : Char} (value : α) : Taken α (c :: s) := ⟨value, s, Nat.lt_succ_self _⟩

/-- Read behind one more character. -/
def behind (c : Char) (t : Taken α s) : Taken α (c :: s) :=
  ⟨t.value, t.rest, Nat.lt_succ_of_lt t.shorter⟩

/-- Read behind characters that were passed over. -/
def widen {r : List Char} (t : Taken α r) (h : r.length ≤ s.length) : Taken α s :=
  ⟨t.value, t.rest, Nat.lt_of_lt_of_le t.shorter h⟩

/-- Read one after the other. -/
def before (t : Taken α s) (u : Taken β t.rest) (f : α → β → γ) : Taken γ s :=
  ⟨f t.value u.value, u.rest, Nat.lt_trans u.shorter t.shorter⟩

end Taken

abbrev Reader (α : Type) := (s : List Char) → Option (Taken α s)

/-- The character `c`. -/
def exactly (c : Char) : Reader Unit
  | d :: _ => if c = d then some (.one ()) else none
  | [] => none

/-- As many characters of a class as there are, but one at least. -/
def many (p : Char → Bool) : Reader (List Char)
  | c :: rest =>
    if p c then
      match many p rest with
      | some t => some ((t.map (c :: ·)).behind c)
      | none => some (.one [c])
    else none
  | [] => none

/-! ### Characters -/

def isBlank (c : Char) : Bool := c == ' ' || c == '\t'

/-- What may stand in a comment or a text: no control character but the tab. -/
def isPlain (c : Char) : Bool := c == '\t' || (' '.toNat ≤ c.toNat && c != '\x7f')

def isBinary (c : Char) : Bool := c == '0' || c == '1'

def isOctal (c : Char) : Bool := '0'.toNat ≤ c.toNat && c.toNat ≤ '7'.toNat

/-- What a hexadecimal digit counts. -/
def hexDigit? (c : Char) : Option Nat :=
  if c.isDigit then some (c.toNat - '0'.toNat)
  else if 'a'.toNat ≤ c.toNat && c.toNat ≤ 'f'.toNat then some (c.toNat - 'a'.toNat + 10)
  else if 'A'.toNat ≤ c.toNat && c.toNat ≤ 'F'.toNat then some (c.toNat - 'A'.toNat + 10)
  else none

def isHex (c : Char) : Bool := (hexDigit? c).isSome

/-- The number that digits of a base spell. -/
def ofDigits (base : Nat) (digits : List Char) : Nat :=
  digits.foldl (fun n c => base * n + (hexDigit? c).getD 0) 0

def dropBlanks (s : List Char) : List Char := s.dropWhile isBlank

theorem dropBlanks_le (s : List Char) : (dropBlanks s).length ≤ s.length :=
  (List.dropWhile_sublist _).length_le

/-- A line ends at a line feed, which a carriage return may precede. -/
def newline : Reader Unit
  | '\n' :: _ => some (.one ())
  | '\r' :: '\n' :: rest => some ⟨(), rest, by simp only [List.length_cons]; omega⟩
  | _ => none

/-- Blanks, and a comment if there is one. -/
def dropComment (s : List Char) : List Char :=
  match dropBlanks s with
  | '#' :: rest => rest.dropWhile isPlain
  | rest => rest

theorem dropComment_le (s : List Char) : (dropComment s).length ≤ s.length := by
  have hb := dropBlanks_le s
  unfold dropComment
  split
  · rename_i rest h
    have hd : (rest.dropWhile isPlain).length ≤ rest.length := (List.dropWhile_sublist _).length_le
    rw [h] at hb
    simp only [List.length_cons] at hb
    omega
  · exact hb

/-- Blanks, comments and ends of lines. -/
def dropGap (s : List Char) : List Char :=
  match newline (dropComment s) with
  | some t => dropGap t.rest
  | none => dropComment s
termination_by s.length
decreasing_by
  have := t.shorter
  have := dropComment_le s
  omega

theorem dropGap_le (s : List Char) : (dropGap s).length ≤ s.length := by
  fun_induction dropGap s with
  | case1 s t _ ih =>
    have := t.shorter
    have := dropComment_le s
    omega
  | case2 s _ => exact dropComment_le s

end Linearity.Toml
