import Linearity.Toml.Item
import Linearity.Toml.Reader

/-! Numbers, dates and truth values of a TOML document.

They are written without quotes, so one is first taken as a whole, up to a character
that none of them has, and then has to be one of them. -/
namespace Linearity.Toml

def isLexeme (c : Char) : Bool :=
  c.isAlphanum || c == '+' || c == '-' || c == '_' || c == '.' || c == ':'

/-- Digits of a class, where an underscore may part two of them. -/
def isGrouped (p : Char → Bool) : List Char → Bool
  | [] => false
  | [c] => p c
  | c :: '_' :: rest => p c && isGrouped p rest
  | c :: rest => p c && isGrouped p rest

def isDigitOrGroup (c : Char) : Bool := c.isDigit || c == '_'

def ungroup (s : List Char) : List Char := s.filter (· != '_')

/-- Whether a sign is a minus, and what follows the sign. -/
def unsign : List Char → Bool × List Char
  | '-' :: rest => (true, rest)
  | '+' :: rest => (false, rest)
  | s => (false, s)

/-! ### Integers -/

/-- Decimal digits without a leading zero. -/
def isDecimal : List Char → Bool
  | ['0'] => true
  | '0' :: _ => false
  | s => isGrouped Char.isDigit s

/-- Integers have 64 bits. -/
def inRange (n : Int) : Option Int := if -Int.pow 2 63 ≤ n ∧ n < Int.pow 2 63 then some n else none

def radix (base : Nat) (p : Char → Bool) (s : List Char) : Option Int := do
  guard (isGrouped p s)
  inRange (ofDigits base (ungroup s))

def integer? : List Char → Option Int
  | '0' :: 'x' :: rest => radix 16 isHex rest
  | '0' :: 'o' :: rest => radix 8 isOctal rest
  | '0' :: 'b' :: rest => radix 2 isBinary rest
  | s => do
    let (minus, digits) := unsign s
    guard (isDecimal digits)
    let n : Int := ofDigits 10 (ungroup digits)
    inRange (if minus then -n else n)

/-! ### Floating-point numbers -/

/-- Whether `m · 10 ^ e` is too large for a 64-bit floating-point number: it is, from
halfway above the largest one. -/
def overflows (m : Nat) (e : Int) : Bool :=
  let bound := Nat.pow 2 1024 - Nat.pow 2 970
  let magnitude := (Nat.toDigits 10 m).length + e
  if m = 0 then false
  else if magnitude < 300 then false
  else if 320 < magnitude then true
  else if 0 ≤ e then decide (bound ≤ m * Nat.pow 10 e.toNat)
  else decide (bound * Nat.pow 10 (-e).toNat ≤ m)

/-- An exponent behind its mark. -/
def exponent? (s : List Char) : Option Int := do
  let (minus, digits) := unsign s
  guard (isGrouped Char.isDigit digits)
  let n : Int := ofDigits 10 (ungroup digits)
  some (if minus then -n else n)

def isExponentMark (c : Char) : Bool := c == 'e' || c == 'E'

/-- A fraction, an exponent or both, as the fraction's digits and the exponent. -/
def fraction? : List Char → Option (List Char × Int)
  | '.' :: rest =>
    let digits := rest.takeWhile (!isExponentMark ·)
    if isGrouped Char.isDigit digits then
      match rest.dropWhile (!isExponentMark ·) with
      | [] => some (ungroup digits, 0)
      | _ :: e => (exponent? e).map fun e => (ungroup digits, e)
    else none
  | c :: rest => if isExponentMark c then (exponent? rest).map fun e => ([], e) else none
  | [] => none

/-- A number with a fraction or an exponent; a positive one must not overflow. -/
def isFloat (s : List Char) : Bool :=
  let (minus, s) := unsign s
  let whole := s.takeWhile isDigitOrGroup
  s == "inf".toList || s == "nan".toList ||
    match fraction? (s.dropWhile isDigitOrGroup) with
    | none => false
    | some (digits, e) =>
      isDecimal whole &&
        (minus || !overflows (ofDigits 10 (ungroup whole ++ digits)) (e - digits.length))

/-! ### Dates and times -/

/-- Two digits that make a number in a range. -/
def twoDigits (least most : Nat) (a b : Char) : Bool :=
  a.isDigit && b.isDigit && least ≤ ofDigits 10 [a, b] && ofDigits 10 [a, b] ≤ most

def isLeapYear (year : Nat) : Bool := year % 4 == 0 && (year % 100 != 0 || year % 400 == 0)

def daysInMonth (year month : Nat) : Nat :=
  if month = 2 then (if isLeapYear year then 29 else 28)
  else if month = 4 ∨ month = 6 ∨ month = 9 ∨ month = 11 then 30
  else 31

/-- What follows a date at the front. -/
def afterDate? : List Char → Option (List Char)
  | y1 :: y2 :: y3 :: y4 :: '-' :: m1 :: m2 :: '-' :: d1 :: d2 :: rest =>
    let year := [y1, y2, y3, y4]
    if year.all Char.isDigit && twoDigits 1 12 m1 m2 &&
        twoDigits 1 (daysInMonth (ofDigits 10 year) (ofDigits 10 [m1, m2])) d1 d2 then
      some rest
    else none
  | _ => none

/-- What follows a time of day at the front. A leap second may be written. -/
def afterTime? : List Char → Option (List Char)
  | h1 :: h2 :: ':' :: m1 :: m2 :: ':' :: s1 :: s2 :: rest =>
    if twoDigits 0 23 h1 h2 && twoDigits 0 59 m1 m2 && twoDigits 0 60 s1 s2 then
      match rest with
      | '.' :: fraction =>
        if fraction.takeWhile Char.isDigit = [] then none
        else some (fraction.dropWhile Char.isDigit)
      | rest => some rest
    else none
  | _ => none

/-- A zone, or nothing. -/
def isZone : List Char → Bool
  | [] => true
  | ['Z'] => true
  | ['z'] => true
  | [sign, h1, h2, ':', m1, m2] =>
    (sign == '+' || sign == '-') && twoDigits 0 23 h1 h2 && twoDigits 0 59 m1 m2
  | _ => false

/-- A time of day that may have a zone, as it does behind a date. -/
def isZonedTime (s : List Char) : Bool := (afterTime? s).any isZone

def isDate (s : List Char) : Bool :=
  match afterDate? s with
  | some [] => true
  | some (c :: time) => (c == 'T' || c == 't') && isZonedTime time
  | none => afterTime? s == some []

/-- A date and a time may also be parted by a blank. The time behind such a date. -/
def blankTime (lexeme s : List Char) : Option (Taken (List Char) s) :=
  match s with
  | ' ' :: rest => do
    guard (afterDate? lexeme = some [])
    let time ← many isLexeme rest
    guard (isZonedTime time.value)
    some (time.behind ' ')
  | _ => none

/-! ### The whole -/

def scalarOf (lexeme : List Char) : Option Item :=
  if lexeme = "true".toList then some (.boolean true)
  else if lexeme = "false".toList then some (.boolean false)
  else if isDate lexeme then some (.date (String.ofList lexeme))
  else if isFloat lexeme then some (.float (String.ofList lexeme))
  else (integer? lexeme).map .integer

def scalar (s : List Char) : Option (Taken Item s) := do
  let lexeme ← many isLexeme s
  match blankTime lexeme.value lexeme.rest with
  | some time => some (lexeme.before time fun d t => .date (String.ofList (d ++ ' ' :: t)))
  | none => (scalarOf lexeme.value).map fun item => lexeme.map fun _ => item

end Linearity.Toml
