/-! Places in the checked text, and names that stand at one. -/
namespace Linearity

/-- `length` characters from `offset` on. Spans are stored and compared, never
added up. -/
structure Span where
  offset : Nat
  length : Nat
deriving DecidableEq

/-- A name and where it is written. What stands for a place is a parameter of
the whole syntax: a span in a finished tree, a span or nothing in a draft. -/
structure Ident (α : Type) where
  pos : α
  name : String

end Linearity
