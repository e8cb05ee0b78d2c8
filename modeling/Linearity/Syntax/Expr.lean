import Linearity.Syntax.Span
import Linearity.Ty

/-! Expressions.

Every expression carries its place and its type. A variable stands for the value
it holds, a borrow for a reference to a binding, and a path for a part of the
value at its head. -/
namespace Linearity

inductive Literal where
  | unit
  | bool (value : Bool)
  | int (value : Int)
  /-- A number by its IEEE 754 bits. -/
  | float (bits : UInt64)
  | text (value : String)

def Literal.ty : Literal → Ty
  | .unit => .unit
  | .bool _ => .bool
  | .int _ => .int
  | .float _ => .float
  | .text _ => .string

inductive UnaryOp where
  | neg
  | not

inductive BinaryOp where
  | add
  | sub
  | mul
  | div
  | eq
  | ne
  | lt
  | gt
  | le
  | ge
  | and
  | or

mutual

structure Expr (α : Type) where
  pos : α
  ty : Ty
  form : Form α

inductive Form (α : Type) where
  | lit (value : Literal)
  | var (name : String)
  | call (callee : Ident α) (args : List (Expr α))
  | binary (op : BinaryOp) (lhs rhs : Expr α)
  | unary (op : UnaryOp) (operand : Expr α)
  | record (name : Ident α) (fields : List (Ident α × Expr α))
  | union (name variant : Ident α) (slots : List (Ident α × Expr α))
  | borrow (kind : RefKind) (target : Ident α)
  | deref (reference : Expr α)
  | path (head : Expr α) (steps : List (Step α))

/-- One step of a path: into a field, through a reference into a field, or to an
element. -/
inductive Step (α : Type) where
  | field (name : Ident α)
  | arrow (name : Ident α)
  | index (value : Expr α)

end

variable {α : Type}

def Form.var? : Form α → Option String
  | .var name => some name
  | _ => none

/-- The variable that the expression is, if it is one. -/
def Expr.var? (e : Expr α) : Option String := e.form.var?

end Linearity
