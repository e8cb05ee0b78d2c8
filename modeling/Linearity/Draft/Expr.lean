import Linearity.Syntax.Program

/-! Drafts: syntax whose places are still open.

A draft is a tree whose places may be left out. The expressions here have every
place open and the type that their form gives them; `Linearity.Draft.Place` fills
the places in. -/
namespace Linearity.Draft

/-- What stands for a place in a draft: a span fixed in advance, or nothing. -/
abbrev Mark := Option Span

abbrev Expr := Linearity.Expr Mark

def ident (name : String) : Ident Mark := ⟨none, name⟩

def lit (value : Literal) : Expr := ⟨none, value.ty, .lit value⟩

def var (name : String) (ty : Ty) : Expr := ⟨none, ty, .var name⟩

def call (callee : String) (ty : Ty) (args : List Expr) : Expr :=
  ⟨none, ty, .call (ident callee) args⟩

def binary (op : BinaryOp) (lhs rhs : Expr) (ty : Ty) : Expr := ⟨none, ty, .binary op lhs rhs⟩

def not (operand : Expr) : Expr := ⟨none, .bool, .unary .not operand⟩

def neg (operand : Expr) : Expr := ⟨none, operand.ty, .unary .neg operand⟩

/-- Values under their names, as written in a record or a union value. -/
def labelled (values : List (String × Expr)) : List (Ident Mark × Expr) :=
  values.map fun (name, value) => (ident name, value)

/-- A record is named by the text of its type. -/
def record (ty : Ty) (fields : List (String × Expr)) : Expr :=
  ⟨none, ty, .record (ident ty.text) (labelled fields)⟩

def union (ty : Ty) (variant : String) (slots : List (String × Expr)) : Expr :=
  ⟨none, ty, .union (ident ty.text) (ident variant) (labelled slots)⟩

def borrow (kind : RefKind) (target : String) (referent : Ty) (region : String) : Expr :=
  ⟨none, .ref kind region referent, .borrow kind (ident target)⟩

def deref (reference : Expr) (ty : Ty) : Expr := ⟨none, ty, .deref reference⟩

def path (head : Expr) (steps : List (Step Mark)) (ty : Ty) : Expr := ⟨none, ty, .path head steps⟩

end Linearity.Draft
