import Linearity.Syntax.Expr

/-! Statements and blocks. -/
namespace Linearity

/-- A field of a destructured value, and the binding that receives it. -/
structure Unpacked (α : Type) where
  pos : α
  field : Ident α
  name : Ident α
  ty : Ty

mutual

structure Block (α : Type) where
  pos : α
  stmts : List (Stmt α)

inductive Stmt (α : Type) where
  | bind (pos : α) (name : Ident α) (ty : Ty) (value : Expr α)
  | unpack (pos : α) (parts : List (Unpacked α)) (value : Expr α)
  | assign (pos : α) (target value : Expr α)
  /-- The first branch whose condition holds is taken, else `otherwise`. -/
  | choose (pos : α) (branches : List (Branch α)) (otherwise : Option (Block α))
  | select (pos : α) (scrutinee : Expr α) (arms : List (Arm α))
  | loop (pos : α) (cond : Expr α) (body : Block α)
  | count (pos : α) (var : Ident α) (first last : Expr α) (body : Block α)
  /-- Inside `body`, `name` refers to `source`; `region` is open for as long. -/
  | borrow (pos : α) (kind : RefKind) (source name region : Ident α) (body : Block α)
  | ret (pos : α) (value : Expr α)
  | discard (pos : α) (value : Expr α)
  | block (body : Block α)

structure Branch (α : Type) where
  pos : α
  cond : Expr α
  body : Block α

structure Arm (α : Type) where
  pos : α
  variant : Ident α
  parts : List (Unpacked α)
  body : Block α

end

def Stmt.pos {α : Type} : Stmt α → α
  | .bind pos .. | .unpack pos .. | .assign pos .. | .choose pos .. | .select pos ..
  | .loop pos .. | .count pos .. | .borrow pos .. | .ret pos .. | .discard pos .. => pos
  | .block body => body.pos

end Linearity
