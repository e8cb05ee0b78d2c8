import Linearity.Draft.Expr

/-! Places for a draft.

A draft's places are numbered in the order in which its nodes are finished: the
parts of a node come before the node, its names and blocks after its parts, and
the node itself last. Number `n` is the span of length one at offset `n`. A place
that the draft fixes keeps its span, and its number is used up all the same. -/
namespace Linearity.Draft

/-- A computation that hands out numbers. -/
abbrev Placing := StateM Nat

/-- The next number's span, unless the mark fixes another. -/
def Mark.place (mark : Mark) : Placing Span := fun n => (mark.getD ⟨n, 1⟩, n + 1)

def placeIdent (i : Ident Mark) : Placing (Ident Span) := do
  return ⟨← Mark.place i.pos, i.name⟩

def placeEach {α β : Type} (f : α → Placing β) : List α → Placing (List β)
  | [] => return []
  | a :: as => do
    let b ← f a
    return b :: (← placeEach f as)

/-! ### Expressions -/

/-- The names of values that are placed already. -/
def placeNames : List (Ident Mark × Linearity.Expr Span) →
    Placing (List (Ident Span × Linearity.Expr Span)) :=
  placeEach fun (name, value) => do return (← placeIdent name, value)

mutual

def placeExpr : Expr → Placing (Linearity.Expr Span)
  | ⟨pos, ty, form⟩ => do
    let form ← placeForm form
    return ⟨← Mark.place pos, ty, form⟩

def placeForm : Form Mark → Placing (Form Span)
  | .lit value => return .lit value
  | .var name => return .var name
  | .call callee args => do
    let args ← placeExprs args
    return .call (← placeIdent callee) args
  | .binary op lhs rhs => do
    let lhs ← placeExpr lhs
    return .binary op lhs (← placeExpr rhs)
  | .unary op operand => return .unary op (← placeExpr operand)
  | .record name fields => do
    let fields ← placeValues fields
    let name ← placeIdent name
    return .record name (← placeNames fields)
  | .union name variant slots => do
    let slots ← placeValues slots
    let name ← placeIdent name
    let variant ← placeIdent variant
    return .union name variant (← placeNames slots)
  | .borrow kind target => return .borrow kind (← placeIdent target)
  | .deref reference => return .deref (← placeExpr reference)
  | .path head steps => do
    let head ← placeExpr head
    return .path head (← placeSteps steps)

def placeExprs : List Expr → Placing (List (Linearity.Expr Span))
  | [] => return []
  | e :: es => do
    let e ← placeExpr e
    return e :: (← placeExprs es)

/-- The values under names; the names are placed after all of them. -/
def placeValues : List (Ident Mark × Expr) → Placing (List (Ident Mark × Linearity.Expr Span))
  | [] => return []
  | (name, value) :: rest => do
    let value ← placeExpr value
    return (name, value) :: (← placeValues rest)

def placeSteps : List (Step Mark) → Placing (List (Step Span))
  | [] => return []
  | .field name :: rest => do
    let name ← placeIdent name
    return .field name :: (← placeSteps rest)
  | .arrow name :: rest => do
    let name ← placeIdent name
    return .arrow name :: (← placeSteps rest)
  | .index value :: rest => do
    let value ← placeExpr value
    return .index value :: (← placeSteps rest)

end

/-! ### Statements -/

def placeUnpacked (part : Unpacked Mark) : Placing (Unpacked Span) := do
  let field ← placeIdent part.field
  let name ← placeIdent part.name
  return ⟨← Mark.place part.pos, field, name, part.ty⟩

/-- A branch whose condition and statements are placed; its block and the branch
itself are not. -/
structure OpenBranch where
  pos : Mark
  cond : Linearity.Expr Span
  bodyPos : Mark
  stmts : List (Stmt Span)

def OpenBranch.place (b : OpenBranch) : Placing (Branch Span) := do
  let bodyPos ← Mark.place b.bodyPos
  return ⟨← Mark.place b.pos, b.cond, ⟨bodyPos, b.stmts⟩⟩

mutual

def placeStmt : Stmt Mark → Placing (Stmt Span)
  | .bind pos name ty value => do
    let value ← placeExpr value
    let name ← placeIdent name
    return .bind (← Mark.place pos) name ty value
  | .unpack pos parts value => do
    let value ← placeExpr value
    let parts ← placeEach placeUnpacked parts
    return .unpack (← Mark.place pos) parts value
  | .assign pos target value => do
    let target ← placeExpr target
    let value ← placeExpr value
    return .assign (← Mark.place pos) target value
  | .choose pos branches none => do
    let branches ← placeBranches branches
    let branches ← placeEach OpenBranch.place branches
    return .choose (← Mark.place pos) branches none
  | .choose pos branches (some ⟨elsePos, stmts⟩) => do
    let branches ← placeBranches branches
    let stmts ← placeStmts stmts
    let branches ← placeEach OpenBranch.place branches
    let elsePos ← Mark.place elsePos
    return .choose (← Mark.place pos) branches (some ⟨elsePos, stmts⟩)
  | .select pos scrutinee arms => do
    let scrutinee ← placeExpr scrutinee
    let arms ← placeArms arms
    return .select (← Mark.place pos) scrutinee arms
  | .loop pos cond ⟨bodyPos, stmts⟩ => do
    let cond ← placeExpr cond
    let stmts ← placeStmts stmts
    let bodyPos ← Mark.place bodyPos
    return .loop (← Mark.place pos) cond ⟨bodyPos, stmts⟩
  | .count pos var first last ⟨bodyPos, stmts⟩ => do
    let first ← placeExpr first
    let last ← placeExpr last
    let stmts ← placeStmts stmts
    let var ← placeIdent var
    let bodyPos ← Mark.place bodyPos
    return .count (← Mark.place pos) var first last ⟨bodyPos, stmts⟩
  | .borrow pos kind source name region ⟨bodyPos, stmts⟩ => do
    let stmts ← placeStmts stmts
    let source ← placeIdent source
    let name ← placeIdent name
    let region ← placeIdent region
    let bodyPos ← Mark.place bodyPos
    return .borrow (← Mark.place pos) kind source name region ⟨bodyPos, stmts⟩
  | .ret pos value => do
    let value ← placeExpr value
    return .ret (← Mark.place pos) value
  | .discard pos value => do
    let value ← placeExpr value
    return .discard (← Mark.place pos) value
  | .block ⟨pos, stmts⟩ => do
    let stmts ← placeStmts stmts
    return .block ⟨← Mark.place pos, stmts⟩

def placeStmts : List (Stmt Mark) → Placing (List (Stmt Span))
  | [] => return []
  | stmt :: rest => do
    let stmt ← placeStmt stmt
    return stmt :: (← placeStmts rest)

def placeBranches : List (Branch Mark) → Placing (List OpenBranch)
  | [] => return []
  | ⟨pos, cond, ⟨bodyPos, stmts⟩⟩ :: rest => do
    let cond ← placeExpr cond
    let stmts ← placeStmts stmts
    return ⟨pos, cond, bodyPos, stmts⟩ :: (← placeBranches rest)

def placeArms : List (Arm Mark) → Placing (List (Arm Span))
  | [] => return []
  | ⟨pos, variant, parts, ⟨bodyPos, stmts⟩⟩ :: rest => do
    let stmts ← placeStmts stmts
    let variant ← placeIdent variant
    let parts ← placeEach placeUnpacked parts
    let bodyPos ← Mark.place bodyPos
    let pos ← Mark.place pos
    return ⟨pos, variant, parts, ⟨bodyPos, stmts⟩⟩ :: (← placeArms rest)

end

/-! ### Definitions -/

def placeTypeParam (p : TypeParam Mark) : Placing (TypeParam Span) := do
  let name ← placeIdent p.name
  return ⟨← Mark.place p.pos, name, p.kind⟩

def placeSlot (s : Slot Mark) : Placing (Slot Span) := do
  let name ← placeIdent s.name
  return ⟨← Mark.place s.pos, name, s.ty⟩

def placeVariant (v : Variant Mark) : Placing (Variant Span) := do
  let name ← placeIdent v.name
  let slots ← placeEach placeSlot v.slots
  return ⟨← Mark.place v.pos, name, slots⟩

def placeShape : Shape Mark → Placing (Shape Span)
  | .sealed => return .sealed
  | .record fields => return .record (← placeEach placeSlot fields)
  | .union variants => return .union (← placeEach placeVariant variants)

def placeTypeDef (d : TypeDef Mark) : Placing (TypeDef Span) := do
  let name ← placeIdent d.name
  let params ← placeEach placeTypeParam d.params
  let shape ← placeShape d.shape
  return ⟨← Mark.place d.pos, name, params, d.univ, shape⟩

def placeFunDef (f : FunDef Mark) : Placing (FunDef Span) := do
  let stmts ← placeStmts f.body.stmts
  let name ← placeIdent f.name
  let typeParams ← placeEach placeTypeParam f.typeParams
  let params ← placeEach placeSlot f.params
  let bodyPos ← Mark.place f.body.pos
  return ⟨← Mark.place f.pos, name, typeParams, params, f.ret, ⟨bodyPos, stmts⟩⟩

def placeProgram (p : Program Mark) : Placing (Program Span) := do
  let types ← placeEach placeTypeDef p.types
  return ⟨types, ← placeEach placeFunDef p.functions⟩

/-- The finished tree of a draft, numbered from 0. -/
def finish (p : Program Mark) : Program Span := (placeProgram p 0).1

end Linearity.Draft
