import Mathlib
import Linearity.Syntax.Program

/-! The places of a tree.

The outline of a syntax tree keeps its nodes with their places, and of what the nodes are
only whether one is a block. Names, expressions, statements, blocks, branches, arms and
definitions all have a place and so are nodes; a path's steps and the forms of expressions
have none. An outline is drawn of any tree, whatever stands for a place in it. -/
namespace Linearity

inductive NodeKind where
  /-- Its parts are statements, in their order. -/
  | block
  | other
deriving DecidableEq

inductive Outline (α : Type) where
  | node (kind : NodeKind) (pos : α) (parts : List (Outline α))

namespace Outline
variable {α : Type}

def kind : Outline α → NodeKind
  | .node kind _ _ => kind

def pos : Outline α → α
  | .node _ pos _ => pos

def parts : Outline α → List (Outline α)
  | .node _ _ parts => parts

mutual

/-- All nodes of the tree, and last the tree itself. -/
def nodes : Outline α → List (Outline α)
  | .node kind pos parts => nodesAll parts ++ [.node kind pos parts]

def nodesAll : List (Outline α) → List (Outline α)
  | [] => []
  | o :: os => nodes o ++ nodesAll os

end

/-- Every place in some trees. -/
def placesAll (os : List (Outline α)) : List α := (nodesAll os).map pos

def places (o : Outline α) : List α := o.nodes.map pos

/-- Every place in a tree but its own. -/
def inner (o : Outline α) : List α := placesAll o.parts

mutual

/-- The tree without its places. -/
def bare : Outline α → Outline Unit
  | .node kind _ parts => .node kind () (bareAll parts)

def bareAll : List (Outline α) → List (Outline Unit)
  | [] => []
  | o :: os => bare o :: bareAll os

end

theorem bareAll_append (os os' : List (Outline α)) : bareAll (os ++ os') = bareAll os ++ bareAll os' := by
  induction os with
  | nil => rfl
  | cons o os ih => exact congrArg (bare o :: ·) ih

theorem nodesAll_eq (os : List (Outline α)) : nodesAll os = os.flatMap nodes := by
  induction os with
  | nil => rfl
  | cons o os ih => rw [nodesAll, ih, List.flatMap_cons]

@[simp] theorem nodesAll_append (os os' : List (Outline α)) : nodesAll (os ++ os') = nodesAll os ++ nodesAll os' := by
  simp only [nodesAll_eq, List.flatMap_append]

theorem nodesAll_singleton (o : Outline α) : nodesAll [o] = o.nodes := by
  rw [nodesAll_eq, List.flatMap_singleton]

theorem nodesAll_perm {os os' : List (Outline α)} (h : os.Perm os') : (nodesAll os).Perm (nodesAll os') := by
  simp only [nodesAll_eq]
  exact h.flatMap_right nodes

@[simp] theorem placesAll_append (os os' : List (Outline α)) : placesAll (os ++ os') = placesAll os ++ placesAll os' := by
  rw [placesAll, nodesAll_append, List.map_append]
  rfl

theorem placesAll_singleton (o : Outline α) : placesAll [o] = o.places := by
  rw [placesAll, nodesAll_singleton, places]

theorem mem_placesAll {x : α} {os : List (Outline α)} : x ∈ placesAll os ↔ ∃ o ∈ os, x ∈ o.places := by
  simp only [placesAll, places, nodesAll_eq, List.mem_map, List.mem_flatMap]
  constructor
  · rintro ⟨node, ⟨o, ho, hnode⟩, rfl⟩
    exact ⟨o, ho, node, hnode, rfl⟩
  · rintro ⟨o, ho, node, hnode, rfl⟩
    exact ⟨node, ⟨o, ho, hnode⟩, rfl⟩

theorem places_eq (o : Outline α) : o.places = o.inner ++ [o.pos] := by
  cases o
  simp [places, nodes, inner, placesAll, parts, pos]

end Outline

/-! ### Outlines of syntax -/

section Syntax
variable {α : Type}

def Ident.outline (i : Ident α) : Outline α := .node .other i.pos []

mutual

def Expr.outline : Expr α → Outline α
  | ⟨pos, _, form⟩ => .node .other pos form.outlines

def Form.outlines : Form α → List (Outline α)
  | .lit _ | .var _ => []
  | .call callee args => callee.outline :: Expr.outlines args
  | .binary _ lhs rhs => [lhs.outline, rhs.outline]
  | .unary _ operand => [operand.outline]
  | .record name fields => name.outline :: Expr.labelledOutlines fields
  | .union name variant slots => name.outline :: variant.outline :: Expr.labelledOutlines slots
  | .borrow _ target => [target.outline]
  | .deref reference => [reference.outline]
  | .path head steps => head.outline :: Step.outlines steps

def Expr.outlines : List (Expr α) → List (Outline α)
  | [] => []
  | e :: es => e.outline :: Expr.outlines es

/-- Values under names: every name before its value. -/
def Expr.labelledOutlines : List (Ident α × Expr α) → List (Outline α)
  | [] => []
  | (name, value) :: rest => name.outline :: value.outline :: Expr.labelledOutlines rest

def Step.outlines : List (Step α) → List (Outline α)
  | [] => []
  | .field name :: rest | .arrow name :: rest => name.outline :: Step.outlines rest
  | .index value :: rest => value.outline :: Step.outlines rest

end

def Unpacked.outline (part : Unpacked α) : Outline α := .node .other part.pos [part.field.outline, part.name.outline]

mutual

def Block.outline : Block α → Outline α
  | ⟨pos, stmts⟩ => .node .block pos (Stmt.outlines stmts)

/-- A statement that is a block is that one node. -/
def Stmt.outline : Stmt α → Outline α
  | .bind pos name _ value => .node .other pos [name.outline, value.outline]
  | .unpack pos parts value => .node .other pos (parts.map Unpacked.outline ++ [value.outline])
  | .assign pos target value => .node .other pos [target.outline, value.outline]
  | .choose pos branches none => .node .other pos (Branch.outlines branches)
  | .choose pos branches (some block) => .node .other pos (Branch.outlines branches ++ [block.outline])
  | .select pos scrutinee arms => .node .other pos (scrutinee.outline :: Arm.outlines arms)
  | .loop pos cond body => .node .other pos [cond.outline, body.outline]
  | .count pos var first last body =>
    .node .other pos [var.outline, first.outline, last.outline, body.outline]
  | .borrow pos _ source name region body =>
    .node .other pos [source.outline, name.outline, region.outline, body.outline]
  | .ret pos value | .discard pos value => .node .other pos [value.outline]
  | .block body => body.outline

def Stmt.outlines : List (Stmt α) → List (Outline α)
  | [] => []
  | stmt :: rest => stmt.outline :: Stmt.outlines rest

def Branch.outlines : List (Branch α) → List (Outline α)
  | [] => []
  | ⟨pos, cond, body⟩ :: rest => .node .other pos [cond.outline, body.outline] :: Branch.outlines rest

def Arm.outlines : List (Arm α) → List (Outline α)
  | [] => []
  | ⟨pos, variant, parts, body⟩ :: rest =>
    .node .other pos (variant.outline :: parts.map Unpacked.outline ++ [body.outline]) :: Arm.outlines rest

end

def TypeParam.outline (p : TypeParam α) : Outline α := .node .other p.pos [p.name.outline]

def Slot.outline (s : Slot α) : Outline α := .node .other s.pos [s.name.outline]

def Variant.outline (v : Variant α) : Outline α := .node .other v.pos (v.name.outline :: v.slots.map Slot.outline)

def Shape.outlines : Shape α → List (Outline α)
  | .sealed => []
  | .record fields => fields.map Slot.outline
  | .union variants => variants.map Variant.outline

def TypeDef.outline (d : TypeDef α) : Outline α :=
  .node .other d.pos (d.name.outline :: d.params.map TypeParam.outline ++ d.shape.outlines)

def FunDef.outline (f : FunDef α) : Outline α := .node .other f.pos
  (f.name.outline :: f.typeParams.map TypeParam.outline ++ f.params.map Slot.outline ++ [f.body.outline])

def Program.outlines (p : Program α) : List (Outline α) :=
  p.types.map TypeDef.outline ++ p.functions.map FunDef.outline

/-- Names and values are placed apart from each other. -/
theorem Expr.labelledOutlines_perm : ∀ fields : List (Ident α × Expr α),
    (labelledOutlines fields).Perm (fields.map (fun f => f.2.outline) ++ fields.map (fun f => f.1.outline))
  | [] => .nil
  | (name, value) :: rest => by
    rw [labelledOutlines]
    refine .trans ?_ (List.perm_middle.symm.cons value.outline)
    exact (List.Perm.swap ..).trans (((labelledOutlines_perm rest).cons name.outline).cons value.outline)

end Syntax

end Linearity
