import Linearity.Syntax.Stmt
import Linearity.Universe

/-! Definitions of types and functions, and programs made of them. -/
namespace Linearity
variable {α : Type}

/-- A generic parameter. Its kind bounds what may be supplied for it. -/
structure TypeParam (α : Type) where
  pos : α
  name : Ident α
  kind : Universe

/-- A named place of a type: a record's field, a slot of a union's variant, a
parameter of a function. -/
structure Slot (α : Type) where
  pos : α
  name : Ident α
  ty : Ty

structure Variant (α : Type) where
  pos : α
  name : Ident α
  slots : List (Slot α)

inductive Shape (α : Type) where
  /-- Nothing is known of what is inside. -/
  | sealed
  | record (fields : List (Slot α))
  | union (variants : List (Variant α))

structure TypeDef (α : Type) where
  pos : α
  name : Ident α
  params : List (TypeParam α)
  univ : Universe
  shape : Shape α

namespace TypeDef

/-- Every place of an instance, over all variants. -/
def fields (d : TypeDef α) : List (Slot α) :=
  match d.shape with
  | .sealed => []
  | .record fields => fields
  | .union variants => variants.flatMap Variant.slots

/-- The kind of the first parameter of that name. -/
def paramKind? (d : TypeDef α) (name : String) : Option Universe :=
  (d.params.find? fun p => p.name.name == name).map TypeParam.kind

/-- The arguments of an application, by parameter. -/
def instantiation (d : TypeDef α) (args : List Ty) : Subst :=
  ⟨(d.params.map fun p => p.name.name).zip args⟩

end TypeDef

structure FunDef (α : Type) where
  pos : α
  name : Ident α
  typeParams : List (TypeParam α)
  params : List (Slot α)
  ret : Ty
  body : Block α

/-- The regions a function is generic in. -/
def FunDef.regions (f : FunDef α) : List (Ident α) :=
  (f.typeParams.filter fun p => p.kind == .region).map TypeParam.name

structure Program (α : Type) where
  types : List (TypeDef α)
  functions : List (FunDef α)

end Linearity
