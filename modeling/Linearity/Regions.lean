import Linearity.Scopes

/-! Regions: where references are good.

A region is open from the construct that names it to the end of that construct, so
the open regions form a stack, kept innermost first. Each records the references
taken in it. A region's position is the number of regions around it: the smaller,
the longer it lives. -/
namespace Linearity

inductive RegionKind where
  /-- A region that the function is generic in. -/
  | function
  /-- Named by a borrow block. -/
  | explicit
  /-- Opened by a borrow inside an expression, closed with its statement. -/
  | statement
deriving DecidableEq

structure Reference where
  kind : RefKind
  binding : BindingId
  pos : Span
  /-- Whether taking it froze the binding; of reads that share, only the first does. -/
  froze : Bool
deriving DecidableEq

structure Region where
  name : String
  kind : RegionKind
  openedAt : Span
  references : List Reference
deriving DecidableEq

/-- The open regions, the innermost first. -/
abbrev Regions := List Region

namespace Regions

/-- The innermost region of that name. -/
def get? (rs : Regions) (name : String) : Option Region := rs.find? fun r => r.name == name

def isLive (rs : Regions) (name : String) : Bool := (rs.get? name).isSome

/-- How many regions are around the region of that name. -/
def position? (name : String) : Regions → Option Nat
  | [] => none
  | r :: outer => if r.name = name then some outer.length else position? name outer

def isFunctionRegion (rs : Regions) (name : String) : Bool :=
  (rs.get? name).any fun r => r.kind == .function

/-- Two regions of one name are never open together. -/
def enter (rs : Regions) (name : String) (kind : RegionKind) (pos : Span) :
    Except Violation Regions :=
  match rs.get? name with
  | some prior => .error (.borrowConflict name prior.openedAt pos)
  | none => .ok (⟨name, kind, pos, []⟩ :: rs)

/-- Record a reference in the innermost region of that name. -/
def attach (name : String) (reference : Reference) : Regions → Regions
  | [] => []
  | r :: outer =>
    if r.name = name then {r with references := r.references ++ [reference]} :: outer
    else r :: attach name reference outer

/-- The reference that already points at a binding: the first one of the innermost
region that has any, with that region. -/
def referenceTo (rs : Regions) (id : BindingId) : Option (Region × Reference) :=
  rs.findSome? fun r => (r.references.find? fun ref => ref.binding == id).map fun ref => (r, ref)

/-- The statement regions on top, innermost first, down to `base` regions; and the
regions left. -/
def closeStatements (base : Nat) : Regions → List Region × Regions
  | [] => ([], [])
  | r :: outer =>
    if base ≤ outer.length ∧ r.kind = .statement then
      let (closed, rest) := closeStatements base outer
      (r :: closed, rest)
    else ([], r :: outer)

end Regions

end Linearity
