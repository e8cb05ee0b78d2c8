import Linearity.Dict

/-! The types of the checked language.

A type is a primitive, a named type applied to arguments, a parameter of the
enclosing definition, a reference into a region, or the name of a region standing
as an argument. The module gives the text of a type, the regions it mentions,
and substitution for its parameters. -/
namespace Linearity

inductive RefKind where
  | read
  | write
deriving DecidableEq

inductive Prim where
  | unit
  | bool
  | int
  | float
  | text
deriving DecidableEq

def Prim.name : Prim → String
  | .unit => "Unit"
  | .bool => "Bool"
  | .int => "Int"
  | .float => "Float"
  | .text => "Text"

inductive Ty where
  | prim (p : Prim)
  | named (name : String) (args : List Ty)
  | param (name : String)
  /-- A reference to a `referent` that is good while `region` is open. -/
  | ref (kind : RefKind) (region : String) (referent : Ty)
  | region (name : String)

namespace Ty

abbrev unit : Ty := .prim .unit
abbrev bool : Ty := .prim .bool
abbrev int : Ty := .prim .int
abbrev float : Ty := .prim .float
abbrev string : Ty := .prim .text

def isRef : Ty → Bool
  | .ref .. => true
  | .prim _ | .named .. | .param _ | .region _ => false

/-! ### Equality -/

mutual

def same : Ty → Ty → Bool
  | .prim p, .prim q => p == q
  | .named m as, .named n bs => m == n && sameAll as bs
  | .param p, .param q => p == q
  | .ref k r t, .ref l q u => k == l && r == q && same t u
  | .region r, .region q => r == q
  | _, _ => false

def sameAll : List Ty → List Ty → Bool
  | [], [] => true
  | a :: as, b :: bs => same a b && sameAll as bs
  | _, _ => false

end

mutual

theorem same_iff : ∀ {a b : Ty}, same a b = true ↔ a = b
  | .prim p, b => by cases b <;> simp [same]
  | .named m as, b => by cases b <;> simp [same, sameAll_iff]
  | .param p, b => by cases b <;> simp [same]
  | .ref k r t, b => by cases b <;> simp [same, same_iff, and_assoc]
  | .region r, b => by cases b <;> simp [same]

theorem sameAll_iff : ∀ {as bs : List Ty}, sameAll as bs = true ↔ as = bs
  | [], bs => by cases bs <;> simp [sameAll]
  | a :: as, bs => by cases bs <;> simp [sameAll, same_iff, sameAll_iff]

end

instance : DecidableEq Ty := fun _ _ => decidable_of_iff _ same_iff

/-! ### Text -/

def sigil : RefKind → String
  | .read => "&"
  | .write => "&!"

mutual

def text : Ty → String
  | .prim p => p.name
  | .named name [] => name
  | .named name (a :: as) => name ++ "[" ++ text a ++ textRest as ++ "]"
  | .param name => name
  | .ref kind r referent => sigil kind ++ "[" ++ text referent ++ ", " ++ r ++ "]"
  | .region name => name

/-- The arguments after the first. -/
def textRest : List Ty → String
  | [] => ""
  | a :: as => ", " ++ text a ++ textRest as

end

/-! ### Regions -/

mutual

/-- Every mention of a region, outermost first. -/
def regions : Ty → List String
  | .prim _ => []
  | .named _ args => regionsAll args
  | .param _ => []
  | .ref _ r referent => r :: regions referent
  | .region name => [name]

def regionsAll : List Ty → List String
  | [] => []
  | a :: as => regions a ++ regionsAll as

end

end Ty

/-! ### Substitution -/

/-- Types for parameters, by the parameter's name. -/
abbrev Subst := Dict Ty

/-- The region that stands for `r`: its image, if that is a region's name. -/
def Subst.region (s : Subst) (r : String) : String :=
  match s.get? r with
  | some (.region q) => q
  | _ => r

namespace Ty

mutual

/-- Parameters give way to their images, and so do the regions of references; a
region that stands alone is no parameter and stays. -/
def substitute (s : Subst) : Ty → Ty
  | .prim p => .prim p
  | .named name args => .named name (substituteAll s args)
  | .param name => (s.get? name).getD (.param name)
  | .ref kind r referent => .ref kind (s.region r) (substitute s referent)
  | .region name => .region name

def substituteAll (s : Subst) : List Ty → List Ty
  | [] => []
  | a :: as => substitute s a :: substituteAll s as

end

end Ty

end Linearity
