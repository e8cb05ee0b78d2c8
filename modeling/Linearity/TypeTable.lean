import Linearity.Syntax.Program
import Linearity.Violation

/-! Which types are linear.

A type table holds the definitions of a program by name. `linearIn` decides
whether a type is linear: a definition says so outright, or, in the universe
`poly`, an argument or a field of the instance is linear. A definition that is
entered again while it is being expanded contributes nothing, so expansion ends
even where an instance contains ever larger instances of itself: each expansion
uses up a name of the table. -/
namespace Linearity

abbrev TypeTable := Dict (TypeDef Span)

/-- The kinds of the parameters in scope, by name. -/
abbrev Kinds := Dict Universe

def Kinds.ofParams (params : List (TypeParam Span)) : Kinds :=
  ⟨params.map fun p => (p.name.name, p.kind)⟩

namespace TypeTable

def ofDefs (defs : List (TypeDef Span)) : TypeTable := ⟨defs.map fun d => (d.name.name, d)⟩

/-- How many entries are not being expanded. -/
def unvisited (T : TypeTable) (visiting : List String) : Nat :=
  T.entries.countP fun e => decide (e.1 ∉ visiting)

private theorem countP_lt {α : Type} {p q : α → Bool} {a : α} :
    ∀ {l : List α}, (∀ x ∈ l, p x = true → q x = true) → a ∈ l → p a = false → q a = true →
      l.countP p < l.countP q
  | x :: rest, hpq, hmem, hp, hq => by
    have hrest : ∀ y ∈ rest, p y = true → q y = true :=
      fun y hy => hpq y (List.mem_cons_of_mem _ hy)
    simp only [List.countP_cons]
    rcases List.mem_cons.mp hmem with rfl | hmem
    · have := List.countP_mono_left hrest
      simp only [hp, hq, Bool.false_eq_true, if_true, if_false]
      omega
    · have := countP_lt hrest hmem hp hq
      have hx := hpq x (List.mem_cons_self ..)
      cases hpx : p x
      · cases q x <;> simp <;> omega
      · simp only [hx hpx, if_true]
        omega

/-- Expanding a definition of the table uses up an entry. -/
theorem unvisited_cons_lt {T : TypeTable} {name : String} {d : TypeDef Span}
    {visiting : List String} (hd : T.get? name = some d) (hv : name ∉ visiting) :
    T.unvisited (name :: visiting) < T.unvisited visiting :=
  countP_lt (by simp +contextual) (Dict.get?_mem hd) (by simp) (by simpa using hv)

mutual

/-- Whether a type is linear, while the definitions named in `visiting` are being
expanded. A parameter counts as linear if a linear type may stand for it; what the
table does not define is free. -/
def linearIn (T : TypeTable) (K : Kinds) (visiting : List String) : Ty → Bool
  | .prim _ => false
  | .param name => (K.get? name).any Universe.admitsLinear
  | .ref .. => false
  | .region _ => false
  | .named name args =>
    match _hd : T.get? name with
    | none => false
    | some d =>
      match d.univ with
      | .free | .region => false
      | .linear => true
      | .poly =>
        argLinearIn T K visiting d.params args ||
          if _hv : name ∈ visiting then false
          else d.fields.any fun field =>
            linearIn T K (name :: visiting) (field.ty.substitute (d.instantiation args))
termination_by t => (T.unvisited visiting, sizeOf t)
decreasing_by
  · exact Prod.Lex.right _ (by simp only [Ty.named.sizeOf_spec]; omega)
  · exact Prod.Lex.left _ _ (unvisited_cons_lt _hd _hv)

/-- Whether some argument is linear at a parameter that admits it. -/
def argLinearIn (T : TypeTable) (K : Kinds) (visiting : List String) :
    List (TypeParam Span) → List Ty → Bool
  | p :: params, a :: args =>
    (p.kind.admitsLinear && linearIn T K visiting a) || argLinearIn T K visiting params args
  | _, _ => false
termination_by _ args => (T.unvisited visiting, sizeOf args)
decreasing_by
  · exact Prod.Lex.right _ (by simp only [List.cons.sizeOf_spec]; omega)
  · exact Prod.Lex.right _ (by simp only [List.cons.sizeOf_spec]; omega)

end

theorem linearIn_named (T : TypeTable) (K : Kinds) (visiting : List String) (name : String)
    (args : List Ty) :
    T.linearIn K visiting (.named name args) =
      match T.get? name with
      | none => false
      | some d =>
        match d.univ with
        | .free | .region => false
        | .linear => true
        | .poly =>
          T.argLinearIn K visiting d.params args ||
            if name ∈ visiting then false
            else d.fields.any fun field =>
              T.linearIn K (name :: visiting) (field.ty.substitute (d.instantiation args)) := by
  rw [linearIn]
  cases T.get? name with
  | none => rfl
  | some d => simp only [dite_eq_ite]

def isLinear (T : TypeTable) (K : Kinds) (t : Ty) : Bool := T.linearIn K [] t

def classify (T : TypeTable) (K : Kinds) (t : Ty) : Universe :=
  if T.isLinear K t then .linear else .free

/-- The linear fields of a definition that is declared free. -/
def misdeclared (T : TypeTable) (d : TypeDef Span) : List Violation :=
  if d.univ = .free then
    (d.fields.filter fun field => T.isLinear (.ofParams d.params) field.ty).map fun field =>
      .freeHoldsLinear d.name.name field.name.name field.ty.text d.name.pos field.pos
  else []

/-- A free definition must hold no linear field, nor a parameter that admits one. -/
def validate (T : TypeTable) (defs : List (TypeDef Span)) : List Violation :=
  defs.flatMap T.misdeclared

end TypeTable

end Linearity
