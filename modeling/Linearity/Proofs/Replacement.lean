import Mathlib.Data.List.Forall2
import Linearity.TypeTable

/-! Types that differ in some of their parts.

`Ty.Replaces P t u` says that `u` is `t` with some parts replaced, each by one that `P`
allows for it. Instances of one type under related arguments are so related
(`Ty.replaces_substitute`), and this also where the type mentions parameters that no
argument stands for, or where references lead into different regions. -/
namespace Linearity

namespace Dict
variable {β : Type} {R : β → β → Prop}

/-- A name finds related entries in related lists of values, or none in both. -/
theorem find_zip (name : String) : ∀ (names : List String) {values values' : List β},
    List.Forall₂ R values values' → Option.Rel R (find name (names.zip values)) (find name (names.zip values'))
  | [], _, _, _ => .none
  | _ :: _, _, _, .nil => .none
  | key :: names, _, _, .cons hv hvs => by
    have hrest := find_zip name names hvs
    simp only [List.zip_cons_cons, find]
    generalize find name (names.zip _) = found at hrest ⊢
    generalize find name (names.zip _) = found' at hrest ⊢
    cases hrest with
    | some h => exact .some h
    | none =>
      by_cases hkey : key = name
      · simpa [hkey] using Option.Rel.some hv
      · rw [if_neg hkey, if_neg hkey]
        exact .none

end Dict

namespace Ty

/-- Nothing is asked of the insides of a reference. -/
inductive Replaces (P : Ty → Ty → Prop) : Ty → Ty → Prop where
  | part {t u : Ty} : P t u → Replaces P t u
  | prim (p : Prim) : Replaces P (.prim p) (.prim p)
  | param (name : String) : Replaces P (.param name) (.param name)
  | ref (k k' : RefKind) (r r' : String) (t t' : Ty) : Replaces P (.ref k r t) (.ref k' r' t')
  | region (name : String) : Replaces P (.region name) (.region name)
  | named (name : String) {args args' : List Ty} : List.Forall₂ (Replaces P) args args' →
    Replaces P (.named name args) (.named name args')

mutual

theorem replaces_substitute {P : Ty → Ty → Prop} {s s' : Subst}
    (h : ∀ name, Option.Rel (Replaces P) (s.get? name) (s'.get? name)) :
    ∀ t : Ty, Replaces P (t.substitute s) (t.substitute s')
  | .prim p => .prim p
  | .named name args => .named name (replaces_substituteAll h args)
  | .param name => by
    have hname := h name
    rw [substitute, substitute]
    generalize s.get? name = image at hname ⊢
    generalize s'.get? name = image' at hname ⊢
    cases hname with
    | some hname => exact hname
    | none => exact .param name
  | .ref .. => .ref ..
  | .region name => .region name

theorem replaces_substituteAll {P : Ty → Ty → Prop} {s s' : Subst}
    (h : ∀ name, Option.Rel (Replaces P) (s.get? name) (s'.get? name)) :
    ∀ args : List Ty, List.Forall₂ (Replaces P) (substituteAll s args) (substituteAll s' args)
  | [] => .nil
  | a :: args => .cons (replaces_substitute h a) (replaces_substituteAll h args)

end

mutual

/-- Putting the parameters back for their images. -/
theorem replaces_image (s : Subst) :
    ∀ t : Ty, Replaces (fun a b => ∃ name, s.get? name = some a ∧ b = .param name) (t.substitute s) t
  | .prim p => .prim p
  | .named name args => .named name (replaces_images s args)
  | .param name => by
    rw [substitute]
    cases hname : s.get? name with
    | none => exact .param name
    | some t => exact .part ⟨name, hname, rfl⟩
  | .ref .. => .ref ..
  | .region name => .region name

theorem replaces_images (s : Subst) : ∀ args : List Ty,
    List.Forall₂ (Replaces fun a b => ∃ name, s.get? name = some a ∧ b = .param name) (substituteAll s args) args
  | [] => .nil
  | a :: args => .cons (replaces_image s a) (replaces_images s args)

end

end Ty

/-- A definition's fields under related arguments. -/
theorem TypeDef.replaces_field {P : Ty → Ty → Prop} {args args' : List Ty} (d : TypeDef Span)
    (h : List.Forall₂ (Ty.Replaces P) args args') (field : Slot Span) :
    Ty.Replaces P (field.ty.substitute (d.instantiation args)) (field.ty.substitute (d.instantiation args')) := by
  apply Ty.replaces_substitute
  intro name
  exact Dict.find_zip name _ h

end Linearity
