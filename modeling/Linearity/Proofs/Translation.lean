import Mathlib.Data.List.Forall2
import Linearity.Proofs.Actions

/-! A program with other places, types and labels in place of its own.

A `Translation` says what is put for each place, type and label that a piece of a program
carries, and for its literals and operators. A label is a name that only names a callee, a
record, a union, a variant or a field; the names of bindings and regions stay, and so does the
shape of the code.

If the types that are put leave references references and add no regions (`KeepsRegions`),
the translated program takes the same actions, at the translated places and on the translated
types (`translated_actions`). The violations that come with them may name other types; if the
types stay, only the places differ. -/
namespace Linearity

structure Translation where
  place : Span → Span := id
  ty : Ty → Ty := id
  label : Ident Span → Ident Span := id
  literal : Literal → Literal := id
  unary : UnaryOp → UnaryOp := id
  binary : BinaryOp → BinaryOp := id

/-- Other types and nothing else. -/
abbrev Translation.retyping (σ : Ty → Ty) : Translation := {ty := σ}

/-! ### Other places -/

section Places
variable (p : Span → Span)

def Ident.relocate (i : Ident Span) : Ident Span := ⟨p i.pos, i.name⟩

def Violation.relocate : Violation → Violation
  | .unconsumed name ty definedAt scopeEnd => .unconsumed name ty (p definedAt) (p scopeEnd)
  | .consumedTwice name first second => .consumedTwice name (p first) (p second)
  | .branchesDisagree name consumedIn notConsumedIn =>
    .branchesDisagree name (consumedIn.map p) (notConsumedIn.map p)
  | .usedInLoop name usedAt definedAt => .usedInLoop name (p usedAt) (p definedAt)
  | .discarded name ty pos => .discarded name ty (p pos)
  | .regionEscapes name region pos => .regionEscapes name region (p pos)
  | .borrowConflict name prior pos => .borrowConflict name (p prior) (p pos)
  | .usedAfterConsume name consumedAt usedAt => .usedAfterConsume name (p consumedAt) (p usedAt)
  | .linearDeref ty pos => .linearDeref ty (p pos)
  | .linearLeaf name ty pos => .linearLeaf name ty (p pos)
  | .writeThroughRead name pos => .writeThroughRead name (p pos)
  | .freeHoldsLinear typeName field fieldTy declaredAt fieldAt =>
    .freeHoldsLinear typeName field fieldTy (p declaredAt) (p fieldAt)

theorem Violation.isDisagreement_relocate (v : Violation) : (v.relocate p).isDisagreement = v.isDisagreement := by
  cases v <;> rfl

def Check.Action.relocate : Check.Action → Check.Action
  | .consume name pos => .consume name (p pos)
  | .read name reads pos => .read name reads (p pos)
  | .overwrite name pos => .overwrite name (p pos)
  | .borrow kind target ty pos => .borrow kind target ty (p pos)
  | .define name ty pos => .define name ty (p pos)
  | .live ty name pos => .live ty name (p pos)
  | .outlive name ty pos => .outlive name ty (p pos)
  | .outlast region ty name pos => .outlast region ty name (p pos)
  | .ownRegions ty name pos => .ownRegions ty name (p pos)
  | .allConsumed pos => .allConsumed (p pos)
  | .forbid ty v h => .forbid ty (v.relocate p) ((v.isDisagreement_relocate p).trans h)
  | .refuse v h => .refuse (v.relocate p) ((v.isDisagreement_relocate p).trans h)

end Places

/-! ### Syntax -/

section Syntax
variable (τ : Translation)

mutual

def Expr.translate : Expr Span → Expr Span
  | ⟨pos, ty, form⟩ => ⟨τ.place pos, τ.ty ty, form.translate⟩

def Form.translate : Form Span → Form Span
  | .lit value => .lit (τ.literal value)
  | .var name => .var name
  | .call callee args => .call (τ.label callee) (Expr.translateAll args)
  | .binary op lhs rhs => .binary (τ.binary op) lhs.translate rhs.translate
  | .unary op operand => .unary (τ.unary op) operand.translate
  | .record name fields => .record (τ.label name) (Expr.translateValues fields)
  | .union name variant slots => .union (τ.label name) (τ.label variant) (Expr.translateValues slots)
  | .borrow kind target => .borrow kind (target.relocate τ.place)
  | .deref reference => .deref reference.translate
  | .path head steps => .path head.translate (Step.translateAll steps)

def Expr.translateAll : List (Expr Span) → List (Expr Span)
  | [] => []
  | e :: es => e.translate :: Expr.translateAll es

def Expr.translateValues : List (Ident Span × Expr Span) → List (Ident Span × Expr Span)
  | [] => []
  | (name, e) :: rest => (τ.label name, e.translate) :: Expr.translateValues rest

def Step.translateAll : List (Step Span) → List (Step Span)
  | [] => []
  | .field name :: rest => .field (τ.label name) :: Step.translateAll rest
  | .arrow name :: rest => .arrow (τ.label name) :: Step.translateAll rest
  | .index e :: rest => .index e.translate :: Step.translateAll rest

end

def Unpacked.translate (part : Unpacked Span) : Unpacked Span :=
  ⟨τ.place part.pos, τ.label part.field, part.name.relocate τ.place, τ.ty part.ty⟩

mutual

def Block.translate : Block Span → Block Span
  | ⟨pos, stmts⟩ => ⟨τ.place pos, Stmt.translateAll stmts⟩

def Stmt.translate : Stmt Span → Stmt Span
  | .bind pos name ty value => .bind (τ.place pos) (name.relocate τ.place) (τ.ty ty) (value.translate τ)
  | .unpack pos parts value => .unpack (τ.place pos) (parts.map (Unpacked.translate τ)) (value.translate τ)
  | .assign pos target value => .assign (τ.place pos) (target.translate τ) (value.translate τ)
  | .choose pos branches none => .choose (τ.place pos) (Branch.translateAll branches) none
  | .choose pos branches (some block) => .choose (τ.place pos) (Branch.translateAll branches) (some block.translate)
  | .select pos scrutinee arms => .select (τ.place pos) (scrutinee.translate τ) (Arm.translateAll arms)
  | .loop pos cond body => .loop (τ.place pos) (cond.translate τ) body.translate
  | .count pos var first last body =>
    .count (τ.place pos) (var.relocate τ.place) (first.translate τ) (last.translate τ) body.translate
  | .borrow pos kind source name region body => .borrow (τ.place pos) kind (source.relocate τ.place)
    (name.relocate τ.place) (region.relocate τ.place) body.translate
  | .ret pos value => .ret (τ.place pos) (value.translate τ)
  | .discard pos value => .discard (τ.place pos) (value.translate τ)
  | .block body => .block body.translate

def Stmt.translateAll : List (Stmt Span) → List (Stmt Span)
  | [] => []
  | stmt :: rest => stmt.translate :: Stmt.translateAll rest

def Branch.translateAll : List (Branch Span) → List (Branch Span)
  | [] => []
  | ⟨pos, cond, body⟩ :: rest => ⟨τ.place pos, cond.translate τ, body.translate⟩ :: Branch.translateAll rest

def Arm.translateAll : List (Arm Span) → List (Arm Span)
  | [] => []
  | ⟨pos, variant, parts, body⟩ :: rest =>
    ⟨τ.place pos, τ.label variant, parts.map (Unpacked.translate τ), body.translate⟩ :: Arm.translateAll rest

end

def TypeParam.translate (p : TypeParam Span) : TypeParam Span := ⟨τ.place p.pos, p.name.relocate τ.place, p.kind⟩

def Slot.translate (p : Slot Span) : Slot Span := ⟨τ.place p.pos, p.name.relocate τ.place, τ.ty p.ty⟩

def FunDef.translate (f : FunDef Span) : FunDef Span where
  pos := τ.place f.pos
  name := τ.label f.name
  typeParams := f.typeParams.map (TypeParam.translate τ)
  params := f.params.map (Slot.translate τ)
  ret := τ.ty f.ret
  body := f.body.translate τ

@[simp] theorem Form.var?_translate (form : Form Span) : (form.translate τ).var? = form.var? := by
  cases form <;> rfl

@[simp] theorem Expr.form_translate (e : Expr Span) : (e.translate τ).form = e.form.translate τ := by
  cases e
  rfl

@[simp] theorem Expr.pos_translate (e : Expr Span) : (e.translate τ).pos = τ.place e.pos := by
  cases e
  rfl

@[simp] theorem Expr.ty_translate (e : Expr Span) : (e.translate τ).ty = τ.ty e.ty := by
  cases e
  rfl

/-- The names of bindings stay. -/
@[simp] theorem Expr.var?_translate (e : Expr Span) : (e.translate τ).var? = e.var? := by
  rw [var?, form_translate, Form.var?_translate, var?]

@[simp] theorem Block.pos_translate (block : Block Span) : (block.translate τ).pos = τ.place block.pos := by
  cases block
  rfl

end Syntax

/-! ### Actions -/

theorem Ty.eq_ref_of_isRef {t : Ty} (h : t.isRef = true) : ∃ kind region referent, t = .ref kind region referent := by
  cases t with
  | ref kind region referent => exact ⟨kind, region, referent, rfl⟩
  | _ => cases h

/-- References stay references into the same region, and no region comes or goes. -/
structure KeepsRegions (σ : Ty → Ty) : Prop where
  prim : ∀ p, σ (.prim p) = .prim p
  ref : ∀ kind r referent, σ (.ref kind r referent) = .ref kind r (σ referent)
  isRef : ∀ t, (σ t).isRef = t.isRef
  regions : ∀ t, (σ t).regions = t.regions

namespace Check

/-- A violation that is reported of a translated program: at the translated places, and the same
but for that if the types stay. -/
def Restated (τ : Translation) (v v' : Violation) : Prop := (∀ t, τ.ty t = t) → v' = v.relocate τ.place

/-- The same action at the translated place, on the translated type. -/
inductive Translated (τ : Translation) : Action → Action → Prop where
  | consume (name : String) (pos : Span) : Translated τ (.consume name pos) (.consume name (τ.place pos))
  | read (name : String) (reads : Option LeafReads) (pos : Span) :
    Translated τ (.read name reads pos) (.read name reads (τ.place pos))
  | overwrite (name : String) (pos : Span) : Translated τ (.overwrite name pos) (.overwrite name (τ.place pos))
  | borrow (kind : RefKind) (target : String) (ty : Ty) (pos : Span) :
    Translated τ (.borrow kind target ty pos) (.borrow kind target (τ.ty ty) (τ.place pos))
  | live (ty : Ty) (name : Option String) (pos : Span) :
    Translated τ (.live ty name pos) (.live (τ.ty ty) name (τ.place pos))
  | outlive (name : String) (ty : Ty) (pos : Span) :
    Translated τ (.outlive name ty pos) (.outlive name (τ.ty ty) (τ.place pos))
  | outlast (region : String) (ty : Ty) (name : Option String) (pos : Span) :
    Translated τ (.outlast region ty name pos) (.outlast region (τ.ty ty) name (τ.place pos))
  | ownRegions (ty : Ty) (name : Option String) (pos : Span) :
    Translated τ (.ownRegions ty name pos) (.ownRegions (τ.ty ty) name (τ.place pos))
  | allConsumed (pos : Span) : Translated τ (.allConsumed pos) (.allConsumed (τ.place pos))
  | forbid (ty : Ty) {v v' : Violation} {h : v.isDisagreement = false} {h' : v'.isDisagreement = false} :
    Restated τ v v' → Translated τ (.forbid ty v h) (.forbid (τ.ty ty) v' h')
  | refuse {v v' : Violation} {h : v.isDisagreement = false} {h' : v'.isDisagreement = false} :
    Restated τ v v' → Translated τ (.refuse v h) (.refuse v' h')

/-- Where the types stay, an action only gets another place. -/
theorem Translated.eq_relocate {τ : Translation} (hτ : ∀ t, τ.ty t = t) {a a' : Action} (h : Translated τ a a') :
    a' = a.relocate τ.place := by
  cases h with
  | forbid _ hv =>
    obtain rfl := hv hτ
    rw [hτ]
    rfl
  | refuse hv =>
    obtain rfl := hv hτ
    rfl
  | consume | read | overwrite | allConsumed => rfl
  | _ =>
    rw [hτ]
    rfl

variable {τ : Translation}

/-- The variable at the head of a path is read unless it is a reference, and a translation leaves it
a reference or not. -/
theorem translated_rootActions (hτ : KeepsRegions τ.ty) (name : String) (ty : Ty) (pos : Span) :
    List.Forall₂ (Translated τ) (rootActions name ty pos) (rootActions name (τ.ty ty) (τ.place pos)) := by
  unfold rootActions
  rw [hτ.isRef]
  cases ty.isRef with
  | true => exact .cons (.live ty (some name) pos) .nil
  | false => exact .cons (.read name none pos) (.cons (.live ty (some name) pos) .nil)

/-- The head of a path is called by the same name, unless its type is what it is called by. -/
theorem rootName_translate (hτ : ∀ t, τ.ty t = t) (head : Expr Span) :
    rootName (head.translate τ) = rootName head := by
  rw [rootName, rootName, Expr.var?_translate, Expr.ty_translate, hτ]

mutual

/-- A translated expression takes the actions of the expression, translated. -/
theorem translated_actions (hτ : KeepsRegions τ.ty) :
    ∀ e : Expr Span, List.Forall₂ (Translated τ) (actions e) (actions (e.translate τ))
  | ⟨pos, ty, form⟩ => by
    rw [Expr.translate, actions, actions, Form.var?_translate]
    exact List.rel_append (translated_formActions hτ pos ty form) (.cons (.live ty form.var? pos) .nil)

theorem translated_formActions (hτ : KeepsRegions τ.ty) (pos : Span) (ty : Ty) : ∀ form : Form Span,
    List.Forall₂ (Translated τ) (formActions pos ty form) (formActions (τ.place pos) (τ.ty ty) (form.translate τ))
  | .lit _ => .nil
  | .var name => .cons (.consume name pos) .nil
  | .call _ args => translated_allActions hτ args
  | .binary _ lhs rhs => List.rel_append (translated_actions hτ lhs) (translated_actions hτ rhs)
  | .unary _ operand => translated_actions hτ operand
  | .record _ fields => translated_valuesActions hτ fields
  | .union _ _ slots => translated_valuesActions hτ slots
  | .borrow kind target => .cons (.borrow kind target.name ty pos) .nil
  | .deref reference => by
    refine List.rel_append (translated_actions hτ reference) (.cons (.forbid ty fun htypes => ?_) .nil)
    rw [htypes]
    rfl
  | .path head steps => by
    rw [Form.translate, formActions, formActions, Expr.var?_translate, Expr.ty_translate, Expr.pos_translate]
    refine List.rel_append ?_ (List.rel_append (translated_stepsActions hτ steps)
      (.cons (.forbid ty fun htypes => ?_) .nil))
    · cases head.var? with
      | some name => exact translated_rootActions hτ name head.ty head.pos
      | none =>
        refine List.rel_append (translated_actions hτ head) (.cons (.forbid head.ty fun htypes => ?_) .nil)
        rw [htypes]
        rfl
    · rw [htypes, rootName_translate htypes]
      rfl

theorem translated_allActions (hτ : KeepsRegions τ.ty) : ∀ es : List (Expr Span),
    List.Forall₂ (Translated τ) (allActions es) (allActions (Expr.translateAll τ es))
  | [] => .nil
  | e :: es => List.rel_append (translated_actions hτ e) (translated_allActions hτ es)

theorem translated_valuesActions (hτ : KeepsRegions τ.ty) : ∀ fields : List (Ident Span × Expr Span),
    List.Forall₂ (Translated τ) (valuesActions fields) (valuesActions (Expr.translateValues τ fields))
  | [] => .nil
  | (_, e) :: rest => List.rel_append (translated_actions hτ e) (translated_valuesActions hτ rest)

theorem translated_stepsActions (hτ : KeepsRegions τ.ty) : ∀ steps : List (Step Span),
    List.Forall₂ (Translated τ) (stepsActions steps) (stepsActions (Step.translateAll τ steps))
  | [] => .nil
  | .field _ :: rest => translated_stepsActions hτ rest
  | .arrow _ :: rest => translated_stepsActions hτ rest
  | .index e :: rest => List.rel_append (translated_actions hτ e) (translated_stepsActions hτ rest)

end

/-- What may be written through a path is asked of the translated types and at the translated
places. -/
theorem translated_admitActions (hτ : KeepsRegions τ.ty) (head value : Expr Span) (pos : Span) :
    List.Forall₂ (Translated τ) (admitActions head value pos)
      (admitActions (head.translate τ) (value.translate τ) (τ.place pos)) := by
  by_cases href : head.ty.isRef = true
  · obtain ⟨kind, region, referent, hty⟩ := Ty.eq_ref_of_isRef href
    unfold admitActions
    rw [Expr.ty_translate, hty, hτ.ref, Expr.var?_translate, Expr.ty_translate, Expr.pos_translate]
    cases kind with
    | read =>
      refine .cons (.refuse fun htypes => ?_) .nil
      rw [rootName_translate htypes]
      rfl
    | write => exact .cons (.outlast region value.ty head.var? value.pos) .nil
  · have hplain : (head.translate τ).ty.isRef = false := by
      rw [Expr.ty_translate, hτ.isRef]
      simpa using href
    rw [admitActions_of_plain (by simpa using href), admitActions_of_plain hplain, Expr.var?_translate,
      Expr.ty_translate, Expr.pos_translate]
    cases head.var? with
    | some name => exact .cons (.read name _ pos) (.cons (.outlive name value.ty value.pos) .nil)
    | none => exact .nil

theorem translated_headActions (hτ : KeepsRegions τ.ty) (head : Expr Span) :
    List.Forall₂ (Translated τ) (headActions head) (headActions (head.translate τ)) := by
  unfold headActions
  rw [Expr.var?_translate, Expr.ty_translate, Expr.pos_translate]
  cases head.var? with
  | some name => exact .cons (.live head.ty (some name) head.pos) .nil
  | none => exact translated_actions hτ head

/-- A write into a place takes the actions of the write, translated. -/
theorem translated_placeActions (hτ : KeepsRegions τ.ty) (ty : Ty) (head : Expr Span) (steps : List (Step Span))
    (value : Expr Span) (pos : Span) :
    List.Forall₂ (Translated τ) (placeActions ty head steps value pos)
      (placeActions (τ.ty ty) (head.translate τ) (Step.translateAll τ steps) (value.translate τ) (τ.place pos)) := by
  unfold placeActions
  refine List.rel_append (translated_headActions hτ head) (List.rel_append (translated_stepsActions hτ steps)
    (List.rel_append (translated_admitActions hτ head value pos) (.cons (.forbid ty fun htypes => ?_) .nil)))
  rw [Expr.var?_translate, htypes]
  rfl

/-- An assignment to a translated target takes the actions of the assignment, translated. -/
theorem translated_storeActions (hτ : KeepsRegions τ.ty) (target value : Expr Span) (pos : Span) :
    List.Forall₂ (Translated τ) (storeActions target value pos)
      (storeActions (target.translate τ) (value.translate τ) (τ.place pos)) := by
  have htarget := translated_actions hτ target
  unfold storeActions
  rw [Expr.form_translate, Expr.ty_translate, Expr.ty_translate, Expr.pos_translate]
  cases hform : target.form with
  | var name => exact .cons (.outlive name value.ty value.pos) (.cons (.overwrite name pos) .nil)
  | path head steps => exact translated_placeActions hτ target.ty head steps value pos
  | deref reference => exact translated_placeActions hτ target.ty reference [] value pos
  | _ => exact htarget

/-- A discarded value must be free, under the translation as before. -/
theorem translated_discarded (value : Expr Span) (pos : Span) :
    Translated τ (.forbid value.ty (.discarded value.var? value.ty.text pos) rfl)
      (.forbid (value.translate τ).ty
        (.discarded (value.translate τ).var? (value.translate τ).ty.text (τ.place pos)) rfl) := by
  rw [Expr.ty_translate, Expr.var?_translate]
  refine .forbid value.ty fun htypes => ?_
  rw [htypes]
  rfl

end Check

end Linearity
