import Linearity.Proofs.Steps

/-! What a check does, as lists of actions.

Evaluation has no control flow. The steps it takes are known from the expression
alone, and so are those of every statement without a block: `actions` lists them,
and `eval_eq` and its kin say that to evaluate is to `perform` the list. What holds
of every action and survives sequencing then holds of all of these. -/
namespace Linearity

/-- Whether it is the join of branches that finds the violation. -/
@[reducible] def Violation.isDisagreement : Violation → Bool
  | .branchesDisagree .. => true
  | _ => false

namespace Check

inductive Action where
  | consume (name : String) (pos : Span)
  /-- A part of a binding is looked at, as the settings allow if nothing else is said. -/
  | read (name : String) (reads : Option LeafReads) (pos : Span)
  | overwrite (name : String) (pos : Span)
  | borrow (kind : RefKind) (target : String) (ty : Ty) (pos : Span)
  | define (name : String) (ty : Ty) (pos : Span)
  /-- The regions of a type must be open. -/
  | live (ty : Ty) (name : Option String) (pos : Span)
  /-- They must be open for as long as a binding lives. -/
  | outlive (name : String) (ty : Ty) (pos : Span)
  /-- They must be open for as long as a region is. -/
  | outlast (region : String) (ty : Ty) (name : Option String) (pos : Span)
  /-- They must be the function's own. -/
  | ownRegions (ty : Ty) (name : Option String) (pos : Span)
  /-- No binding may be live. -/
  | allConsumed (pos : Span)
  /-- A type must not be linear. -/
  | forbid (ty : Ty) (v : Violation) (h : v.isDisagreement = false)
  | refuse (v : Violation) (h : v.isDisagreement = false)

variable (c : Context)

/-- What is stored behind a reference may mention the regions around the reference's own. -/
def requireOutlasts (region : String) (ty : Ty) (name : Option String) (pos : Span) (s : State) : State :=
  match s.regions.position? region with
  | some limit => requireBelow c ty limit name pos s
  | none => s

def act : Action → State → State
  | .consume name pos, s => consume c name pos s
  | .read name reads pos, s => read c name (reads.getD c.settings.leafReads) pos s
  | .overwrite name pos, s => overwrite c name pos s
  | .borrow kind target ty pos, s => borrowExpr c kind target ty pos s
  | .define name ty pos, s => define c name ty pos s
  | .live ty name pos, s => requireLive c ty name pos s
  | .outlive name ty pos, s => requireOutlives c name ty pos s
  | .outlast region ty name pos, s => requireOutlasts c region ty name pos s
  | .ownRegions ty name pos, s =>
    reportEscapes c (ty.regions.filter fun r => !s.regions.isFunctionRegion r) name pos s
  | .allConsumed pos, s => reportAll c (s.scopes.live.map fun b => b.stranded pos) s
  | .forbid ty v _, s => forbidLinear c ty v s
  | .refuse v _, s => report c v s

/-- One action after the other. -/
def perform (acts : List Action) (s : State) : State := acts.foldl (fun s a => act c a s) s

@[simp] theorem perform_append (acts acts' : List Action) (s : State) :
    perform c (acts ++ acts') s = perform c acts' (perform c acts s) :=
  List.foldl_append ..

section Outlasts
variable (region : String) (ty : Ty) (name : Option String) (pos : Span) (s : State)

@[simp] theorem requireOutlasts_scopes : (requireOutlasts c region ty name pos s).scopes = s.scopes := by
  unfold requireOutlasts
  split
  · exact requireBelow_scopes ..
  · rfl

@[simp] theorem requireOutlasts_regions :
    (requireOutlasts c region ty name pos s).regions = s.regions := by
  unfold requireOutlasts
  split
  · exact requireBelow_regions ..
  · rfl

end Outlasts

/-! ### Expressions -/

/-- Of a variable at the head of a path. -/
def rootActions (name : String) (ty : Ty) (pos : Span) : List Action :=
  (if ty.isRef then [] else [.read name none pos]) ++ [.live ty (some name) pos]

mutual

def actions : Expr Span → List Action
  | ⟨pos, ty, form⟩ => formActions pos ty form ++ [.live ty form.var? pos]

def formActions (pos : Span) (ty : Ty) : Form Span → List Action
  | .lit _ => []
  | .var name => [.consume name pos]
  | .call _ args => allActions args
  | .binary _ lhs rhs => actions lhs ++ actions rhs
  | .unary _ operand => actions operand
  | .record _ fields => valuesActions fields
  | .union _ _ slots => valuesActions slots
  | .borrow kind target => [.borrow kind target.name ty pos]
  | .deref reference => actions reference ++ [.forbid ty (.linearDeref ty.text pos) rfl]
  | .path head steps =>
    (match head.var? with
      | some name => rootActions name head.ty head.pos
      | none => actions head ++ [.forbid head.ty (.discarded none head.ty.text head.pos) rfl]) ++
    (stepsActions steps ++ [.forbid ty (.linearLeaf (rootName head) ty.text pos) rfl])

def allActions : List (Expr Span) → List Action
  | [] => []
  | e :: es => actions e ++ allActions es

def valuesActions : List (Ident Span × Expr Span) → List Action
  | [] => []
  | (_, e) :: rest => actions e ++ valuesActions rest

def stepsActions : List (Step Span) → List Action
  | [] => []
  | .field _ :: rest => stepsActions rest
  | .arrow _ :: rest => stepsActions rest
  | .index e :: rest => actions e ++ stepsActions rest

end

theorem readRoot_eq (name : String) (ty : Ty) (pos : Span) (s : State) :
    readRoot c name ty pos s = perform c (rootActions name ty pos) s := by
  unfold readRoot rootActions
  cases ty.isRef <;> rfl

mutual

/-- To evaluate an expression is to perform its actions. -/
theorem eval_eq : ∀ (e : Expr Span) (s : State), eval c e s = perform c (actions e) s
  | ⟨pos, ty, form⟩, s => by
    rw [eval, actions, perform_append, evalForm_eq pos ty form s]
    rfl

theorem evalForm_eq (pos : Span) (ty : Ty) :
    ∀ (form : Form Span) (s : State), evalForm c pos ty form s = perform c (formActions pos ty form) s
  | .lit _, s => rfl
  | .var _, s => rfl
  | .call _ args, s => evalAll_eq args s
  | .binary _ lhs rhs, s => by
    rw [evalForm, formActions, perform_append, eval_eq lhs s, eval_eq rhs]
  | .unary _ operand, s => eval_eq operand s
  | .record _ fields, s => evalValues_eq fields s
  | .union _ _ slots, s => evalValues_eq slots s
  | .borrow .., s => rfl
  | .deref reference, s => by
    rw [evalForm, formActions, perform_append, eval_eq reference s]
    rfl
  | .path head steps, s => by
    rw [evalForm, formActions, perform_append, perform_append, evalSteps_eq steps]
    cases head.var? with
    | some name => exact congrArg _ (congrArg _ (readRoot_eq c name head.ty head.pos s))
    | none =>
      dsimp only
      rw [perform_append, eval_eq head s]
      rfl

theorem evalAll_eq :
    ∀ (es : List (Expr Span)) (s : State), evalAll c es s = perform c (allActions es) s
  | [], s => rfl
  | e :: es, s => by rw [evalAll, allActions, perform_append, eval_eq e s, evalAll_eq es]

theorem evalValues_eq : ∀ (fields : List (Ident Span × Expr Span)) (s : State),
    evalValues c fields s = perform c (valuesActions fields) s
  | [], s => rfl
  | (_, e) :: rest, s => by rw [evalValues, valuesActions, perform_append, eval_eq e s, evalValues_eq rest]

theorem evalSteps_eq :
    ∀ (steps : List (Step Span)) (s : State), evalSteps c steps s = perform c (stepsActions steps) s
  | [], s => rfl
  | .field _ :: rest, s => evalSteps_eq rest s
  | .arrow _ :: rest, s => evalSteps_eq rest s
  | .index e :: rest, s => by rw [evalSteps, stepsActions, perform_append, eval_eq e s, evalSteps_eq rest]

end

/-- Whether it leaves the bindings in scope what they are, their states apart. -/
def Action.plain : Action → Bool
  | .define .. => false
  | _ => true

theorem plain_rootActions (name : String) (ty : Ty) (pos : Span) :
    (rootActions name ty pos).all Action.plain = true := by
  unfold rootActions
  cases ty.isRef <;> rfl

mutual

/-- Evaluation defines nothing. -/
theorem plain_actions : ∀ e : Expr Span, (actions e).all Action.plain = true
  | ⟨pos, ty, form⟩ => by
    rw [actions, List.all_append, plain_formActions pos ty form]
    rfl

theorem plain_formActions (pos : Span) (ty : Ty) :
    ∀ form : Form Span, (formActions pos ty form).all Action.plain = true
  | .lit _ => rfl
  | .var _ => rfl
  | .call _ args => plain_allActions args
  | .binary _ lhs rhs => by
    rw [formActions, List.all_append, plain_actions lhs, plain_actions rhs]
    rfl
  | .unary _ operand => plain_actions operand
  | .record _ fields => plain_valuesActions fields
  | .union _ _ slots => plain_valuesActions slots
  | .borrow .. => rfl
  | .deref reference => by
    rw [formActions, List.all_append, plain_actions reference]
    rfl
  | .path head steps => by
    rw [formActions, List.all_append, List.all_append, plain_stepsActions steps]
    cases head.var? with
    | some name =>
      dsimp only
      rw [plain_rootActions]
      rfl
    | none =>
      dsimp only
      rw [List.all_append, plain_actions head]
      rfl

theorem plain_allActions : ∀ es : List (Expr Span), (allActions es).all Action.plain = true
  | [] => rfl
  | e :: es => by
    rw [allActions, List.all_append, plain_actions e, plain_allActions es]
    rfl

theorem plain_valuesActions :
    ∀ fields : List (Ident Span × Expr Span), (valuesActions fields).all Action.plain = true
  | [] => rfl
  | (_, e) :: rest => by
    rw [valuesActions, List.all_append, plain_actions e, plain_valuesActions rest]
    rfl

theorem plain_stepsActions : ∀ steps : List (Step Span), (stepsActions steps).all Action.plain = true
  | [] => rfl
  | .field _ :: rest => plain_stepsActions rest
  | .arrow _ :: rest => plain_stepsActions rest
  | .index e :: rest => by
    rw [stepsActions, List.all_append, plain_actions e, plain_stepsActions rest]
    rfl

end

/-! ### Statements without a block -/

/-- Actions whose statement regions are closed after them. -/
def closing (pos : Span) (acts : List Action) (s : State) : State :=
  closeStatements s.regions.length pos (perform c acts s)

theorem evalClosed_eq (e : Expr Span) (s : State) : evalClosed c e s = closing c e.pos (actions e) s := by
  rw [evalClosed, closing, eval_eq]

def unpackActions (parts : List (Unpacked Span)) : List Action :=
  parts.flatMap fun part => [.live part.ty (some part.name.name) part.pos,
    .define part.name.name part.ty part.name.pos]

/-- Whether all it may change is which bindings there are. -/
def Action.binds : Action → Bool
  | .define .. | .live .. => true
  | _ => false

theorem binds_unpackActions (parts : List (Unpacked Span)) :
    (unpackActions parts).all Action.binds = true := by
  unfold unpackActions
  rw [List.all_flatMap]
  exact List.all_eq_true.mpr fun _ _ => rfl

theorem unpack_eq (parts : List (Unpacked Span)) (s : State) :
    unpack c parts s = perform c (unpackActions parts) s := by
  unfold unpack
  induction parts generalizing s with
  | nil => rfl
  | cons part parts ih => exact ih (unpackPart c s part)

/-- Of the admission to write behind `head`. -/
def admitActions (head value : Expr Span) (pos : Span) : List Action :=
  match head.ty with
  | .ref .read .. => [.refuse (.writeThroughRead (rootName head) pos) rfl]
  | .ref .write region _ => [.outlast region value.ty head.var? value.pos]
  | _ =>
    match head.var? with
    | some name => [.read name (some .unfrozenRoot) pos, .outlive name value.ty value.pos]
    | none => []

/-- What is not written behind a reference belongs to the variable at its head. -/
theorem admitActions_of_plain {head : Expr Span} (h : head.ty.isRef = false) (value : Expr Span) (pos : Span) :
    admitActions head value pos = head.var?.elim [] fun name =>
      [.read name (some .unfrozenRoot) pos, .outlive name value.ty value.pos] := by
  unfold admitActions
  cases hty : head.ty with
  | ref => rw [hty] at h; cases h
  | _ => cases head.var? <;> rfl

/-- Of the head of a path that is written to: a variable there is not moved. -/
def headActions (head : Expr Span) : List Action :=
  match head.var? with
  | some name => [.live head.ty (some name) head.pos]
  | none => actions head

def placeActions (ty : Ty) (head : Expr Span) (steps : List (Step Span)) (value : Expr Span)
    (pos : Span) : List Action :=
  headActions head ++ (stepsActions steps ++ (admitActions head value pos ++
    [.forbid ty (.discarded head.var? ty.text pos) rfl]))

def storeActions (target value : Expr Span) (pos : Span) : List Action :=
  match target.form with
  | .var name => [.outlive name value.ty value.pos, .overwrite name pos]
  | .path head steps => placeActions target.ty head steps value pos
  | .deref reference => placeActions target.ty reference [] value pos
  | _ => actions target

theorem admitWrite_eq (head value : Expr Span) (pos : Span) (s : State) :
    admitWrite c head value pos s = perform c (admitActions head value pos) s := by
  unfold admitWrite admitActions
  cases head.ty with
  | ref kind region referent => cases kind <;> rfl
  | _ => cases head.var? <;> rfl

theorem writePlace_eq (ty : Ty) (head : Expr Span) (steps : List (Step Span)) (value : Expr Span)
    (pos : Span) (s : State) :
    writePlace c ty head steps value pos s = perform c (placeActions ty head steps value pos) s := by
  unfold writePlace placeActions headActions
  rw [perform_append, perform_append, perform_append, ← admitWrite_eq, ← evalSteps_eq]
  cases head.var? with
  | some name => rfl
  | none =>
    rw [← eval_eq]
    rfl

theorem store_eq (target value : Expr Span) (pos : Span) (s : State) :
    store c target value pos s = perform c (storeActions target value pos) s := by
  unfold store storeActions
  cases target.form with
  | var name => rfl
  | path head steps => exact writePlace_eq ..
  | deref reference => exact writePlace_eq ..
  | _ => exact eval_eq ..

theorem plain_admitActions (head value : Expr Span) (pos : Span) :
    (admitActions head value pos).all Action.plain = true := by
  unfold admitActions
  cases head.ty with
  | ref kind region referent => cases kind <;> rfl
  | _ => cases head.var? <;> rfl

theorem plain_headActions (head : Expr Span) : (headActions head).all Action.plain = true := by
  unfold headActions
  cases head.var? with
  | some name => rfl
  | none => exact plain_actions head

theorem plain_placeActions (ty : Ty) (head : Expr Span) (steps : List (Step Span)) (value : Expr Span)
    (pos : Span) : (placeActions ty head steps value pos).all Action.plain = true := by
  rw [placeActions, List.all_append, List.all_append, List.all_append, plain_headActions,
    plain_stepsActions, plain_admitActions]
  rfl

theorem plain_storeActions (target value : Expr Span) (pos : Span) :
    (storeActions target value pos).all Action.plain = true := by
  unfold storeActions
  cases target.form with
  | var name => rfl
  | path head steps => exact plain_placeActions ..
  | deref reference => exact plain_placeActions ..
  | _ => exact plain_actions target

section Statements
variable (pos : Span) (s : State)

theorem bind_eq (name : Ident Span) (ty : Ty) (value : Expr Span) : bind c pos name ty value s =
    perform c [.live ty (some name.name) pos, .define name.name ty name.pos]
      (closing c value.pos (actions value) s) := by
  rw [bind, evalClosed_eq]
  rfl

theorem assign_eq (target value : Expr Span) : assign c pos target value s =
    closing c pos (actions value ++ storeActions target value pos) s := by
  rw [assign, closing, perform_append, ← eval_eq, ← store_eq]

theorem discard_eq (value : Expr Span) : discard c pos value s =
    closing c pos
      (actions value ++ [.forbid value.ty (.discarded value.var? value.ty.text pos) rfl]) s := by
  rw [discard, closing, perform_append, ← eval_eq]
  rfl

theorem ret_eq (value : Expr Span) : ret c pos value s =
    perform c [.ownRegions value.ty value.var? pos, .allConsumed pos]
      (closing c value.pos (actions value) s) := by
  rw [ret, evalClosed_eq]
  rfl

end Statements

end Check

end Linearity
