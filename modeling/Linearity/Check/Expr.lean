import Linearity.Check.State

/-! Checking expressions.

`eval` moves what an expression uses: a variable is consumed, a borrow takes a
reference, a path only reads its root. A type may mention open regions only. -/
namespace Linearity.Check
variable (c : Context)

/-- Open the region that a borrow inside an expression names, unless it is one of
the statement's already. -/
def enterStatement (region : String) (pos : Span) (s : State) : Except Violation State :=
  if (s.regions.get? region).any fun r => r.kind == .statement then .ok s
  else (s.regions.enter region .statement pos).map fun regions => {s with regions}

/-- A borrow of `target`, in the region that its type names. -/
def borrowExpr (kind : RefKind) (target : String) (ty : Ty) (pos : Span) (s : State) : State :=
  match ty with
  | .ref _ region _ =>
    match enterStatement region pos s with
    | .error v => report c v s
    | .ok s =>
      match s.scopes.lookup target with
      | some (id, _) => borrowBinding c kind target id region pos true s
      | none => s
  | _ => s

/-- A variable at the head of a path is read; behind a reference, its referent is. -/
def readRoot (name : String) (ty : Ty) (pos : Span) (s : State) : State :=
  requireLive c ty (some name) pos
    (if ty.isRef then s else read c name c.settings.leafReads pos s)

/-- What a path is called after: the variable at its head, or else the head's type. -/
def rootName (head : Expr Span) : String := head.var?.getD head.ty.text

mutual

/-- Evaluate an expression where its value is moved. -/
def eval : Expr Span → State → State
  | ⟨pos, ty, form⟩, s => requireLive c ty form.var? pos (evalForm pos ty form s)

def evalForm (pos : Span) (ty : Ty) : Form Span → State → State
  | .lit _, s => s
  | .var name, s => consume c name pos s
  | .call _ args, s => evalAll args s
  | .binary _ lhs rhs, s => eval rhs (eval lhs s)
  | .unary _ operand, s => eval operand s
  | .record _ fields, s => evalValues fields s
  | .union _ _ slots, s => evalValues slots s
  | .borrow kind target, s => borrowExpr c kind target.name ty pos s
  | .deref reference, s => forbidLinear c ty (.linearDeref ty.text pos) (eval reference s)
  | .path head steps, s =>
    let s := match head.var? with
      | some name => readRoot c name head.ty head.pos s
      | none => forbidLinear c head.ty (.discarded none head.ty.text head.pos) (eval head s)
    forbidLinear c ty (.linearLeaf (rootName head) ty.text pos) (evalSteps steps s)

def evalAll : List (Expr Span) → State → State
  | [], s => s
  | e :: es, s => evalAll es (eval e s)

def evalValues : List (Ident Span × Expr Span) → State → State
  | [], s => s
  | (_, e) :: rest, s => evalValues rest (eval e s)

/-- Only an index is evaluated. -/
def evalSteps : List (Step Span) → State → State
  | [], s => s
  | .field _ :: rest, s => evalSteps rest s
  | .arrow _ :: rest, s => evalSteps rest s
  | .index e :: rest, s => evalSteps rest (eval e s)

end

/-- Evaluate an operand of a statement and close the regions of its borrows. -/
def evalClosed (e : Expr Span) (s : State) : State :=
  closeStatements s.regions.length e.pos (eval c e s)

/-! ### Assignments -/

/-- Whether the place may be written, and for how long its owner lives. -/
def admitWrite (head : Expr Span) (value : Expr Span) (pos : Span) (s : State) : State :=
  match head.ty with
  | .ref .read .. => report c (.writeThroughRead (rootName head) pos) s
  | .ref .write region _ =>
    match s.regions.position? region with
    | some limit => requireBelow c value.ty limit head.var? value.pos s
    | none => s
  | _ =>
    match head.var? with
    | some name =>
      requireOutlives c name value.ty value.pos (read c name .unfrozenRoot pos s)
    | none => s

/-- Store into the place of type `ty` that `steps` lead to from `head`. -/
def writePlace (ty : Ty) (head : Expr Span) (steps : List (Step Span)) (value : Expr Span)
    (pos : Span) (s : State) : State :=
  let s := match head.var? with
    | some name => requireLive c head.ty (some name) head.pos s
    | none => eval c head s
  forbidLinear c ty (.discarded head.var? ty.text pos)
    (admitWrite c head value pos (evalSteps c steps s))

def store (target value : Expr Span) (pos : Span) (s : State) : State :=
  match target.form with
  | .var name => overwrite c name pos (requireOutlives c name value.ty value.pos s)
  | .path head steps => writePlace c target.ty head steps value pos s
  | .deref reference => writePlace c target.ty reference [] value pos s
  | _ => eval c target s

end Linearity.Check
