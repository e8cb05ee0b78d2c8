import Linearity.Check.Expr

/-! Checking statements.

Every statement is a short list of steps. Branches start from the same scopes and
are joined; a loop's body is checked once, behind a barrier that keeps it from the
linear bindings outside, and leaves the scopes as they were. -/
namespace Linearity.Check
variable (c : Context)

/-! ### Simple statements -/

def bind (pos : Span) (name : Ident Span) (ty : Ty) (value : Expr Span) (s : State) : State :=
  define c name.name ty name.pos (requireLive c ty (some name.name) pos (evalClosed c value s))

def unpackPart (s : State) (part : Unpacked Span) : State :=
  define c part.name.name part.ty part.name.pos
    (requireLive c part.ty (some part.name.name) part.pos s)

def unpack (parts : List (Unpacked Span)) (s : State) : State := parts.foldl (unpackPart c) s

def assign (pos : Span) (target value : Expr Span) (s : State) : State :=
  closeStatements s.regions.length pos (store c target value pos (eval c value s))

def discard (pos : Span) (value : Expr Span) (s : State) : State :=
  closeStatements s.regions.length pos
    (forbidLinear c value.ty (.discarded value.var? value.ty.text pos) (eval c value s))

/-- A value returned may mention the function's own regions only, and no linear
binding may be left behind. -/
def ret (pos : Span) (value : Expr Span) (s : State) : State :=
  let s := evalClosed c value s
  let s := reportEscapes c (value.ty.regions.filter fun r => !s.regions.isFunctionRegion r)
    value.var? pos s
  reportAll c (s.scopes.live.map fun b => b.stranded pos) s

/-! ### Branches -/

/-- Where a branch stands, and the scopes at its end if control reaches it. -/
structure Outcome where
  pos : Span
  exit : Option Scopes

/-- The outcome of a branch that was run from `entry`, and the state for the next. -/
def outcome (pos : Span) (entry : State) (run : Reach × State) : Outcome × State :=
  (⟨pos, if run.1 = .continues then some run.2.scopes else none⟩,
    {run.2 with scopes := entry.scopes})

/-- The branches whose end is reached. -/
def reached (outcomes : List Outcome) : List (Span × Scopes) :=
  outcomes.filterMap fun o => o.exit.map fun scopes => (o.pos, scopes)

/-- Where a binding was consumed, if it was. -/
def consumedAt (id : BindingId) (scopes : Scopes) : Option Span :=
  match (scopes.get? id).map Binding.state with
  | some (.consumed pos) => some pos
  | _ => none

/-- The state of one binding after branches: consumed if it is in any of them, and
that is a violation unless it is in all of them. -/
def joinBinding (exits : List (Span × Scopes)) (s : State) (entry : BindingId × Binding) : State :=
  let id := entry.1
  let consuming := exits.filter fun e => (consumedAt id e.2).isSome
  let keeping := exits.filter fun e => (consumedAt id e.2).isNone
  let s := if consuming.isEmpty || keeping.isEmpty then s
    else report c (.branchesDisagree entry.2.name (consuming.map Prod.fst) (keeping.map Prod.fst)) s
  match exits.findSome? fun e => consumedAt id e.2 with
  | some pos => {s with scopes := s.scopes.setState id (.consumed pos)}
  | none =>
    if (consumedAt id s.scopes).isSome then
      {s with scopes := s.scopes.setState id .unconsumed}
    else s

/-- Go on from the branches whose end is reached. -/
def join (outcomes : List Outcome) (s : State) : Reach × State :=
  if (reached outcomes).isEmpty then (.diverges, s)
  else (.continues, s.scopes.linearBindings.foldl (joinBinding c (reached outcomes)) s)

/-! ### Loops -/

def enterLoop (s : State) : State := {s with scopes := s.scopes.enterLoop.2}

/-- The barrier is again what it was before the loop. -/
def exitLoop (before s : State) : State :=
  {s with scopes := s.scopes.exitLoop before.scopes.barrier}

/-! ### Borrow blocks -/

/-- Open a region, take the reference and name it. The flag says if the region was
opened. -/
def enterBorrow (kind : RefKind) (source name region : Ident Span) (s : State) : Bool × State :=
  let entered : Bool × State :=
    match s.regions.enter region.name .explicit region.pos with
    | .ok regions => (true, {s with regions})
    | .error v => (false, report c v s)
  match entered.2.scopes.lookup source.name with
  | some (id, b) =>
    let s := if entered.1 then
        borrowBinding c kind source.name id region.name source.pos false entered.2
      else entered.2
    (entered.1, define c name.name (.ref kind region.name b.ty) name.pos (pushScope s))
  | none =>
    (entered.1, define c name.name (.ref kind region.name .unit) name.pos (pushScope entered.2))

def leaveBorrow (opened : Bool) (pos : Span) (s : State) : State :=
  if opened then closeRegion pos s else s

/-! ### The walk -/

/-- Run a statement with its own list of reported regions. -/
def apart (run : State → Reach × State) (s : State) : Reach × State :=
  let after := run {s with escaped := []}
  (after.1, {after.2 with escaped := s.escaped})

mutual

/-- A statement, its list of reported regions apart. -/
def visit : Stmt Span → State → Reach × State
  | .bind pos name ty value, s => (.continues, bind c pos name ty value s)
  | .unpack _ parts value, s => (.continues, unpack c parts (evalClosed c value s))
  | .assign pos target value, s => (.continues, assign c pos target value s)
  | .choose pos branches none, s =>
    let after := checkBranches branches s
    join c (after.1 ++ [⟨pos, some after.2.scopes⟩]) after.2
  | .choose _ branches (some block), s =>
    let after := checkBranches branches s
    let last := outcome block.pos after.2 (checkBlock block after.2)
    join c (after.1 ++ [last.1]) last.2
  | .select _ scrutinee arms, s =>
    let after := checkArms arms (evalClosed c scrutinee s)
    join c after.1 after.2
  | .loop _ cond body, s =>
    let entry := evalClosed c cond (enterLoop s)
    let after := checkBlock body entry
    (.continues, exitLoop s {after.2 with scopes := entry.scopes})
  | .count _ var first last body, s =>
    let entry := evalClosed c last (evalClosed c first (enterLoop s))
    let entry := define c var.name .int var.pos (pushScope entry)
    let after := checkBlock body entry
    (.continues, exitLoop s (popScope {after.2 with scopes := entry.scopes}))
  | .borrow pos kind source name region body, s =>
    let entered := enterBorrow c kind source name region s
    let after := checkBlock body entered.2
    (after.1, leaveBorrow entered.1 pos (leaveScope c after.1 pos after.2))
  | .ret pos value, s => (.diverges, ret c pos value s)
  | .discard pos value, s => (.continues, discard c pos value s)
  | .block body, s => checkBlock body s

def checkBlock : Block Span → State → Reach × State
  | ⟨pos, stmts⟩, s =>
    let after := checkStmts stmts (pushScope s)
    (after.1, leaveScope c after.1 pos after.2)

/-- One statement after the other, until control leaves or the check is halted. -/
def checkStmts : List (Stmt Span) → State → Reach × State
  | [], s => (.continues, s)
  | stmt :: rest, s =>
    if halted c s then (.continues, s)
    else
      let after := apart (visit stmt) s
      match after.1 with
      | .continues => checkStmts rest after.2
      | .diverges => (.diverges, after.2)

/-- The conditions are evaluated one after the other, and each branch is run from
where its condition leaves off. -/
def checkBranches : List (Branch Span) → State → List Outcome × State
  | [], s => ([], s)
  | ⟨pos, cond, body⟩ :: rest, s =>
    let entry := evalClosed c cond s
    let branch := outcome pos entry (checkBlock body entry)
    let after := checkBranches rest branch.2
    (branch.1 :: after.1, after.2)

def checkArms : List (Arm Span) → State → List Outcome × State
  | [], s => ([], s)
  | ⟨pos, _, parts, body⟩ :: rest, s =>
    let run := checkBlock body (unpack c parts (pushScope s))
    let branch := outcome pos s (run.1, leaveScope c run.1 pos run.2)
    let after := checkArms rest branch.2
    (branch.1 :: after.1, after.2)

end

def checkStmt (stmt : Stmt Span) (s : State) : Reach × State := apart (visit c stmt) s

end Linearity.Check
