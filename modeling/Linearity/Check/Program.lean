import Linearity.Check.Stmt

/-! Checking functions and programs. -/
namespace Linearity
namespace Check

variable (c : Context)

def enterFunctionRegion (s : State) (region : Ident Span) : State :=
  match s.regions.enter region.name .function region.pos with
  | .ok regions => {s with regions}
  | .error v => report c v s

def defineParam (s : State) (p : Slot Span) : State := define c p.name.name p.ty p.pos s

/-- The state in which a function's body is entered: its regions open, its
parameters in the outermost scope. -/
def entryState (f : FunDef Span) : State :=
  f.params.foldl (defineParam c) (f.regions.foldl (enterFunctionRegion c) {})

/-- The state after the whole function. -/
def runFunction (f : FunDef Span) : State :=
  let after := checkBlock c f.body (entryState c f)
  leaveScope c after.1 f.pos after.2

end Check

open Check

/-- Check one function against a type table. What is wrong is ordered by place. -/
def checkFunction (T : TypeTable) (settings : Settings) (f : FunDef Span) :
    Except (List Violation) Usage :=
  let s := runFunction ⟨T, .ofParams f.typeParams, settings⟩ f
  if s.found.isEmpty then .ok ⟨f.name.name, s.events⟩ else .error (Violation.sorted s.found)

/-- What an accepted program does, function by function. -/
structure Report where
  functions : List Usage

/-- The first function of that name. -/
def Report.function? (r : Report) (name : String) : Option Usage :=
  r.functions.find? fun u => u.name == name

/-- Check a program: its type definitions, and if they are sound its functions, each
on its own. -/
def checkProgram (settings : Settings) (p : Program Span) : Except Failure Report :=
  let T := TypeTable.ofDefs p.types
  let unsound := T.validate p.types
  if !unsound.isEmpty then .error ⟨Violation.sorted unsound⟩
  else
    let results := p.functions.map (checkFunction T settings)
    let violations := results.flatMap fun
      | .ok _ => []
      | .error vs => vs
    if violations.isEmpty then
      .ok ⟨results.filterMap fun
        | .ok usage => some usage
        | .error _ => none⟩
    else .error ⟨violations⟩

end Linearity
