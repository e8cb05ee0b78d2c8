import Linearity.Regions
import Linearity.TypeTable
import Linearity.Usage

/-! The state of a check, and the steps that every construct is made of.

Checking a function is a walk over its body that carries a `State`: the open scopes
and regions, the events so far, and the violations found. A step is a function on
states; what it may consult, the types and the settings, is a `Context`. -/
namespace Linearity.Check

structure Context where
  table : TypeTable
  kinds : Kinds
  settings : Settings

structure State where
  scopes : Scopes := .initial
  regions : Regions := []
  events : List Event := []
  /-- The violations, in the order in which they were found. -/
  found : List Violation := []
  /-- The regions already reported in the statement at hand. -/
  escaped : List String := []

variable (c : Context)

/-! ### Reports -/

/-- Whether nothing more is to be reported. -/
def halted (s : State) : Bool := c.settings.policy == .firstError && !s.found.isEmpty

def report (v : Violation) (s : State) : State :=
  if halted c s then s else {s with found := s.found ++ [v]}

def reportAll (vs : List Violation) (s : State) : State := vs.foldl (fun s v => report c v s) s

def isLinear (ty : Ty) : Bool := c.table.isLinear c.kinds ty

/-- A report if the type is linear. -/
def forbidLinear (ty : Ty) (v : Violation) (s : State) : State :=
  if isLinear c ty then report c v s else s

/-! ### Regions in types -/

/-- A region is reported once in a statement. -/
def reportEscape (name : Option String) (pos : Span) (s : State) (region : String) : State :=
  if region ∈ s.escaped then s
  else report c (.regionEscapes name region pos) {s with escaped := region :: s.escaped}

def reportEscapes (regions : List String) (name : Option String) (pos : Span) (s : State) : State :=
  regions.foldl (reportEscape c name pos) s

/-- Every region of the type must be open. `name` is what has the type. -/
def requireLive (ty : Ty) (name : Option String) (pos : Span) (s : State) : State :=
  reportEscapes c (ty.regions.filter fun r => !s.regions.isLive r) name pos s

/-- Every open region of the type must have a position below `limit`. -/
def requireBelow (ty : Ty) (limit : Nat) (name : Option String) (pos : Span) (s : State) : State :=
  reportEscapes c (ty.regions.filter fun r => (s.regions.position? r).any fun p => limit ≤ p)
    name pos s

/-- What is stored in `name` may mention the regions open where `name` was defined. -/
def requireOutlives (name : String) (ty : Ty) (pos : Span) (s : State) : State :=
  match s.scopes.lookup name with
  | some (_, b) => requireBelow c ty b.regionDepth (some name) pos s
  | none => s

/-! ### Bindings -/

def log (event : Event) (s : State) : State := {s with events := s.events ++ [event]}

def define (name : String) (ty : Ty) (pos : Span) (s : State) : State :=
  let univ := c.table.classify c.kinds ty
  let b : Binding := {name, ty, univ, definedAt := pos, regionDepth := s.regions.length}
  {log (.define name pos univ.isLinear) s with scopes := (s.scopes.define b).2}

/-- The outcome of a move: its event if it was made, a report if it is wrong. -/
def settle (outcome : Except Violation (Option BindingId) × Scopes) (event : Event) (s : State) :
    State :=
  match outcome with
  | (.ok (some _), scopes) => {log event s with scopes}
  | (.ok none, _) => s
  | (.error v, _) => report c v s

def consume (name : String) (pos : Span) (s : State) : State :=
  settle c (s.scopes.consume name pos) (.consume name pos) s

def read (name : String) (reads : LeafReads) (pos : Span) (s : State) : State :=
  settle c (s.scopes.read name reads pos) (.read name pos) s

def overwrite (name : String) (pos : Span) (s : State) : State :=
  settle c (s.scopes.overwrite name pos) (.define name pos true) s

/-! ### Scopes -/

/-- Whether control goes on after a construct. -/
inductive Reach where
  | continues
  | diverges
deriving DecidableEq

def pushScope (s : State) : State := {s with scopes := s.scopes.push}

def popScope (s : State) : State := {s with scopes := s.scopes.pop.2}

/-- Close the innermost scope. If control reaches its end, all its linear bindings
must be consumed there. -/
def leaveScope (reach : Reach) (scopeEnd : Span) (s : State) : State :=
  if reach = .continues ∧ halted c s = false then
    reportAll c (s.scopes.pop.1.exitViolations scopeEnd) (popScope s)
  else popScope s

/-! ### Borrows -/

def attach (kind : RefKind) (name : String) (id : BindingId) (region : String) (pos : Span)
    (froze : Bool) (s : State) : State :=
  {log (.borrow name kind region pos) s with
    regions := s.regions.attach region ⟨kind, id, pos, froze⟩}

/-- Whether a borrow may go beside an earlier one, which stands in `region`: both
read, and the binding is free or both belong to one statement. -/
def mayShare (kind : RefKind) (linear shareable : Bool) (region : Region) (prior : Reference) :
    Bool :=
  kind == .read && prior.kind == .read &&
    (!linear || (shareable && region.kind == .statement))

/-- Take a reference to a binding into a region. The first reference freezes a linear
binding. -/
def borrowBinding (kind : RefKind) (name : String) (id : BindingId) (region : String) (pos : Span)
    (shareable : Bool) (s : State) : State :=
  match s.regions.referenceTo id with
  | some (holder, prior) =>
    if mayShare kind ((s.scopes.get? id).any Binding.isLinear) shareable holder prior then
      attach kind name id region pos false s
    else report c (.borrowConflict name prior.pos pos) s
  | none =>
    match s.scopes.freeze name kind pos with
    | (.ok frozen, scopes) => attach kind name id region pos frozen.isSome {s with scopes}
    | (.error v, _) => report c v s

/-- End the borrows of a closed region. -/
def release (pos : Span) (s : State) (region : Region) : State :=
  let frozen := region.references.filter Reference.froze
  {log (.close region.name pos) s with
    scopes := frozen.foldl (fun scopes r => scopes.thaw r.binding) s.scopes}

def closeRegion (pos : Span) (s : State) : State :=
  match s.regions with
  | [] => s
  | r :: outer => release pos {s with regions := outer} r

/-- Close the statement regions above the first `base` regions. -/
def closeStatements (base : Nat) (pos : Span) (s : State) : State :=
  let closing := s.regions.closeStatements base
  closing.1.foldl (release pos) {s with regions := closing.2}

end Linearity.Check
