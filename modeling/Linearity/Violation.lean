import Linearity.Syntax.Span

/-! What the checker can find wrong, and how it is told.

A `Violation` is a cause with the places that show it. Its message, code, help and
labels are worked out from the cause here and nowhere else. Types are kept as
their text. -/
namespace Linearity

inductive Violation where
  /-- A linear binding still holds its value when its scope ends. -/
  | unconsumed (name ty : String) (definedAt scopeEnd : Span)
  /-- A linear binding is consumed when it was consumed or borrowed before. -/
  | consumedTwice (name : String) (first second : Span)
  /-- Some branches consume a binding and some do not. -/
  | branchesDisagree (name : String) (consumedIn notConsumedIn : List Span)
  /-- A linear binding is touched inside a loop that it is defined outside of. -/
  | usedInLoop (name : String) (usedAt definedAt : Span)
  /-- A linear value is dropped. -/
  | discarded (name : Option String) (ty : String) (pos : Span)
  /-- A type mentions a region that is not open, or not open for long enough. -/
  | regionEscapes (name : Option String) (region : String) (pos : Span)
  /-- A binding or a region is in use by an earlier borrow. -/
  | borrowConflict (name : String) (prior pos : Span)
  | usedAfterConsume (name : String) (consumedAt usedAt : Span)
  /-- Dereferencing would copy a linear value. -/
  | linearDeref (ty : String) (pos : Span)
  /-- A path would copy a linear value. -/
  | linearLeaf (name ty : String) (pos : Span)
  | writeThroughRead (name : String) (pos : Span)
  /-- A type declared free has a linear field. -/
  | freeHoldsLinear (typeName field fieldTy : String) (declaredAt fieldAt : Span)
deriving DecidableEq

structure Label where
  text : String
  span : Span

namespace Violation

/-- The name of the violated rule. -/
def rule : Violation → String
  | unconsumed .. => "UnconsumedBinding"
  | consumedTwice .. => "DoubleConsumption"
  | branchesDisagree .. => "InconsistentBranchConsumption"
  | usedInLoop .. => "LinearInLoopBody"
  | discarded .. => "IllegalDiscard"
  | regionEscapes .. => "EscapingRegion"
  | borrowConflict .. => "ConflictingBorrow"
  | usedAfterConsume .. => "UseAfterConsume"
  | linearDeref .. => "LinearDereference"
  | linearLeaf .. => "LinearPathLeaf"
  | writeThroughRead .. => "WriteThroughReadReference"
  | freeHoldsLinear .. => "FreeTypeContainsLinear"

def code : Violation → String
  | unconsumed .. => "tether::linear::unconsumed_binding"
  | consumedTwice .. => "tether::linear::double_consumption"
  | branchesDisagree .. => "tether::linear::inconsistent_branch_consumption"
  | usedInLoop .. => "tether::linear::linear_in_loop_body"
  | discarded .. => "tether::linear::illegal_discard"
  | regionEscapes .. => "tether::linear::escaping_region"
  | borrowConflict .. => "tether::linear::conflicting_borrow"
  | usedAfterConsume .. => "tether::linear::use_after_consume"
  | linearDeref .. => "tether::linear::linear_dereference"
  | linearLeaf .. => "tether::linear::linear_path_leaf"
  | writeThroughRead .. => "tether::linear::write_through_read_reference"
  | freeHoldsLinear .. => "tether::linear::free_type_contains_linear"

def message : Violation → String
  | unconsumed name ty .. => s!"linear binding '{name}' of type '{ty}' is never consumed"
  | consumedTwice name .. => s!"linear binding '{name}' is consumed more than once"
  | branchesDisagree name .. =>
    s!"linear binding '{name}' is consumed in some branches but not in others"
  | usedInLoop name .. => s!"linear binding '{name}' is used inside a loop it was not defined in"
  | discarded _ ty _ => s!"value of linear type '{ty}' is discarded"
  | regionEscapes _ region _ => s!"region '{region}' is not in scope"
  | borrowConflict name .. => s!"'{name}' is already borrowed"
  | usedAfterConsume name .. => s!"linear binding '{name}' is used after it was consumed"
  | linearDeref ty _ => s!"cannot dereference a reference to linear type '{ty}'"
  | linearLeaf name ty _ => s!"path through '{name}' ends in a value of linear type '{ty}'"
  | writeThroughRead name _ => s!"cannot write through read reference '{name}'"
  | freeHoldsLinear typeName field fieldTy .. =>
    s!"type '{typeName}' is declared Free but field '{field}' has linear type '{fieldTy}'"

def help : Violation → Option String
  | unconsumed .. => some "pass the value to a function that consumes it, or return it"
  | consumedTwice .. => some
    "a linear value can be used exactly once; borrow it with `&` to read it without consuming it"
  | branchesDisagree .. => some "consume the binding in every branch, or in none of them"
  | usedInLoop .. => some <| "the loop may run any number of times; " ++
    "move the use out of the loop or borrow before entering it"
  | discarded .. => some "linear values cannot be silently dropped; bind the value and consume it"
  | regionEscapes .. => some
    "references cannot outlive the `borrow` block or statement that created them"
  | borrowConflict .. => some <| "a borrowed binding cannot be consumed, read directly, " ++
    "or borrowed again until its region closes"
  | usedAfterConsume .. => none
  | linearDeref .. => some
    "dereferencing copies the referent; only references to Free values can be dereferenced"
  | linearLeaf .. => some "destructure the record to take ownership of its linear fields"
  | writeThroughRead .. => none
  | freeHoldsLinear .. => some "declare the type Linear, or Type to decide per instantiation"

def labels : Violation → List Label
  | unconsumed _ _ definedAt scopeEnd =>
    [⟨"defined here", definedAt⟩, ⟨"still unconsumed when the scope ends here", scopeEnd⟩]
  | consumedTwice _ first second => [⟨"first used here", first⟩, ⟨"used again here", second⟩]
  | branchesDisagree _ consumedIn notConsumedIn =>
    consumedIn.map (Label.mk "consumed in this branch") ++
      notConsumedIn.map (Label.mk "not consumed in this branch")
  | usedInLoop _ usedAt definedAt =>
    [⟨"used inside the loop", usedAt⟩, ⟨"defined outside the loop", definedAt⟩]
  | discarded _ _ pos => [⟨"dropped here", pos⟩]
  | regionEscapes _ _ pos => [⟨"reference used outside its region", pos⟩]
  | borrowConflict _ prior pos => [⟨"prior borrow", prior⟩, ⟨"conflicting use", pos⟩]
  | usedAfterConsume _ consumedAt usedAt => [⟨"consumed here", consumedAt⟩, ⟨"used here", usedAt⟩]
  | linearDeref _ pos => [⟨"dereferenced here", pos⟩]
  | linearLeaf _ _ pos => [⟨"this path would copy a linear value", pos⟩]
  | writeThroughRead _ pos => [⟨"assigned here", pos⟩]
  | freeHoldsLinear _ _ _ declaredAt fieldAt =>
    [⟨"declared Free", declaredAt⟩, ⟨"linear field", fieldAt⟩]

/-- The binding, the region or the type that the violation is about. -/
def subject : Violation → String
  | unconsumed name .. | consumedTwice name .. | branchesDisagree name .. | usedInLoop name ..
  | borrowConflict name .. | usedAfterConsume name .. | linearLeaf name ..
  | writeThroughRead name _ =>
    name
  | discarded _ ty _ | linearDeref ty _ => ty
  | regionEscapes _ region _ => region
  | freeHoldsLinear typeName .. => typeName

/-- The binding that the violation is about. A temporary has none. -/
def binding : Violation → Option String
  | unconsumed name .. | consumedTwice name .. | branchesDisagree name .. | usedInLoop name ..
  | borrowConflict name .. | usedAfterConsume name .. | linearLeaf name ..
  | writeThroughRead name _ =>
    some name
  | discarded name .. | regionEscapes name .. => name
  | linearDeref .. | freeHoldsLinear .. => none

/-- The first of the spans with the least offset. -/
def leftmost : List Span → Option Span
  | [] => none
  | s :: rest =>
    match leftmost rest with
    | none => some s
    | some t => some (if t.offset < s.offset then t else s)

/-- Where the violation happens. -/
def primary : Violation → Span
  | unconsumed _ _ _ scopeEnd => scopeEnd
  | consumedTwice _ _ second => second
  | branchesDisagree _ consumedIn notConsumedIn =>
    (leftmost (consumedIn ++ notConsumedIn)).getD ⟨0, 0⟩
  | usedInLoop _ usedAt _ => usedAt
  | discarded _ _ pos | regionEscapes _ _ pos | borrowConflict _ _ pos | linearDeref _ pos
  | linearLeaf _ _ pos | writeThroughRead _ pos => pos
  | usedAfterConsume _ _ usedAt => usedAt
  | freeHoldsLinear _ _ _ _ fieldAt => fieldAt

/-- By place; those at one offset keep the order in which they were found. -/
def sorted (found : List Violation) : List Violation :=
  found.mergeSort fun a b => decide (a.primary.offset ≤ b.primary.offset)

/-- One line of text for each, in the given order. -/
def listing (found : List Violation) : String :=
  String.join (found.map fun v => s!"error[{v.rule}] at {v.primary.offset}: {v.message}\n")

end Violation

/-- A program was refused. -/
structure Failure where
  violations : List Violation

namespace Failure

def message (f : Failure) : String :=
  s!"linearity check failed with {f.violations.length} error(s)"

def code : String := "tether::linear"

end Failure

end Linearity
