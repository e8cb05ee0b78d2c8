import Linearity.Settings
import Linearity.Ty
import Linearity.Universe
import Linearity.Violation

/-! Bindings and the scopes that hold them.

A linear binding is unconsumed, consumed, or frozen by a borrow. `Binding.consume`,
`read`, `freeze` and `overwrite` are the moves between these states, each with the
violation that a wrong move is. `Scopes` is the stack of open scopes, the innermost
and the newest binding first; `Scopes.attempt` makes a move on the binding that a
name refers to. Free bindings are not followed.

A binding's id counts from the outside, the scopes around its scope and the older
bindings of its scope, so that it stays good while scopes are opened and closed
inside. -/
namespace Linearity

inductive BindingState where
  | unconsumed
  | consumed (pos : Span)
  | frozen (kind : RefKind) (pos : Span)
deriving DecidableEq

def BindingState.isConsumed : BindingState → Bool
  | .consumed _ => true
  | .unconsumed | .frozen .. => false

structure Binding where
  name : String
  ty : Ty
  univ : Universe
  definedAt : Span
  /-- How many regions are open where it is defined. -/
  regionDepth : Nat
  state : BindingState := .unconsumed

namespace Binding

def isLinear (b : Binding) : Bool := b.univ.isLinear

/-- Whether it holds a value that must still be consumed. -/
def isLive (b : Binding) : Bool := b.isLinear && !b.state.isConsumed

/-- The value is moved out. -/
def consume (b : Binding) (pos : Span) : Except Violation BindingState :=
  match b.state with
  | .unconsumed => .ok (.consumed pos)
  | .consumed first | .frozen _ first => .error (.consumedTwice b.name first pos)

/-- A part of the value is looked at. -/
def read (b : Binding) (reads : LeafReads) (pos : Span) : Except Violation BindingState :=
  match b.state with
  | .unconsumed => .ok b.state
  | .frozen kind prior =>
    if kind = .read ∧ reads = .any then .ok b.state else .error (.borrowConflict b.name prior pos)
  | .consumed consumedAt => .error (.usedAfterConsume b.name consumedAt pos)

def freeze (b : Binding) (kind : RefKind) (pos : Span) : Except Violation BindingState :=
  match b.state with
  | .unconsumed => .ok (.frozen kind pos)
  | .frozen _ prior => .error (.borrowConflict b.name prior pos)
  | .consumed consumedAt => .error (.usedAfterConsume b.name consumedAt pos)

/-- A new value is stored; the old one must be gone. -/
def overwrite (b : Binding) (pos : Span) : Except Violation BindingState :=
  match b.state with
  | .consumed _ => .ok .unconsumed
  | .unconsumed => .error (.discarded (some b.name) b.ty.text pos)
  | .frozen _ prior => .error (.borrowConflict b.name prior pos)

/-- The violation that it is for the binding to be live where its scope ends. -/
def stranded (b : Binding) (scopeEnd : Span) : Violation :=
  .unconsumed b.name b.ty.text b.definedAt scopeEnd

end Binding

structure BindingId where
  frame : Nat
  slot : Nat
deriving DecidableEq

/-- The bindings of one scope, the newest first. -/
abbrev Frame := List Binding

namespace Frame

/-- The newest binding of that name, and its slot. -/
def find? (name : String) : Frame → Option (Nat × Binding)
  | [] => none
  | b :: older => if b.name = name then some (older.length, b) else find? name older

def get? (slot : Nat) : Frame → Option Binding
  | [] => none
  | b :: older => if slot = older.length then some b else get? slot older

def modify (slot : Nat) (f : Binding → Binding) : Frame → Frame
  | [] => []
  | b :: older => if slot = older.length then f b :: older else b :: modify slot f older

/-- The bindings with their slots, the oldest first. -/
def slots : Frame → List (Nat × Binding)
  | [] => []
  | b :: older => slots older ++ [(older.length, b)]

/-- The bindings in the order of their definition. -/
def bindings (f : Frame) : List Binding := f.reverse

/-- One violation for each binding that is live where the scope ends. -/
def exitViolations (f : Frame) (scopeEnd : Span) : List Violation :=
  (f.bindings.filter Binding.isLive).map fun b => b.stranded scopeEnd

end Frame

structure Scopes where
  /-- The open scopes, the innermost first. -/
  frames : List Frame
  /-- Frames with a number below it lie outside the innermost loop. -/
  barrier : Option Nat

namespace Scopes

/-- One open scope, without bindings. -/
def initial : Scopes := ⟨[[]], none⟩

def push (s : Scopes) : Scopes := {s with frames := [] :: s.frames}

/-- The innermost scope, and the scopes without it. -/
def pop (s : Scopes) : Frame × Scopes :=
  match s.frames with
  | [] => ([], s)
  | f :: outer => (f, {s with frames := outer})

/-- A new binding of the innermost scope; a scope is opened if none is. -/
def define (s : Scopes) (b : Binding) : BindingId × Scopes :=
  match s.frames with
  | [] => (⟨0, 0⟩, {s with frames := [[b]]})
  | f :: outer => (⟨outer.length, f.length⟩, {s with frames := (b :: f) :: outer})

def lookupIn (name : String) : List Frame → Option (BindingId × Binding)
  | [] => none
  | f :: outer =>
    match f.find? name with
    | some (slot, b) => some (⟨outer.length, slot⟩, b)
    | none => lookupIn name outer

/-- The innermost binding of that name. -/
def lookup (s : Scopes) (name : String) : Option (BindingId × Binding) := lookupIn name s.frames

def getIn (id : BindingId) : List Frame → Option Binding
  | [] => none
  | f :: outer => if id.frame = outer.length then f.get? id.slot else getIn id outer

def get? (s : Scopes) (id : BindingId) : Option Binding := getIn id s.frames

def modifyIn (id : BindingId) (f : Binding → Binding) : List Frame → List Frame
  | [] => []
  | frame :: outer =>
    if id.frame = outer.length then frame.modify id.slot f :: outer
    else frame :: modifyIn id f outer

def modify (s : Scopes) (id : BindingId) (f : Binding → Binding) : Scopes :=
  {s with frames := modifyIn id f s.frames}

def setState (s : Scopes) (id : BindingId) (state : BindingState) : Scopes :=
  s.modify id fun b => {b with state}

def entriesIn : List Frame → List (BindingId × Binding)
  | [] => []
  | f :: outer => entriesIn outer ++ f.slots.map fun (slot, b) => (⟨outer.length, slot⟩, b)

/-- The linear bindings in scope, the outermost first. -/
def linearBindings (s : Scopes) : List (BindingId × Binding) :=
  (entriesIn s.frames).filter fun (_, b) => b.isLinear

/-- The linear bindings in scope that still hold a value. -/
def live (s : Scopes) : List Binding := ((entriesIn s.frames).map Prod.snd).filter Binding.isLive

/-! ### Loops -/

/-- The barrier before, and the scopes with a barrier here. -/
def enterLoop (s : Scopes) : Option Nat × Scopes :=
  (s.barrier, {s with barrier := some s.frames.length})

def exitLoop (s : Scopes) (barrier : Option Nat) : Scopes := {s with barrier}

def outsideLoop (s : Scopes) (id : BindingId) : Bool := s.barrier.any fun bar => id.frame < bar

/-! ### Uses -/

/-- The linear binding of that name, if it may be touched here. -/
def tracked (s : Scopes) (name : String) (pos : Span) :
    Except Violation (Option (BindingId × Binding)) :=
  match s.lookup name with
  | none => .ok none
  | some (id, b) =>
    if !b.isLinear then .ok none
    else if s.outsideLoop id then .error (.usedInLoop name pos b.definedAt)
    else .ok (some (id, b))

/-- A move of the linear binding `name`: its id and the scopes after. Without such a
binding, or if the move is wrong, nothing changes. -/
def attempt (s : Scopes) (name : String) (pos : Span)
    (move : Binding → Except Violation BindingState) :
    Except Violation (Option BindingId) × Scopes :=
  match s.tracked name pos with
  | .error v => (.error v, s)
  | .ok none => (.ok none, s)
  | .ok (some (id, b)) =>
    match move b with
    | .error v => (.error v, s)
    | .ok state => (.ok (some id), s.setState id state)

def consume (s : Scopes) (name : String) (pos : Span) :
    Except Violation (Option BindingId) × Scopes :=
  s.attempt name pos fun b => b.consume pos

def read (s : Scopes) (name : String) (reads : LeafReads) (pos : Span) :
    Except Violation (Option BindingId) × Scopes :=
  s.attempt name pos fun b => b.read reads pos

def freeze (s : Scopes) (name : String) (kind : RefKind) (pos : Span) :
    Except Violation (Option BindingId) × Scopes :=
  s.attempt name pos fun b => b.freeze kind pos

def overwrite (s : Scopes) (name : String) (pos : Span) :
    Except Violation (Option BindingId) × Scopes :=
  s.attempt name pos fun b => b.overwrite pos

/-- A frozen binding is released by the end of its borrow. -/
def thaw (s : Scopes) (id : BindingId) : Scopes :=
  s.modify id fun b =>
    match b.state with
    | .frozen .. => {b with state := .unconsumed}
    | .unconsumed | .consumed _ => b

end Scopes

end Linearity
