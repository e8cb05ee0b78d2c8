import Linearity.Syntax.Span
import Linearity.Ty

/-! What a function does with its bindings, as a list of events in program order. -/
namespace Linearity

inductive Event where
  | define (name : String) (pos : Span) (linear : Bool)
  | consume (name : String) (pos : Span)
  /-- A use through a path, which consumes nothing. -/
  | read (name : String) (pos : Span)
  | borrow (name : String) (kind : RefKind) (region : String) (pos : Span)
  | close (region : String) (pos : Span)
deriving DecidableEq

/-- The binding that an event is about. -/
def Event.binding? : Event → Option String
  | .define name .. | .consume name _ | .read name _ | .borrow name .. => some name
  | .close .. => none

/-- What becomes of the bindings of one name. -/
inductive Fate where
  | moved
  | borrowed
  | untouched
deriving DecidableEq

/-- The record of an accepted function. -/
structure Usage where
  name : String
  events : List Event

namespace Usage

/-- The names consumed, as often as they are. -/
def consumes (u : Usage) : List String :=
  u.events.filterMap fun
    | .consume name _ => some name
    | _ => none

/-- The names borrowed, as often as they are. -/
def borrows (u : Usage) : List String :=
  u.events.filterMap fun
    | .borrow name .. => some name
    | _ => none

/-- A move anywhere outweighs a borrow. -/
def fate (u : Usage) (name : String) : Fate :=
  if name ∈ u.consumes then .moved else if name ∈ u.borrows then .borrowed else .untouched

/-- Every binding named by an event, by first mention. -/
def names (u : Usage) : List String := (u.events.filterMap Event.binding?).eraseDups

end Usage

end Linearity
