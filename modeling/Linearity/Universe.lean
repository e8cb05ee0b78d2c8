/-! Universes: how often a value may be used.

A value of a free type may be used any number of times, a value of a linear type
exactly once. A definition in the universe `poly` is free or linear instance by
instance, and `region` is the universe of region names, which hold no value. -/
namespace Linearity

inductive Universe where
  | free
  | linear
  | poly
  | region
deriving DecidableEq

namespace Universe

def isLinear (u : Universe) : Bool := u == .linear

/-- Linear if either is linear, free otherwise. -/
def join (a b : Universe) : Universe :=
  if a.isLinear || b.isLinear then .linear else .free

/-- Whether a parameter of this kind may be instantiated by a linear type. -/
def admitsLinear : Universe → Bool
  | .linear | .poly => true
  | .free | .region => false

end Universe

end Linearity
