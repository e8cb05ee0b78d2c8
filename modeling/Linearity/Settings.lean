/-! What a user may set. -/
namespace Linearity

/-- How much is reported of one function. -/
inductive ReportPolicy where
  | accumulate
  /-- Only the first violation. -/
  | firstError
deriving DecidableEq

/-- When a free part of a linear binding may be read while the binding is borrowed. -/
inductive LeafReads where
  /-- Never. -/
  | unfrozenRoot
  /-- While it is borrowed for reading. -/
  | any
deriving DecidableEq

structure Settings where
  policy : ReportPolicy := .accumulate
  /-- Whether functions may be checked side by side; answers do not depend on it. -/
  parallel : Bool := true
  leafReads : LeafReads := .unfrozenRoot
deriving DecidableEq

end Linearity
