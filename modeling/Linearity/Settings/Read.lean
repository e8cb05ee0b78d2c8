import Linearity.Settings
import Linearity.Toml.Document

/-! Settings from a document.

The table `linearity` of a TOML document holds them; what it does not mention keeps
its default, and what it does not know it ignores. -/
namespace Linearity

/-- Why there are no settings. -/
inductive SettingsError where
  /-- There is no file at the path. -/
  | missing (path : String)
  /-- The document is not TOML, or a setting has no such value. -/
  | invalid

namespace SettingsError

def message : SettingsError → String
  | missing path => s!"config error: failed to read {path}: No such file or directory (os error 2)"
  | invalid => "config error: invalid linearity config: "

def code : String := "tether::config"

end SettingsError

def ReportPolicy.ofName? : String → Option ReportPolicy
  | "accumulate" => some .accumulate
  | "first-error" => some .firstError
  | _ => none

def LeafReads.ofName? : String → Option LeafReads
  | "unfrozen-root" => some .unfrozenRoot
  | "any" => some .any
  | _ => none

namespace Settings
open Toml

def isEmptyItem : Item → Bool
  | .array [] | .inline [] | .table _ [] => true
  | _ => false

/-- A choice by name: a text, or a table with the name as its only key and nothing
under it. -/
def choice {α : Type} (ofName? : String → Option α) : Item → Option α
  | .text name => ofName? name
  | .inline [(name, item)] | .table _ [(name, item)] =>
    if isEmptyItem item then ofName? name else none
  | _ => none

def boolean : Item → Option Bool
  | .boolean b => some b
  | _ => none

/-- The default where nothing is given. -/
def given {α : Type} (read : Item → Option α) (default : α) : Option Item → Option α
  | none => some default
  | some item => read item

def ofItems (policy parallel leafReads : Option Item) : Option Settings := do
  let defaults : Settings := {}
  some {
    policy := ← given (choice ReportPolicy.ofName?) defaults.policy policy
    parallel := ← given boolean defaults.parallel parallel
    leafReads := ← given (choice LeafReads.ofName?) defaults.leafReads leafReads }

def ofEntries (es : Entries) : Option Settings :=
  ofItems (es.get? "policy") (es.get? "parallel") (es.get? "free_leaf_reads")

/-- Settings as a table, or as a list in the order policy, parallel, reads. A date is
a record with no setting in it. -/
def ofItem : Item → Option Settings
  | .table _ es | .inline es => ofEntries es
  | .array items => ofItems items[0]? items[1]? items[2]?
  | .tables earlier last =>
    let items := (earlier ++ [last]).map (Item.table .header)
    ofItems items[0]? items[1]? items[2]?
  | .date _ => some {}
  | .text _ | .integer _ | .float _ | .boolean _ => none

def parse (text : String) : Except SettingsError Settings :=
  match Document.parse? text with
  | none => .error .invalid
  | some root =>
    match given ofItem {} (root.get? "linearity") with
    | some settings => .ok settings
    | none => .error .invalid

/-- Settings from the file at `path`, whose contents are given if there is one. -/
def load (path : String) : Option String → Except SettingsError Settings
  | none => .error (.missing path)
  | some text => parse text

end Settings

end Linearity
