/-! Dictionaries keyed by name, in the order their entries were written.

A later entry for a name replaces an earlier one: `get?` answers with the last. -/
namespace Linearity

structure Dict (β : Type) where
  entries : List (String × β)

namespace Dict
variable {β : Type}

/-- The last entry for `name`. -/
def find (name : String) : List (String × β) → Option β
  | [] => none
  | (key, value) :: rest => (find name rest).or (if key = name then some value else none)

def empty : Dict β := ⟨[]⟩

def get? (d : Dict β) (name : String) : Option β := find name d.entries

/-- Every name once. -/
def names (d : Dict β) : List String := (d.entries.map Prod.fst).eraseDups

/-- What `get?` answers for every name, by name. -/
def sorted (d : Dict β) : List (String × β) :=
  (d.names.mergeSort (fun a b => decide (a ≤ b))).filterMap
    fun name => (d.get? name).map fun value => (name, value)

theorem find_mem {name : String} {value : β} :
    ∀ {entries : List (String × β)}, find name entries = some value → (name, value) ∈ entries
  | (key, v) :: rest, h => by
    cases hrest : find name rest with
    | some w =>
      rw [find, hrest] at h
      cases h
      exact List.mem_cons_of_mem _ (find_mem hrest)
    | none =>
      rw [find, hrest, Option.none_or] at h
      split at h
      · cases h
        subst key
        exact List.mem_cons_self ..
      · cases h

theorem get?_mem {d : Dict β} {name : String} {value : β} (h : d.get? name = some value) :
    (name, value) ∈ d.entries :=
  find_mem h

end Dict

end Linearity
