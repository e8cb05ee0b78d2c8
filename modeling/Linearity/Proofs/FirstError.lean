import Mathlib
import Linearity.Proofs.Policy
import Linearity.Proofs.Reached

/-! Stopping at the first violation.

A check that stops at the first violation accepts the functions that a thorough check
accepts, and says the same of what they do. What it rejects it rejects for one violation:
the first that the thorough check comes to (`firstError_iff_accumulate`). That need not be
the first by place: what a scope leaves behind is found at its end, and placed where the
scope begins. -/
namespace Linearity

@[simp]
theorem Violation.sorted_singleton (v : Violation) : Violation.sorted [v] = [v] := List.mergeSort_singleton v

namespace Check
variable {c : Context}

/-- A check that finds nothing is a thorough one. -/
theorem runFunction_eq_thorough {f : FunDef Span} (h : (runFunction c f).found = []) :
    runFunction c f = runFunction c.thorough f := by
  rcases heads_runFunction c f with heq | ⟨hhalted, _⟩
  · exact (Prod.mk.inj heq).2
  · exact absurd ((halted_of_clean h).symm.trans hhalted) Bool.false_ne_true

/-- A check that stops finds the first of what there is to find. -/
theorem found_firstError (hc : c.settings.policy = .firstError) (f : FunDef Span) :
    (runFunction c f).found = (runFunction c.thorough f).found.take 1 := by
  cases hfound : (runFunction c f).found with
  | nil => rw [← runFunction_eq_thorough hfound, hfound, List.take_nil]
  | cons v vs =>
    have hlength := single_runFunction c f hc
    have hprefix := List.prefix_iff_eq_take.mp (found_runFunction c f)
    rw [hfound, List.length_cons] at hlength
    have hone : (v :: vs).length = 1 := by rw [List.length_cons]; omega
    rw [hfound, hone] at hprefix
    exact hprefix

/-- With either policy the same functions are accepted, with the same usage. A function that
is rejected at the first error is rejected for one violation, the first that a thorough check
of it finds, before what is found is ordered by place. -/
theorem firstError_iff_accumulate (T : TypeTable) (settings : Settings) (f : FunDef Span) :
    let first : Settings := {settings with policy := .firstError}
    let all : Settings := {settings with policy := .accumulate}
    (∀ usage, checkFunction T first f = .ok usage ↔ checkFunction T all f = .ok usage) ∧
    ∀ found, checkFunction T first f = .error found ↔
      ∃ v, found = [v] ∧ (runFunction ⟨T, .ofParams f.typeParams, all⟩ f).found.head? = some v := by
  intro first all
  let c : Context := ⟨T, .ofParams f.typeParams, first⟩
  have hfound : (runFunction c f).found = (runFunction c.thorough f).found.take 1 := found_firstError rfl f
  cases hall : (runFunction c.thorough f).found with
  | nil =>
    -- Nothing is found, and the two runs are one.
    have hnil : (runFunction c f).found = [] := by rw [hfound, hall, List.take_nil]
    have hsame : checkFunction T first f = checkFunction T all f := by
      rw [ok_of_found hnil, runFunction_eq_thorough hnil]
      exact (ok_of_found hall).symm
    refine ⟨fun usage => hsame ▸ Iff.rfl, fun found => ?_⟩
    rw [ok_of_found hnil, show (runFunction ⟨T, .ofParams f.typeParams, all⟩ f).found = [] from hall]
    simp
  | cons v vs =>
    have hone : (runFunction c f).found = [v] := by rw [hfound, hall]; rfl
    have hfirst : checkFunction T first f = .error [v] := by
      rw [error_of_found (by rw [hone]; exact List.cons_ne_nil v []), hone, Violation.sorted_singleton]
    have hboth : checkFunction T all f = .error (Violation.sorted (v :: vs)) := by
      rw [← hall]
      exact error_of_found (hall.symm ▸ List.cons_ne_nil v vs)
    rw [hfirst, hboth, show (runFunction ⟨T, .ofParams f.typeParams, all⟩ f).found = v :: vs from hall]
    refine ⟨fun usage => ⟨nofun, nofun⟩, fun found => ?_⟩
    simp [eq_comm]

/-- A function that drops a value and forgets its parameter. -/
def forgetful : FunDef Span where
  pos := ⟨0, 8⟩
  name := ⟨⟨0, 1⟩, "forgetful"⟩
  typeParams := [⟨⟨1, 1⟩, ⟨⟨1, 1⟩, "A"⟩, .linear⟩]
  params := [⟨⟨2, 1⟩, ⟨⟨2, 1⟩, "x"⟩, .param "A"⟩]
  ret := .unit
  body := ⟨⟨4, 4⟩, [.discard ⟨5, 1⟩ ⟨⟨6, 1⟩, .param "A", .call ⟨⟨6, 1⟩, "make"⟩ []⟩]⟩

/-- The dropped value is found first, and comes last by place. -/
example : (runFunction ⟨⟨[]⟩, .ofParams forgetful.typeParams, {}⟩ forgetful).found.map
    (fun v => (v.rule, v.primary.offset)) = [("IllegalDiscard", 5), ("UnconsumedBinding", 0)] := by cbv

end Check

end Linearity
