import Mathlib
import Linearity.Proofs.Exposure

/-! A rejected function has a path that goes wrong.

The main statement, `rejection_has_path`, is about every function in which each selection
has an arm. If it is rejected, something is found along one path through it, with no join
to blame. And branches that are reported to disagree do disagree in earnest: whichever
consumes the binding and whichever keeps it, after one of the two there is a path on which
the binding is consumed again, used after it was consumed, overwritten, or left behind. -/
namespace Linearity

theorem Violation.mem_sorted {v : Violation} {found : List Violation} (h : v ∈ Violation.sorted found) : v ∈ found :=
  List.mem_mergeSort.mp h

namespace Check
variable {c : Context} {f : FunDef Span} {v : Violation}

/-- Something is found along a path through the function. -/
def FoundOnPath (c : Context) (f : FunDef Span) : Prop :=
  ∃ r, ∃ path : Path (.block f.body) r, (path.runFunction c true f).found ≠ []

/-- Along a path through the function, one of two branches is left and then the binding is misused. -/
def MisusedAfter (c : Context) (f : FunDef Span) (name : String) (one other : Span) : Prop :=
  ∃ r, ∃ path : Path (.block f.body) r, ∃ exit ∈ path.exits c true (entryState c f),
    (exit.1 = one ∨ exit.1 = other) ∧ Misuse name exit.2 (path.runFunction c true f)

/-- What paths through the function say of a violation. -/
def Revealed (c : Context) (f : FunDef Span) : Violation → Prop
  | .branchesDisagree name consuming keeping => (consuming ≠ [] ∧ keeping ≠ []) ∧
    ∀ one ∈ consuming, ∀ other ∈ keeping, MisusedAfter c f name one other
  | _ => FoundOnPath c f

theorem MisusedAfter.found {name : String} {one other : Span} (h : MisusedAfter c f name one other) :
    FoundOnPath c f := by
  obtain ⟨r, path, _, _, _, w, hw, _⟩ := h
  exact ⟨r, path, List.ne_nil_of_mem (List.mem_of_mem_drop hw)⟩

theorem Revealed.found (h : Revealed c f v) : FoundOnPath c f := by
  cases v with
  | branchesDisagree name consuming keeping =>
    obtain ⟨⟨hconsuming, hkeeping⟩, hall⟩ := h
    obtain ⟨one, hone⟩ := List.exists_mem_of_ne_nil _ hconsuming
    obtain ⟨other, hother⟩ := List.exists_mem_of_ne_nil _ hkeeping
    exact (hall one hone other hother).found
  | _ => exact h

theorem revealed_of_found (hproper : v.isDisagreement = false) (h : FoundOnPath c f) : Revealed c f v := by
  cases v with
  | branchesDisagree => cases hproper
  | _ => exact h

/-! ### Where violations come from -/

theorem proper_entryState (hv : v ∈ (entryState c f).found) : v.isDisagreement = false := by
  refine entryState_induction c (P := fun s => ∀ v ∈ s.found, v.isDisagreement = false) nofun
    (fun s r hs => ?_) (fun _ _ hs => hs) f v hv
  unfold enterFunctionRegion
  split
  · exact hs
  · rename_i w herror
    intro v hv
    rcases mem_report c hv with hv | rfl
    · exact hs v hv
    · unfold Regions.enter at herror
      split at herror
      · cases herror
        rfl
      · cases herror

theorem grows_runFunction {r : Reach} (path : Path (.block f.body) r) :
    (path.run c true (entryState c f)).found <+: (path.runFunction c true f).found := by
  cases r with
  | continues => exact (grown_leaveScope ..).found
  | diverges => exact List.prefix_rfl

/-- Where a function ends, no binding is left to be in conflict. -/
theorem no_conflict_runFunction (path : Path (.block f.body) .continues) {id : BindingId} {name : String} {q : State} :
    ¬ Conflict id name (path.runFunction c true f) q := by
  intro h
  obtain ⟨b, hb, _⟩ := h.holds
  have hone := (kept_run_block (c := c) path (ready_entryState c f)).frames_length.trans (entryState_scopes c f).2
  have hend : (path.runFunction c true f).scopes = (path.run c true (entryState c f)).scopes.pop.2 :=
    leaveScope_scopes ..
  rw [hend, Scopes.get?_pop, hone, if_neg (by omega)] at hb
  cases hb

/-- Two paths that end the body in conflict: the scope of the parameters is left on both. -/
theorem misusedAfter_of_split (hc : c.Thorough) {id : BindingId} {name : String} {one other : Span}
    (h : Split c (.block f.body) id name one other (entryState c f)) : MisusedAfter c f name one other := by
  obtain ⟨first, second, ⟨u, hu⟩, ⟨u', hu'⟩, hconflict⟩ := h
  rcases (tells_leaveScope hc f.pos).tells hconflict with hmis | hmis | ⟨_, hkept⟩
  · exact ⟨_, second, _, hu', .inr rfl, hmis.mono (found_of_exit hu') List.prefix_rfl⟩
  · exact ⟨_, first, _, hu, .inl rfl, hmis.mono (found_of_exit hu) List.prefix_rfl⟩
  · exact absurd hkept (no_conflict_runFunction second)

theorem Exposed.revealed (hc : c.Thorough) (h : Exposed c (.block f.body) (entryState c f) v) : Revealed c f v := by
  have hhonest := honest_entryState c f
  cases v with
  | branchesDisagree name consuming keeping =>
    refine ⟨h.1, fun one hone other hother => ?_⟩
    obtain ⟨id, hall⟩ := h.2 one hone other hother
    rcases hall _ hhonest rfl with ⟨r, path, exit, hexit, hwhich, hmis⟩ | hsplit
    · exact ⟨r, path, exit, hexit, hwhich, hmis.mono List.prefix_rfl (grows_runFunction path)⟩
    · exact misusedAfter_of_split hc hsplit
  | _ =>
    obtain ⟨id, hall⟩ := h
    obtain ⟨r, path, hfound⟩ := hall _ hhonest rfl
    exact ⟨r, path, ne_nil_of_prefix (grows_runFunction path) hfound⟩

/-- Whatever a thorough check finds in a function, paths reveal. -/
theorem revealed_runFunction (hc : c.Thorough) (harmed : f.body.armed = true) (hv : v ∈ (runFunction c f).found) :
    Revealed c f v := by
  have hready := ready_entryState c f
  have hbody : ∀ v ∈ (checkBlock c f.body (entryState c f)).2.found, Revealed c f v := fun v hv => by
    rcases exposes_checkBlock hc f.body harmed hready v hv with hv | hv
    · obtain ⟨r, ⟨path⟩⟩ := passable_block f.body harmed
      have hrun := ((faithful_run c true path).grown (entryState c f)).found.trans (grows_runFunction path)
      exact revealed_of_found (proper_entryState hv) ⟨r, path, ne_nil_of_prefix hrun (List.ne_nil_of_mem hv)⟩
    · exact hv.revealed hc
  cases hreach : (checkBlock c f.body (entryState c f)).1 with
  | diverges =>
    have hv' : v ∈ (leaveScope c .diverges f.pos (checkBlock c f.body (entryState c f)).2).found := hreach ▸ hv
    exact hbody v hv'
  | continues =>
    have hv' : v ∈ (leaveScope c .continues f.pos (checkBlock c f.body (entryState c f)).2).found := hreach ▸ hv
    rcases (faithful_leaveScope c f.pos).found hv' with hv | ⟨hproper, id, hall⟩
    · exact hbody v hv
    · obtain ⟨path, _, hend⟩ := tracked_checkBlock hc f.body hready hreach id _ rfl
      have hhonest := ((faithful_run c true path).grown _).honest (honest_entryState c f)
      exact revealed_of_found hproper ⟨_, path, hall _ hhonest hend⟩

/-! ### Rejections -/

/-- A function is rejected only if something is found along a path through it, and branches are
reported to disagree only if after one of them a path misuses the binding. To see that misuse
a path has to report whatever it finds, also where the check has stopped at the first. -/
theorem rejection_has_path {T : TypeTable} {settings : Settings} {found : List Violation}
    (harmed : f.body.armed = true) (hrejected : checkFunction T settings f = .error found) :
    let c : Context := ⟨T, .ofParams f.typeParams, settings⟩
    FoundOnPath c f ∧ ∀ name consuming keeping, .branchesDisagree name consuming keeping ∈ found →
      (consuming ≠ [] ∧ keeping ≠ []) ∧
        ∀ one ∈ consuming, ∀ other ∈ keeping, MisusedAfter c.thorough f name one other := by
  intro c
  obtain ⟨rfl, hsome⟩ := found_of_error hrejected
  have hall : ∀ v ∈ (runFunction c f).found, Revealed c.thorough f v := fun v hv =>
    revealed_runFunction c.thorough_thorough harmed ((found_runFunction c f).subset hv)
  refine ⟨?_, fun name consuming keeping hv => hall _ (Violation.mem_sorted hv)⟩
  obtain ⟨v, hv⟩ := List.exists_mem_of_ne_nil _ hsome
  obtain ⟨r, path, hfound⟩ := (hall v hv).found
  exact ⟨r, path, found_of_thorough c hfound⟩

/-- A function that closes its parameter in the first of two arms only. -/
def keeper : FunDef Span where
  pos := ⟨12, 1⟩
  name := ⟨⟨0, 1⟩, "keeper"⟩
  typeParams := [⟨⟨1, 1⟩, ⟨⟨1, 1⟩, "A"⟩, .linear⟩]
  params := [⟨⟨2, 1⟩, ⟨⟨2, 1⟩, "x"⟩, .param "A"⟩]
  ret := .unit
  body := ⟨⟨11, 1⟩, [
    .select ⟨3, 1⟩ ⟨⟨4, 1⟩, .bool, .call ⟨⟨4, 1⟩, "pick"⟩ []⟩ [
      ⟨⟨5, 1⟩, ⟨⟨5, 1⟩, "Give"⟩, [], ⟨⟨6, 1⟩, [.discard ⟨7, 1⟩ ⟨⟨7, 1⟩, .unit,
        .call ⟨⟨7, 1⟩, "close"⟩ [⟨⟨8, 1⟩, .param "A", .var "x"⟩]⟩]⟩⟩,
      ⟨⟨9, 1⟩, ⟨⟨9, 1⟩, "Keep"⟩, [], ⟨⟨10, 1⟩, []⟩⟩]]⟩

/-- Its one violation is the disagreement, and after one of the arms `x` is misused. -/
theorem rejection_has_path_keeper :
    let c : Context := ⟨⟨[]⟩, .ofParams keeper.typeParams, {}⟩
    checkFunction ⟨[]⟩ {} keeper = .error [.branchesDisagree "x" [⟨5, 1⟩] [⟨9, 1⟩]] ∧
      FoundOnPath c keeper ∧ MisusedAfter c.thorough keeper "x" ⟨5, 1⟩ ⟨9, 1⟩ := by
  intro c
  have hfound : (runFunction c keeper).found = [.branchesDisagree "x" [⟨5, 1⟩] [⟨9, 1⟩]] := by cbv
  have hrejected : checkFunction ⟨[]⟩ {} keeper = .error [.branchesDisagree "x" [⟨5, 1⟩] [⟨9, 1⟩]] := by
    unfold checkFunction
    dsimp only
    rw [hfound]
    simp [Violation.sorted]
  obtain ⟨hfound, hall⟩ := rejection_has_path (f := keeper) rfl hrejected
  have hmis := (hall "x" [⟨5, 1⟩] [⟨9, 1⟩] (List.mem_singleton_self _)).2
  exact ⟨hrejected, hfound, hmis _ (List.mem_singleton_self _) _ (List.mem_singleton_self _)⟩

end Check

end Linearity
