import Mathlib
import Linearity.Proofs.Barrier
import Linearity.Proofs.Follow
import Linearity.Proofs.Tally
import Linearity.Proofs.Trail

/-! An accepted function uses its linear values exactly once.

The main statement, `exactly_once`, is about all paths through an accepted function,
with loops that go round any number of times and no barriers or joins: no move fails,
every linear binding is consumed when its scope ends, none is live at a return, and the
log of the path matches every linear value given to a name with one consumption. -/
namespace Linearity.Check
variable (c : Context)

/-- All linear values that were given to a name were consumed, none before it was there. -/
structure Spent (events : List Event) : Prop where
  level : ∀ name, events.countP (Event.gives name) = events.countP (Event.takes name)
  ahead : ∀ log, log <+: events → ∀ name, log.countP (Event.takes name) ≤ log.countP (Event.gives name)

/-! ### The entry of a function -/

theorem tallied_entryState (f : FunDef Span) : Tallied (entryState c f) := by
  refine entryState_induction c (P := Tallied) ?_ (fun s r hs => ?_)
    (fun s p hs => tallied_define c hs p.name.name p.ty p.pos) f
  · refine ⟨fun _ => rfl, fun log hlog name => ?_⟩
    rw [List.prefix_nil.mp hlog]
    exact Nat.le_refl _
  · unfold enterFunctionRegion
    split
    · exact hs.of_same rfl fun _ => rfl
    · exact hs.of_same (report_events ..) fun name => by rw [report_scopes]

/-! ### Returns -/

/-- Nothing is live where a path ends with a return, if the run finds nothing. -/
theorem empty_law (barred : Bool) : PathLaw c c barred barred fun r F _ =>
    r = .diverges → ∀ {s}, (F s).found = [] → (F s).scopes.live = [] where
  skip h := nomatch h
  seq _ h' hr _ hclean := h' hr hclean
  perform _ h := nomatch h
  closing _ _ _ h := nomatch h
  ret ty name pos _ s hclean := by
    have hlive := live_of_clean hclean
    exact (congrArg Scopes.live (reportAll_scopes ..)).trans hlive
  inScope {r} _ _ pos h hr s hclean := by
    subst hr
    exact h rfl hclean
  lent {r} _ _ pos kind source name region h hr s hclean := by
    subst hr
    exact h rfl hclean
  fenced {r} _ _ h hr s hclean := by
    subst hr
    cases barred <;> exact h rfl hclean
  secluded h hr s hclean := h hr (s := {s with escaped := []}) hclean

/-! ### Functions -/

section Functions
variable {c} {f : FunDef Span} {r : Reach}

/-- With barriers and without, a path through a function in which nothing is found goes the
same way and finds nothing. -/
theorem runFunction_clean (hclean : (runFunction c f).found = []) (path : Path (.block f.body) r) :
    (path.runFunction c false f).found = [] ∧ (path.run c false (entryState c f)).found = [] ∧
      (r = .continues → (path.runFunction c false f).scopes.frames = []) := by
  have hready := ready_entryState c f
  have hhonest := honest_entryState c f
  have hbody := (grown_leaveScope c _ f.pos _).eq_nil hclean
  have hentry := (grown_checkBlock c f.body _).eq_nil hbody
  obtain ⟨hfound, hends⟩ := follows path hready hhonest (fun _ => rfl) hbody hentry
  obtain ⟨hfound', hends'⟩ := follows_leaveScope hfound hends ((grown_checkBlock c f.body _).honest hhonest) hclean
  have hrun := run_unbarred c path hfound
  rw [unbarred_eq (entryState_scopes c f).1] at hrun
  have hleave : path.runFunction c false f =
      unbarred (onward r (leaveScope c .continues f.pos) (path.run c true (entryState c f))) := by
    unfold Path.runFunction
    rw [hrun]
    cases r with
    | continues => exact leaveScope_unbarred ..
    | diverges => rfl
  refine ⟨by rw [hleave]; exact hfound', by rw [hrun]; exact hfound, fun hr => ?_⟩
  -- The parameters' scope is the only one open where the body ends, there as in the walk.
  have hlen := frames_length_of_view ((hends' hr).2 ⟨0, 0⟩)
  rw [hleave]
  exact List.eq_nil_of_length_eq_zero (hlen.symm.trans (congrArg List.length (runFunction_frames c f)))

end Functions

/-- Along every path of an accepted function no move fails, every linear binding is consumed
where its scope ends, none is live at a return, and every linear value is consumed once. -/
theorem exactly_once {T : TypeTable} {settings : Settings} {f : FunDef Span} {usage : Usage}
    (hok : checkFunction T settings f = .ok usage) {r : Reach} (path : Path (.block f.body) r) :
    let c : Context := ⟨T, .ofParams f.typeParams, settings⟩
    (path.runFunction c false f).found = [] ∧ Sound (path.trailFunction c f) ∧
      Spent (path.runFunction c false f).events := by
  intro c
  obtain ⟨hfound, hbody, hframes⟩ := runFunction_clean (found_of_ok hok) path
  refine ⟨hfound, (sound_trail path hbody).append (sound_leaving hfound), ?_⟩
  have hrun := tallied_run c false path hbody (tallied_entryState c f)
  cases r with
  | continues =>
    have htally : Tallied (path.runFunction c false f) := (tallies_leaveScope c f.pos).tallied hfound hrun
    refine ⟨fun name => ?_, htally.ahead⟩
    rw [htally.level name, Scopes.liveNamed_eq, hframes rfl]
    rfl
  | diverges =>
    refine ⟨fun name => ?_, hrun.ahead⟩
    have hlevel := hrun.level name
    rw [Scopes.liveNamed, (empty_law c false).run path rfl hbody] at hlevel
    exact hlevel

/-- A call that gives a variable of type `A` away. -/
def giveAway (name : String) (at₀ : Nat) : Stmt Span :=
  .discard ⟨at₀, 1⟩ ⟨⟨at₀, 1⟩, .unit, .call ⟨⟨at₀, 1⟩, "close"⟩ [⟨⟨at₀ + 1, 1⟩, .param "A", .var name⟩]⟩

/-- A function that closes its parameter in each of two branches, and in every round of a loop
closes what it opens there. -/
def closer : FunDef Span where
  pos := ⟨20, 1⟩
  name := ⟨⟨0, 1⟩, "closer"⟩
  typeParams := [⟨⟨1, 1⟩, ⟨⟨1, 1⟩, "A"⟩, .linear⟩]
  params := [⟨⟨2, 1⟩, ⟨⟨2, 1⟩, "x"⟩, .param "A"⟩]
  ret := .unit
  body := ⟨⟨19, 1⟩, [
    .choose ⟨3, 1⟩ [⟨⟨4, 1⟩, ⟨⟨4, 1⟩, .bool, .lit (.bool true)⟩, ⟨⟨5, 1⟩, [giveAway "x" 6]⟩⟩]
      (some ⟨⟨8, 1⟩, [giveAway "x" 9]⟩),
    .loop ⟨11, 1⟩ ⟨⟨12, 1⟩, .bool, .lit (.bool true)⟩ ⟨⟨13, 1⟩, [
      .bind ⟨14, 1⟩ ⟨⟨14, 1⟩, "y"⟩ (.param "A") ⟨⟨15, 1⟩, .param "A", .call ⟨⟨15, 1⟩, "open"⟩ []⟩,
      giveAway "y" 16]⟩]⟩

/-- The path through the second branch and twice round the loop. -/
def closerPath : Path (.block closer.body) .continues :=
  let round : Path (.block ⟨⟨13, 1⟩, _⟩) .continues := .block _ (.next (.bind ..) (.next (.discard ..) .nil))
  .block _ (.next (.choose (.passed _ (.otherwise _ (.block _ (.next (.discard ..) .nil)))))
    (.next (.loop _ (.again round (.again round (.done ..)))) .nil))

/-- The parameter and what is opened in each of two rounds: three values, consumed once each. -/
theorem exactly_once_closer :
    let c : Context := ⟨⟨[]⟩, .ofParams closer.typeParams, {}⟩
    (∃ usage, checkFunction ⟨[]⟩ {} closer = .ok usage) ∧
      (closerPath.runFunction c false closer).found = [] ∧ Sound (closerPath.trailFunction c closer) ∧
      Spent (closerPath.runFunction c false closer).events ∧
      (closerPath.runFunction c false closer).events.countP (Event.takes "y") = 2 := by
  have hok : checkFunction ⟨[]⟩ {} closer = .ok ⟨"closer", [.define "x" ⟨2, 1⟩ true, .consume "x" ⟨7, 1⟩,
      .consume "x" ⟨10, 1⟩, .define "y" ⟨14, 1⟩ true, .consume "y" ⟨17, 1⟩]⟩ := by cbv
  obtain ⟨hfound, hsound, hspent⟩ := exactly_once hok closerPath
  exact ⟨⟨_, hok⟩, hfound, hsound, hspent, by cbv⟩

end Linearity.Check
