import Mathlib
import Linearity.Proofs.Twins

/-! Arms in another order.

The arms of a selection are checked one after the other, each from the scopes behind the
scrutinee and from the same regions. While nothing is found, all that an arm can see of the arms
before it is the log. So each arm does what it would do as the only one (`checkArms_each`): it
ends alike and logs the same events. In another order the arms log their events in another order,
and the join keeps another place for what they consume, which is not seen while nothing is found. -/
namespace Linearity.Check

/-- The arms of a selection are put in another order. -/
inductive Reorders : Stmt Span → Stmt Span → Prop where
  | arms (pos : Span) (scrutinee : Expr Span) {arms arms' : List (Arm Span)} (h : arms.Perm arms') :
    Reorders (.select pos scrutinee arms) (.select pos scrutinee arms')

theorem Reorders.symm {x y : Stmt Span} (h : Reorders x y) : Reorders y x := by
  obtain ⟨pos, scrutinee, h⟩ := h
  exact .arms pos scrutinee h.symm

variable {c : Context} {u v : State}

/-- Two logs that go on in the same way. -/
def Behind (before before' : List Event) (log log' : List Event) : Prop :=
  ∃ more, log = before ++ more ∧ log' = before' ++ more

theorem behind_append {before before' : List Event} :
    ∀ ⦃l l'⦄ more, Behind before before' l l' → Behind before before' (l ++ more) (l' ++ more) := by
  rintro _ _ more ⟨so, rfl, rfl⟩
  exact ⟨so ++ more, List.append_assoc .., List.append_assoc ..⟩

/-- Two states that are the same up to places and their logs. -/
abbrev Apart (u v : State) : Prop := Beside Scopes.Like (Twins fun _ _ => True) u v

theorem Apart.symm (h : Apart u v) : Apart v u := ⟨h.rest.symm fun _ => trivial, h.scopes.symm⟩

theorem Apart.behind (h : Apart u v) : Beside Scopes.Like (Twins (Behind u.events v.events)) u v :=
  ⟨⟨h.rest.regions, h.rest.clean, h.rest.silent, [], (List.append_nil _).symm, (List.append_nil _).symm⟩, h.scopes⟩

/-- An arm in another state does the same. -/
theorem checkArm_apart (hu : Inside u) (hv : Ready v) (h : Apart u v) {arm : Arm Span}
    (hfound : (checkArm c arm u).2.found = []) :
    Exits Scopes.Like (checkArm c arm u).1 (checkArm c arm v).1 ∧
      Beside Scopes.Like (Twins (Behind u.events v.events)) (checkArm c arm u).2 (checkArm c arm v).2 := by
  have law : Tandem c c Scopes.Like (Twins (Behind u.events v.events)) (fun found => found = []) 0 :=
    twins_tandem c behind_append
  obtain ⟨pos, variant, parts, body⟩ := arm
  exact law.checkArm (law.same (.refl_block _ body)) pos variant parts hu hv (Nat.zero_le _) h.behind hfound

/-- What an arm logs when it is checked from `u`. -/
def ownEvents (c : Context) (u : State) (arm : Arm Span) : List Event :=
  (checkArm c arm u).2.events.drop u.events.length

/-- One arm, from a state that is apart from `u`. -/
theorem checkArm_each (hu : Inside u) (hv : Ready v) (h : Apart u v) (arm : Arm Span) :
    ((checkArm c arm v).2.found = [] ↔ (checkArm c arm u).2.found = []) ∧
      ((checkArm c arm u).2.found = [] → Exits Scopes.Like (checkArm c arm u).1 (checkArm c arm v).1 ∧
        Apart u (checkArm c arm v).2 ∧ (checkArm c arm v).2.events = v.events ++ ownEvents c u arm) := by
  refine ⟨⟨fun hfound => ?_, fun hfound => ?_⟩, fun hfound => ?_⟩
  · exact (checkArm_apart (hu.like hv h.scopes) hu.toReady h.symm hfound).2.rest.clean.2
  · exact (checkArm_apart hu hv h hfound).2.rest.clean.2
  · obtain ⟨hexit, hafter⟩ := checkArm_apart hu hv h hfound
    obtain ⟨more, hmore, hmore'⟩ := hafter.rest.events
    refine ⟨hexit, ⟨⟨?_, ⟨h.rest.clean.1, hafter.rest.clean.2⟩, ⟨h.rest.silent.1, hafter.rest.silent.2⟩, trivial⟩,
      h.scopes⟩, ?_⟩
    · have hregions : (checkArm c arm u).2.regions = u.regions := (kept_checkArm hu.toReady arm).regions
      exact hafter.rest.regions.trans (congrArg (Relocation.moving nowhere [] []).regions hregions)
    · rw [hmore', ownEvents, hmore, List.drop_left]

/-- Arms that are checked from `v`, each as it would be from `u`. -/
structure Each (c : Context) (u v : State) (arms : List (Arm Span)) : Prop where
  outcomes : List.Forall₂ (Exits Scopes.Like) (arms.map fun arm => (checkArm c arm u).1) (checkArms c arms v).1
  apart : Apart u (checkArms c arms v).2
  events : (checkArms c arms v).2.events = v.events ++ arms.flatMap (ownEvents c u)

theorem checkArms_each (hu : Inside u) (hv : Ready v) (h : Apart u v) (arms : List (Arm Span)) :
    ((checkArms c arms v).2.found = [] ↔ ∀ arm ∈ arms, (checkArm c arm u).2.found = []) ∧
      ((∀ arm ∈ arms, (checkArm c arm u).2.found = []) → Each c u v arms) := by
  induction arms generalizing v with
  | nil =>
    refine ⟨⟨fun _ arm harm => absurd harm List.not_mem_nil, fun _ => h.rest.clean.2⟩, fun _ => ?_⟩
    exact ⟨.nil, h, (List.append_nil _).symm⟩
  | cons arm arms ih =>
    obtain ⟨hiff, hone⟩ := checkArm_each (c := c) hu hv h arm
    have hnext := ready_checkArm (c := c) hv arm
    have hcons := checkArms_cons c v arm arms
    rw [List.forall_mem_cons]
    refine ⟨⟨fun hfound => ?_, fun hall => ?_⟩, fun hall => ?_⟩
    · rw [hcons] at hfound
      have hfirst := hiff.mp ((grown_checkArms c arms _).eq_nil hfound)
      exact ⟨hfirst, (ih hnext (hone hfirst).2.1).1.mp hfound⟩
    · rw [hcons]
      exact (ih hnext (hone hall.1).2.1).1.mpr hall.2
    · obtain ⟨hexit, hapart, hevents⟩ := hone hall.1
      obtain ⟨houtcomes, hlast, hrest⟩ := (ih hnext hapart).2 hall.2
      refine ⟨?_, ?_, ?_⟩ <;> rw [hcons]
      · exact .cons hexit houtcomes
      · exact hlast
      · rw [hrest, hevents, List.flatMap_cons, List.append_assoc]

section Reordered
variable {arms arms' : List (Arm Span)} (hperm : arms.Perm arms')

include hperm

/-- In another order the arms end alike. -/
theorem Each.ends (h : Each c u v arms) (h' : Each c u v arms') :
    ∀ a ∈ ends (checkArms c arms v).1, ∃ b ∈ Check.ends (checkArms c arms' v).1, a.Like b := by
  intro a ha
  obtain ⟨own, hown, hlike⟩ := (like_ends h.outcomes).2 a ha
  have hown' : own ∈ Check.ends (arms'.map fun arm => (checkArm c arm u).1) := by
    obtain ⟨o, ho, hexit⟩ := mem_ends.mp hown
    exact mem_ends.mpr ⟨o, (hperm.map _).mem_iff.mp ho, hexit⟩
  obtain ⟨b, hb, hlike'⟩ := (like_ends h'.outcomes).1 own hown'
  exact ⟨b, hb, hlike.symm.trans hlike'⟩

/-- In another order the arms log the same events in another order. -/
theorem Each.twins (h : Each c u v arms) (h' : Each c u v arms') :
    Twins List.Perm (checkArms c arms v).2 (checkArms c arms' v).2 := by
  refine ⟨h'.apart.rest.regions.trans h.apart.rest.regions.symm, ⟨h.apart.rest.clean.2, h'.apart.rest.clean.2⟩,
    ⟨h.apart.rest.silent.2, h'.apart.rest.silent.2⟩, ?_⟩
  rw [h.events, h'.events]
  exact (hperm.flatMap_right _).append_left _

/-- So they may be joined in another order. -/
theorem runs_reordered (hu : Inside u) (hclean : u.found = []) (hsilent : u.escaped = [])
    (hfound : (join c (checkArms c arms u).1 (checkArms c arms u).2).2.found = []) :
    Runs Scopes.Like (Twins List.Perm) (join c (checkArms c arms u).1 (checkArms c arms u).2)
      (join c (checkArms c arms' u).1 (checkArms c arms' u).2) := by
  have hsame : Apart u u := ⟨⟨rfl, ⟨hclean, hclean⟩, ⟨hsilent, hsilent⟩, trivial⟩, .refl _⟩
  have hnone : ∀ arm ∈ arms, (checkArm c arm u).2.found = [] :=
    (checkArms_each hu hu.toReady hsame arms).1.mp ((grown_join ..).eq_nil hfound)
  have hnone' : ∀ arm ∈ arms', (checkArm c arm u).2.found = [] :=
    fun arm harm => hnone arm (hperm.mem_iff.mpr harm)
  have heach := (checkArms_each hu hu.toReady hsame arms).2 hnone
  have heach' := (checkArms_each hu hu.toReady hsame arms').2 hnone'
  refine runs_join (branched_checkArms c arms hu.toReady) (branched_checkArms c arms' hu.toReady)
    (heach.twins hperm heach') (heach.ends hperm heach') (fun b hb => ?_) hfound
  obtain ⟨a, ha, hlike⟩ := heach'.ends hperm.symm heach b hb
  exact ⟨a, ha, hlike.symm⟩

end Reordered

theorem replaces_reordered {x y : Stmt Span} (h : Reorders x y) : Replaces List.Perm x y := by
  obtain ⟨pos, scrutinee, hperm⟩ := h
  intro c s hs hsilent hfound
  have hclean : (evalClosed c scrutinee s).found = [] :=
    ((grown_checkArms ..).trans (grown_join ..)).eq_nil hfound
  have hhonest : Honest (evalClosed c scrutinee s) :=
    (grown_evalClosed c scrutinee s).honest fun hne => absurd hsilent hne
  exact runs_reordered hperm (hs.kept (kept_evalClosed c hs.toReady scrutinee)) hclean
    (silent_of_clean hhonest hclean) hfound

theorem lasting_perm : Lasting List.Perm := ⟨List.Perm.refl, List.Perm.trans, fun _ _ more h => h.append_right more⟩

/-- What is accepted stays so, with its events in another order. -/
theorem ok_of_reorders {T : TypeTable} {settings : Settings} {f : FunDef Span} {body : Block Span}
    (h : Relation.ReflTransGen (fun b b' => Rewrites Reorders (.block b) (.block b')) f.body body) {usage : Usage}
    (hok : checkFunction T settings f = .ok usage) :
    ∃ usage', checkFunction T settings {f with body} = .ok usage' ∧ usage.events.Perm usage'.events := by
  induction h with
  | refl => exact ⟨usage, hok, .refl _⟩
  | @tail b b' _ hstep ih =>
    obtain ⟨mid, hmid, hperm⟩ := ih
    obtain ⟨usage', hok', _, hperm'⟩ :=
      ok_of_rewrites (f := {f with body := b}) lasting_perm (fun _ _ => replaces_reordered) hstep hmid
    exact ⟨usage', hok', hperm.trans hperm'⟩

/-- The arms of selections may be put in any order, anywhere in a body: a function is accepted as
before, with its events in some order, or not as before. -/
theorem reordered_arms_equivalent (T : TypeTable) (settings : Settings) (f : FunDef Span) {body : Block Span}
    (h : Relation.ReflTransGen (fun b b' => Rewrites Reorders (.block b) (.block b')) f.body body) :
    ((∃ usage, checkFunction T settings f = .ok usage) ↔
        ∃ usage, checkFunction T settings {f with body} = .ok usage) ∧
      ∀ usage usage', checkFunction T settings f = .ok usage →
        checkFunction T settings {f with body} = .ok usage' → usage.events.Perm usage'.events := by
  have hsymm : Std.Symm fun b b' : Block Span => Rewrites Reorders (.block b) (.block b') :=
    ⟨fun _ _ hstep => hstep.symm fun _ _ => Reorders.symm⟩
  have hback : Relation.ReflTransGen (fun b b' => Rewrites Reorders (.block b) (.block b')) body f.body :=
    Relation.ReflTransGen.stdSymm.symm _ _ h
  refine ⟨⟨?_, ?_⟩, fun usage usage' hok hok' => ?_⟩
  · rintro ⟨usage, hok⟩
    obtain ⟨usage', hok', _⟩ := ok_of_reorders h hok
    exact ⟨usage', hok'⟩
  · rintro ⟨usage, hok⟩
    obtain ⟨usage', hok', _⟩ := ok_of_reorders (f := {f with body}) hback hok
    exact ⟨usage', hok'⟩
  · obtain ⟨usage'', hok'', hperm⟩ := ok_of_reorders h hok
    cases hok'.symm.trans hok''
    exact hperm

/-- A statement that closes what `name` holds. -/
def spend (name : String) (n : Nat) : Stmt Span :=
  .discard ⟨n, 1⟩ ⟨⟨n, 2⟩, .unit, .call ⟨⟨n, 3⟩, "close"⟩ [⟨⟨n, 4⟩, .param "A", .var name⟩]⟩

/-- An arm that closes its own part, and one that has none, both with the parameter. -/
def filled : Arm Span :=
  ⟨⟨4, 1⟩, ⟨⟨4, 2⟩, "Some"⟩, [⟨⟨4, 3⟩, ⟨⟨4, 3⟩, "value"⟩, ⟨⟨4, 4⟩, "k"⟩, .param "A"⟩],
    ⟨⟨6, 9⟩, [spend "k" 5, spend "x" 6]⟩⟩

def vacant : Arm Span := ⟨⟨7, 1⟩, ⟨⟨7, 2⟩, "None"⟩, [], ⟨⟨8, 9⟩, [spend "x" 8]⟩⟩

/-- A function with such a selection inside a block. -/
def settler (arms : List (Arm Span)) : FunDef Span where
  pos := ⟨9, 9⟩
  name := ⟨⟨0, 1⟩, "settler"⟩
  typeParams := [⟨⟨1, 1⟩, ⟨⟨1, 1⟩, "A"⟩, .linear⟩]
  params := [⟨⟨2, 1⟩, ⟨⟨2, 1⟩, "x"⟩, .param "A"⟩]
  ret := .unit
  body := ⟨⟨9, 2⟩, [.block ⟨⟨9, 1⟩, [.select ⟨3, 1⟩ ⟨⟨3, 2⟩, .bool, .call ⟨⟨3, 2⟩, "pick"⟩ []⟩ arms]⟩]⟩

/-- Both orders are accepted, and the second logs its events in another order. -/
theorem reordered_arms_equivalent_settler :
    Relation.ReflTransGen (fun b b' => Rewrites Reorders (.block b) (.block b')) (settler [filled, vacant]).body
        (settler [vacant, filled]).body ∧
      ∃ usage usage', checkFunction ⟨[]⟩ {} (settler [filled, vacant]) = .ok usage ∧
        checkFunction ⟨[]⟩ {} (settler [vacant, filled]) = .ok usage' ∧
        usage.events = [.define "x" ⟨2, 1⟩ true, .define "k" ⟨4, 4⟩ true, .consume "k" ⟨5, 4⟩, .consume "x" ⟨6, 4⟩,
          .consume "x" ⟨8, 4⟩] ∧
        usage.events.Perm usage'.events := by
  have hstep : Relation.ReflTransGen (fun b b' => Rewrites Reorders (.block b) (.block b'))
      (settler [filled, vacant]).body (settler [vacant, filled]).body :=
    .single (.block _ (.next (.nested (.block _ (.next (.rule (.arms _ _ (.swap ..))) .nil))) .nil))
  have hclean : (finalState ⟨[]⟩ {} (settler [filled, vacant])).found = [] := by cbv
  have hok := ok_of_found hclean
  obtain ⟨hiff, hperm⟩ := reordered_arms_equivalent ⟨[]⟩ {} (settler [filled, vacant]) hstep
  obtain ⟨usage', hok'⟩ := hiff.mp ⟨_, hok⟩
  exact ⟨hstep, _, usage', hok, hok', by cbv, hperm _ _ hok hok'⟩

end Linearity.Check
