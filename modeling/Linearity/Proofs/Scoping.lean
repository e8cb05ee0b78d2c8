import Mathlib
import Linearity.Proofs.Freezing
import Linearity.Proofs.Moments
import Linearity.Proofs.Stores

/-! No type outlives the regions it names.

A type is checked against the open regions once, where a binding of it is defined, and
then stays in the scopes under that binding's name; regions are found by name, and a
name may be used again when its region is closed. Yet, as long as nothing is reported,
the regions that a binding's type names are open, and lie among those that were open
where the binding was defined (`region_scoping`). So they are closed after the binding
has left its scope, and a name that is used again is not one that a type in scope still
means for an earlier region. -/
namespace Linearity.Check
variable {c : Context} {f : FunDef Span} {s t u : State}

/-- The regions of every binding's type are open, and were open where it was defined. -/
def Scoped (s : State) : Prop := ∀ id b, s.scopes.get? id = some b → s.regions.Below b.ty b.regionDepth

namespace Scoped

/-- Scoping is about the skeleton of the scopes and the positions of the regions. -/
theorem frame (h : Scoped s) (hskel : t.scopes.skeleton = s.scopes.skeleton)
    (hpos : ∀ r p, s.regions.position? r = some p → t.regions.position? r = some p) : Scoped t := by
  intro id b hb r hr
  obtain ⟨b', hb', hblank⟩ := Scopes.get?_of_skeleton hskel.symm hb
  rw [← Binding.blank_ty, ← hblank, Binding.blank_ty] at hr
  obtain ⟨p, hp, hlt⟩ := h id b' hb' r hr
  rw [← Binding.blank_regionDepth, hblank, Binding.blank_regionDepth] at hlt
  exact ⟨p, hpos r p hp, hlt⟩

theorem kept (h : Scoped s) (hkept : Kept [] s t) : Scoped t :=
  h.frame hkept.skeleton_eq fun _ _ hp => hkept.regions ▸ hp

theorem pushScope (h : Scoped s) : Scoped (pushScope s) := by
  intro id b hb
  rw [Check.pushScope, Scopes.get?_push] at hb
  exact h id b hb

theorem popScope (h : Scoped s) : Scoped (popScope s) := by
  intro id b hb
  rw [Check.popScope, Scopes.get?_pop] at hb
  split at hb
  · exact h id b hb
  · cases hb

theorem leaveScope (h : Scoped s) (reach : Reach) (pos : Span) : Scoped (leaveScope c reach pos s) := by
  refine h.popScope.frame ?_ fun r p hp => ?_
  · rw [leaveScope_scopes]
    rfl
  · rw [leaveScope_regions]
    exact hp

theorem define (h : Scoped s) (name : String) {ty : Ty} (hty : s.regions.Below ty s.regions.length) (pos : Span) :
    Scoped (define c name ty pos s) := by
  intro id b hb
  unfold Check.define at hb
  dsimp only at hb
  rw [Scopes.get?_define] at hb
  split at hb
  · cases hb
    exact hty
  · exact h id b hb

end Scoped

/-! ### Steps -/

/-- From `s` the check has come to `t`. If nothing has been found, types are still scoped. -/
structure Guarded (s t : State) : Prop where
  grown : Grown s t
  keeps : Honest s → Scoped s → t.found = [] → Scoped t

namespace Guarded

theorem refl (s : State) : Guarded s s := ⟨.refl s, fun _ h _ => h⟩

theorem trans (h : Guarded s t) (h' : Guarded t u) : Guarded s u where
  grown := h.grown.trans h'.grown
  keeps hhonest hscoped hfound :=
    h'.keeps (h.grown.honest hhonest) (h.keeps hhonest hscoped (h'.grown.eq_nil hfound)) hfound

theorem of_kept (hkept : Kept [] s t) (hgrown : Grown s t) : Guarded s t :=
  ⟨hgrown, fun _ hscoped _ => hscoped.kept hkept⟩

end Guarded

theorem guarded_pushScope (s : State) : Guarded s (pushScope s) :=
  ⟨.of_same rfl rfl, fun _ h _ => h.pushScope⟩

theorem guarded_enterLoop (s : State) : Guarded s (enterLoop s) :=
  ⟨.of_same rfl rfl, fun _ h _ => h⟩

theorem guarded_popScope (s : State) : Guarded s (popScope s) :=
  ⟨.of_same rfl rfl, fun _ h _ => h.popScope⟩

theorem guarded_leaveScope (reach : Reach) (pos : Span) (s : State) : Guarded s (leaveScope c reach pos s) :=
  ⟨grown_leaveScope .., fun _ h _ => h.leaveScope reach pos⟩

theorem guarded_evalClosed (hs : Ready s) (e : Expr Span) : Guarded s (evalClosed c e s) :=
  .of_kept (kept_evalClosed c hs e) (grown_evalClosed c e s)

/-- A body that is left for the scopes before it. -/
theorem guarded_body (hs : Ready s) (body : Block Span) :
    Guarded s {(checkBlock c body s).2 with scopes := s.scopes} :=
  .of_kept (hs.kept_same rfl (kept_checkBlock c body hs).regions)
    ((grown_checkBlock c body s).trans (.of_same rfl rfl))

/-- The type of a part must be live where the part is bound. -/
theorem guarded_unpackPart (s : State) (part : Unpacked Span) : Guarded s (unpackPart c s part) := by
  refine ⟨grown_unpack c [part] s, fun hhonest hscoped hfound => ?_⟩
  have hlive : Scoped (requireLive c part.ty (some part.name.name) part.pos s) :=
    hscoped.frame (by rw [requireLive_scopes]) fun r p hp => by rw [requireLive_regions]; exact hp
  refine hlive.define part.name.name (fun r hr => ?_) part.name.pos
  rw [requireLive_regions]
  obtain ⟨p, hp⟩ := requireLive_silent hhonest hfound hr
  exact ⟨p, hp, Regions.position?_lt hp⟩

theorem guarded_unpack (parts : List (Unpacked Span)) (s : State) : Guarded s (unpack c parts s) :=
  List.foldlRecOn parts (unpackPart c) (.refl s) fun t ht part _ => ht.trans (guarded_unpackPart t part)

/-- A counter has no regions in its type. -/
theorem guarded_counter (name : String) (pos : Span) (s : State) : Guarded s (define c name .int pos s) :=
  ⟨.of_same rfl rfl, fun _ h _ => h.define name (fun _ hr => absurd hr List.not_mem_nil) pos⟩

/-! ### Borrow blocks -/

section Lend
variable (kind : RefKind) (source name region : Ident Span)

theorem takeBorrow_position? (s : State) (r : String) :
    (takeBorrow c kind source region s).regions.position? r = s.regions.position? r := by
  unfold takeBorrow
  split
  · exact borrowBinding_regions ..
  · rfl

theorem lend_position? {r : String} {p : Nat} (h : s.regions.position? r = some p) :
    (lend c kind source region s).regions.position? r = some p := by
  unfold lend
  rcases openBorrow_cases c region s with ⟨v, hopen⟩ | ⟨hnone, hopen⟩
  · rw [hopen]
    exact (report_regions c v s).symm ▸ h
  · rw [hopen]
    exact (takeBorrow_position? ..).trans (Regions.position?_cons_of_fresh hnone h)

/-- If nothing is found, the region of the block is open. -/
theorem lend_opened (hfound : (lend c kind source region s).found = []) :
    (lend c kind source region s).regions.position? region.name = some s.regions.length := by
  unfold lend at hfound ⊢
  rcases openBorrow_cases c region s with ⟨v, hopen⟩ | ⟨hnone, hopen⟩
  · rw [hopen] at hfound
    exact absurd hfound (report_found c v s)
  · rw [hopen]
    refine (takeBorrow_position? ..).trans ?_
    simp [Regions.position?]

theorem guarded_openBorrow (s : State) : Guarded s (openBorrow c region s).2 := by
  refine ⟨grown_openBorrow c region s, fun _ hscoped _ => ?_⟩
  rcases openBorrow_cases c region s with ⟨v, hopen⟩ | ⟨hnone, hopen⟩
  · rw [hopen]
    exact hscoped.frame (by rw [report_scopes]) fun r p hp => by rw [report_regions]; exact hp
  · rw [hopen]
    exact hscoped.frame (t := {s with regions := _ :: s.regions}) rfl fun r p hp =>
      Regions.position?_cons_of_fresh hnone hp

theorem guarded_lend (s : State) : Guarded s (lend c kind source region s) :=
  ⟨(grown_openBorrow c region s).trans (grown_lend kind source region s),
    fun _ hscoped _ => hscoped.frame (lend_skeleton kind source region s) fun _ _ => lend_position? kind source region⟩

/-- The alias of a borrow block names the block's region and those of what is borrowed. -/
theorem guarded_enterBorrow (s : State) : Guarded s (enterBorrow c kind source name region s).2 := by
  refine ⟨grown_enterBorrow .., fun hhonest hscoped hfound => ?_⟩
  rw [enterBorrow_state] at hfound ⊢
  have hlend := (guarded_lend kind source region s).keeps hhonest hscoped hfound
  refine hlend.pushScope.define name.name (fun r hr => ?_) name.pos
  suffices h : ∃ p, (lend c kind source region s).regions.position? r = some p by
    obtain ⟨p, hp⟩ := h
    exact ⟨p, hp, Regions.position?_lt hp⟩
  rcases List.mem_cons.mp hr with rfl | hr
  · exact ⟨_, lend_opened kind source region hfound⟩
  · cases hlookup : s.scopes.lookup source.name with
    | none =>
      rw [hlookup] at hr
      cases hr
    | some e =>
      rw [hlookup] at hr
      obtain ⟨p, hp, _⟩ := hscoped _ _ (Scopes.get?_of_lookup hlookup).1 r hr
      exact ⟨p, lend_position? kind source region hp⟩

end Lend

/-! ### Statements -/

theorem guarded_visit (hs : Ready s) (stmt : Stmt Span) : Guarded s (visit c stmt s).2 := by
  cases stmt with
  | bind pos name ty value => exact (guarded_evalClosed hs value).trans (guarded_unpackPart _ ⟨pos, name, name, ty⟩)
  | unpack pos parts value => exact (guarded_evalClosed hs value).trans (guarded_unpack parts _)
  | _ => exact .of_kept (kept_visit_closed c rfl hs) (grown_visit ..)

theorem guarded_checkStmt (hs : Ready s) (stmt : Stmt Span) : Guarded s (checkStmt c stmt s).2 := by
  have hvisit := guarded_visit (c := c) (hs.of_same (t := {s with escaped := []}) rfl rfl) stmt
  refine ⟨grown_apart (grown_visit c stmt) s, fun _ hscoped hfound => ?_⟩
  exact hvisit.keeps (fun he => absurd rfl he) hscoped hfound

theorem guarded_checkStmts (hs : Ready s) (stmts : List (Stmt Span)) : Guarded s (checkStmts c stmts s).2 := by
  induction stmts generalizing s with
  | nil => exact .refl s
  | cons stmt rest ih =>
    cases hrun : halted c s with
    | true =>
      rw [checkStmts, if_pos hrun]
      exact .refl s
    | false =>
      obtain ⟨new, hkept⟩ := kept_apart hs fun u hu => kept_visit c stmt hu
      cases hreach : (checkStmt c stmt s).1 with
      | continues =>
        rw [checkStmts_of_continues hrun hreach]
        exact (guarded_checkStmt hs stmt).trans (ih (hkept.ready hs))
      | diverges =>
        rw [checkStmts_of_diverges hrun hreach]
        exact guarded_checkStmt hs stmt

/-! ### All of a check -/

/-- Every task is come to with types scoped, if the body is entered so and nothing is found. -/
theorem Reached.guarded {task : Task} (h : Reached c f task s) : Guarded (entryState c f) s := by
  induction h with
  | body => exact .refl _
  | inside _ ih => exact ih.trans (guarded_pushScope _)
  | first _ _ ih => exact ih.trans ⟨⟨List.prefix_rfl, fun _ he => absurd rfl he⟩, fun _ h _ => h⟩
  | @next stmt _ _ h _ _ ih => exact ih.trans (guarded_checkStmt h.ready stmt)
  | bound _ ih => exact ih
  | unpacked _ ih => exact ih
  | assigned _ ih => exact ih
  | discarded _ ih => exact ih
  | returned _ ih => exact ih
  | scrutinee _ ih => exact ih
  | guard _ ih => exact ih.trans (guarded_enterLoop _)
  | lower _ ih => exact ih.trans (guarded_enterLoop _)
  | @upper _ _ first _ _ _ h ih =>
    exact (ih.trans (guarded_enterLoop _)).trans (guarded_evalClosed h.ready.enterLoop first)
  | condition _ ih => exact ih
  | branches _ ih => exact ih
  | @otherwise _ branches _ _ h ih =>
    exact ih.trans (.of_kept (branched_checkBranches c branches h.ready).kept (grown_checkBranches ..))
  | @branch _ cond _ _ _ h ih => exact ih.trans (guarded_evalClosed h.ready cond)
  | @nextBranch _ cond body _ _ h ih =>
    exact (ih.trans (guarded_evalClosed h.ready cond)).trans (guarded_body (Reached.branch h).ready body)
  | @arms _ value _ _ h ih => exact ih.trans (guarded_evalClosed h.ready value)
  | @arm _ _ parts _ _ _ _ ih => exact (ih.trans (guarded_pushScope _)).trans (guarded_unpack parts _)
  | @nextArm pos variant parts body rest s h ih =>
    have hgrown := (grown_checkArms c [⟨pos, variant, parts, body⟩] s)
    have hregions := (branched_checkArms c [⟨pos, variant, parts, body⟩] h.ready).kept.regions
    exact ih.trans (.of_kept (h.ready.kept_same rfl hregions) hgrown)
  | @loop _ cond _ _ h ih =>
    exact (ih.trans (guarded_enterLoop _)).trans (guarded_evalClosed h.ready.enterLoop cond)
  | @count _ var first last _ _ h ih =>
    have hfirst := (Reached.upper h).ready
    exact ((((ih.trans (guarded_enterLoop _)).trans (guarded_evalClosed h.ready.enterLoop first)).trans
      (guarded_evalClosed hfirst last)).trans (guarded_pushScope _)).trans (guarded_counter var.name var.pos _)
  | @borrow _ kind source name region _ _ _ ih => exact ih.trans (guarded_enterBorrow kind source name region _)
  | nested _ ih => exact ih

theorem Visited.guarded (h : Visited c f s) : Guarded (entryState c f) s := by
  cases h with
  | start h => exact h.guarded
  | @between pos before after s h =>
    have hplain := h.plain
    rw [List.all_append, Bool.and_eq_true] at hplain
    have heval := evaluated_perform c h.ready.settled (Evaluated.refl h.ready.coherent) hplain.1
    exact h.guarded.trans
      ⟨grown_perform c before s, fun _ hscoped _ => hscoped.frame heval.skeleton fun _ _ => position?_perform⟩
  | @finish task s h =>
    refine h.guarded.trans ?_
    cases task with
    | block block => exact .of_kept (kept_checkBlock c block h.ready) (grown_checkBlock ..)
    | stmts stmts => exact guarded_checkStmts h.ready stmts
    | stmt stmt => exact guarded_visit h.ready stmt
    | branches branches => exact .of_kept (branched_checkBranches c branches h.ready).kept (grown_checkBranches ..)
    | arms arms => exact .of_kept (branched_checkArms c arms h.ready).kept (grown_checkArms ..)
    | operand pos acts => exact .of_kept (kept_closing c h.ready pos h.plain) (grown_closing ..)

/-! ### Functions -/

/-- A function's parameters mention its own regions only. -/
def OwnRegions (f : FunDef Span) : Prop := ∀ p ∈ f.params, ∀ r ∈ p.ty.regions, ∃ own ∈ f.regions, own.name = r

theorem enterFunctionRegion_position? (region : Ident Span) {r : String} {p : Nat}
    (h : s.regions.position? r = some p) : (enterFunctionRegion c s region).regions.position? r = some p := by
  unfold enterFunctionRegion Regions.enter
  cases hget : s.regions.get? region.name with
  | some prior => exact (report_regions ..).symm ▸ h
  | none => exact Regions.position?_cons_of_fresh hget h

theorem enterFunctionRegion_opened {region : Ident Span} (hfound : (enterFunctionRegion c s region).found = []) :
    (enterFunctionRegion c s region).regions.position? region.name = some s.regions.length := by
  unfold enterFunctionRegion Regions.enter at hfound ⊢
  cases hget : s.regions.get? region.name with
  | some prior =>
    rw [hget] at hfound
    exact absurd hfound (report_found c _ s)
  | none => simp [Regions.position?]

/-- If nothing is found, the regions of a function are open when all have been entered. -/
theorem opened_of_mem {regions : List (Ident Span)} (hfound : (regions.foldl (enterFunctionRegion c) s).found = [])
    {own : Ident Span} (hown : own ∈ regions) :
    ∃ p, (regions.foldl (enterFunctionRegion c) s).regions.position? own.name = some p := by
  induction regions generalizing s with
  | nil => cases hown
  | cons r regions ih =>
    rcases List.mem_cons.mp hown with rfl | hown
    · have hopened := enterFunctionRegion_opened ((grown_foldl grown_enterFunctionRegion _ regions).eq_nil hfound)
      exact ⟨_, List.foldlRecOn regions (enterFunctionRegion c)
        (motive := fun t => t.regions.position? own.name = some s.regions.length) hopened
        fun t ht region _ => enterFunctionRegion_position? region ht⟩
    · exact ih hfound hown

theorem guarded_enterFunctionRegion (s : State) (region : Ident Span) : Guarded s (enterFunctionRegion c s region) := by
  refine ⟨grown_enterFunctionRegion s region, fun _ hscoped _ =>
    hscoped.frame ?_ fun _ _ => enterFunctionRegion_position? region⟩
  unfold enterFunctionRegion
  split
  · rfl
  · rw [report_scopes]

theorem scoped_opening (regions : List (Ident Span)) (hfound : (regions.foldl (enterFunctionRegion c) {}).found = []) :
    Scoped (regions.foldl (enterFunctionRegion c) {}) := by
  have hguarded : Guarded {} (regions.foldl (enterFunctionRegion c) {}) :=
    List.foldlRecOn regions (enterFunctionRegion c) (.refl {}) fun t ht r _ =>
      ht.trans (guarded_enterFunctionRegion t r)
  refine hguarded.keeps (fun he => absurd rfl he) (fun id b hb => ?_) hfound
  simp [Scopes.get?, Scopes.initial, Scopes.getIn, Frame.get?] at hb

/-- Every parameter is scoped by the regions that are open before the first is defined. -/
theorem scoped_defining (hown : OwnRegions f) {params : List (Slot Span)} (hparams : ∀ p ∈ params, p ∈ f.params)
    (hfound : (params.foldl (defineParam c) (f.regions.foldl (enterFunctionRegion c) {})).found = []) :
    Scoped (params.foldl (defineParam c) (f.regions.foldl (enterFunctionRegion c) {})) := by
  have hgrown : ∀ (s : State) (p : Slot Span), Grown s (defineParam c s p) := fun _ _ => .of_same rfl rfl
  have hopened := (grown_foldl hgrown _ params).eq_nil hfound
  suffices h : Scoped (params.foldl (defineParam c) (f.regions.foldl (enterFunctionRegion c) {})) ∧
      (params.foldl (defineParam c) (f.regions.foldl (enterFunctionRegion c) {})).regions =
        (f.regions.foldl (enterFunctionRegion c) {}).regions from h.1
  refine List.foldlRecOn params (defineParam c) (motive := fun t => Scoped t ∧ t.regions =
    (f.regions.foldl (enterFunctionRegion c) {}).regions) ⟨scoped_opening f.regions hopened, rfl⟩ ?_
  rintro t ⟨hscoped, hregions⟩ p hp
  refine ⟨hscoped.define p.name.name (fun r hr => ?_) p.pos, hregions⟩
  obtain ⟨own, hmem, rfl⟩ := hown p (hparams p hp) r hr
  obtain ⟨q, hq⟩ := opened_of_mem hopened hmem
  rw [← hregions] at hq
  exact ⟨q, hq, Regions.position?_lt hq⟩

theorem Guarded.from_entry (h : Guarded (entryState c f) s) (hown : OwnRegions f) (hfound : s.found = []) : Scoped s :=
  h.keeps (honest_entryState c f) (scoped_defining hown (fun _ hp => hp) (h.grown.eq_nil hfound)) hfound

theorem guarded_branches {outcomes : List Outcome} (h : Joining c f outcomes s) : Guarded (entryState c f) s := by
  cases h with
  | @skip pos branches start h => exact (Visited.finish (.branches h)).guarded
  | @otherwise pos branches block start t last h ht hlast =>
    subst ht hlast
    exact (Reached.otherwise h).guarded.trans (guarded_body (Reached.otherwise h).ready block)
  | @select pos value arms start t h ht =>
    subst ht
    exact (Visited.finish (.arms h)).guarded

/-- Types are scoped at every moment at which nothing has been found. -/
theorem Moment.scoped (hown : OwnRegions f) (h : Moment c f s) (hfound : s.found = []) : Scoped s := by
  cases h with
  | visited h => exact h.guarded.from_entry hown hfound
  | opening => exact scoped_opening _ hfound
  | defining hsplit =>
    exact scoped_defining hown (fun p hp => hsplit ▸ List.mem_append_left _ hp) hfound
  | ended =>
    exact ((Visited.finish .body).guarded.trans (guarded_leaveScope _ f.pos _)).from_entry hown hfound
  | @unpacking pos before after value s h =>
    exact ((h.guarded.trans (guarded_evalClosed h.ready value)).trans (guarded_unpack before _)).from_entry hown hfound
  | @matching pos variant before after body rest s h =>
    exact ((h.guarded.trans (guarded_pushScope s)).trans (guarded_unpack before _)).from_entry hown hfound
  | @matched pos variant parts body rest s run h hrun =>
    subst hrun
    exact ((Visited.finish (.arm h)).guarded.trans (guarded_leaveScope _ pos _)).from_entry hown hfound
  | @joining outcomes before after s h hr hsplit =>
    have hguarded : Guarded s (before.foldl (joinBinding c (reached outcomes)) s) := by
      obtain ⟨hskel, _, hregions, _, _⟩ := foldl_joinBinding_frame c (reached outcomes) before s
      refine ⟨grown_foldl (grown_joinBinding _) s before, fun _ hscoped _ => ?_⟩
      exact hscoped.frame hskel fun _ _ hp => hregions ▸ hp
    exact ((guarded_branches h).trans hguarded).from_entry hown hfound
  | @looped pos cond body s entry h hentry =>
    subst hentry
    exact ((Reached.loop h).guarded.trans (guarded_body (Reached.loop h).ready body)).from_entry hown hfound
  | @counting pos var first last body s h =>
    have hupper := Reached.upper h
    have hlast := hupper.guarded.trans (guarded_evalClosed (c := c) hupper.ready last)
    exact (hlast.trans (guarded_pushScope _)).from_entry hown hfound
  | @counted pos var first last body s entry h hentry =>
    subst hentry
    exact ((Reached.count h).guarded.trans (guarded_body (Reached.count h).ready body)).from_entry hown hfound
  | @uncounted pos var first last body s entry h hentry =>
    subst hentry
    have hbody := (Reached.count h).guarded.trans (guarded_body (c := c) (Reached.count h).ready body)
    exact (hbody.trans (guarded_popScope _)).from_entry hown hfound
  | @opened pos kind source name region body s h =>
    exact (h.guarded.trans (guarded_openBorrow region s)).from_entry hown hfound
  | @lent pos kind source name region body s h =>
    exact (h.guarded.trans (guarded_lend kind source region s)).from_entry hown hfound
  | @naming pos kind source name region body s h =>
    exact ((h.guarded.trans (guarded_lend kind source region s)).trans (guarded_pushScope _)).from_entry hown hfound
  | @returning pos kind source name region body s run h hrun =>
    subst hrun
    exact ((Visited.finish (.borrow h)).guarded.trans (guarded_leaveScope _ pos _)).from_entry hown hfound

/-- Regions are closed at moments of the check. -/
theorem Closes.moments {closed : List Region} (h : Closes c f closed s t) : Moment c f s ∧ Moment c f t := by
  cases h with
  | @operand pos acts s h =>
    have hall : Reached c f (.operand pos (acts ++ [])) s := (List.append_nil acts).symm ▸ h
    exact ⟨.visited (.between hall), .visited (.finish h)⟩
  | @borrow pos kind source name region body s t r outer h hopened ht hregions =>
    have hend := Visited.finish h
    rw [Task.run, visit, hopened, leaveBorrow, if_pos rfl] at hend
    exact ht ▸ ⟨.returning h rfl, .visited hend⟩

/-- What stays in scope when regions are closed names none of them. -/
theorem Closes.unnamed {closed : List Region} (h : Closes c f closed s t) (hown : OwnRegions f) (hfound : s.found = [])
    {id : BindingId} {b : Binding} (hb : t.scopes.get? id = some b) {r : Region} (hr : r ∈ closed) :
    r.name ∉ b.ty.regions := by
  intro hmem
  obtain ⟨hregions, hscopes, _⟩ := h.frame
  have hskel : t.scopes.skeleton = s.scopes.skeleton := by
    rw [hscopes, Scopes.skeleton_thawAll]
  obtain ⟨b', hb', hblank⟩ := Scopes.get?_of_skeleton hskel.symm hb
  rw [← Binding.blank_ty, ← hblank, Binding.blank_ty] at hmem
  obtain ⟨p, hp, hlt⟩ := h.moments.1.scoped hown hfound id b' hb' r.name hmem
  rw [← Binding.blank_regionDepth, hblank, Binding.blank_regionDepth] at hlt
  -- The name stands for one of the regions on top, and the binding was defined below them.
  rw [hregions] at hp
  have hdeep := (h.moments.2.coherent.accounted hb).deep
  have hle := Regions.length_le_position? hr hp
  omega

/-- As long as nothing is reported, the regions that the type of a binding names are open,
at positions that were taken where the binding was defined. So in an accepted function
they are always open, and whenever regions are closed, no binding that is left names one. -/
theorem region_scoping (T : TypeTable) (settings : Settings) (f : FunDef Span) (hown : OwnRegions f) :
    let c : Context := ⟨T, .ofParams f.typeParams, settings⟩
    (∀ s, Moment c f s → s.found = [] → ∀ id b, s.scopes.get? id = some b →
      b.regionDepth ≤ s.regions.length ∧
        ∀ r ∈ b.ty.regions, ∃ p, s.regions.position? r = some p ∧ p < b.regionDepth) ∧
    ∀ usage, checkFunction T settings f = .ok usage →
      (∀ s, Moment c f s → ∀ id b, s.scopes.get? id = some b →
        ∀ r ∈ b.ty.regions, s.regions.isLive r = true) ∧
      ∀ closed s t, Closes c f closed s t → ∀ id b, t.scopes.get? id = some b →
        ∀ r ∈ closed, r.name ∉ b.ty.regions := by
  intro c
  refine ⟨fun s hs hfound id b hb => ⟨?_, hs.scoped hown hfound id b hb⟩, fun usage hok => ?_⟩
  · exact (hs.coherent.accounted hb).deep
  · have hclean : ∀ s, Moment c f s → s.found = [] := fun s hs =>
      List.prefix_nil.mp (found_of_ok hok ▸ hs.found)
    refine ⟨fun s hs id b hb r hr => ?_, fun closed s t hclose id b hb r hr => ?_⟩
    · obtain ⟨p, hp, _⟩ := hs.scoped hown (hclean s hs) id b hb r hr
      exact Regions.isLive_of_position? hp
    · exact hclose.unnamed hown (hclean s hclose.moments.1) hb hr

/-- A function with two borrow blocks after each other, whose regions have one name. The
second borrows a reference. -/
def reuse : FunDef Span where
  pos := ⟨19, 1⟩
  name := ⟨⟨0, 1⟩, "reuse"⟩
  typeParams := [⟨⟨1, 1⟩, ⟨⟨1, 1⟩, "P"⟩, .region⟩]
  params := [⟨⟨2, 1⟩, ⟨⟨2, 1⟩, "x"⟩, .ref .read "P" .int⟩, ⟨⟨3, 1⟩, ⟨⟨3, 1⟩, "y"⟩, .int⟩]
  ret := .unit
  body := ⟨⟨18, 1⟩, [
    .borrow ⟨4, 1⟩ .write ⟨⟨5, 1⟩, "y"⟩ ⟨⟨6, 1⟩, "v"⟩ ⟨⟨7, 1⟩, "R"⟩ ⟨⟨8, 1⟩, []⟩,
    .borrow ⟨9, 1⟩ .read ⟨⟨10, 1⟩, "x"⟩ ⟨⟨11, 1⟩, "w"⟩ ⟨⟨12, 1⟩, "R"⟩ ⟨⟨13, 1⟩, []⟩]⟩

def reuseContext : Context := ⟨⟨[]⟩, .ofParams reuse.typeParams, {}⟩

/-- Where the second block's body starts. -/
def reusing : State :=
  let first := checkStmt reuseContext
    (.borrow ⟨4, 1⟩ .write ⟨⟨5, 1⟩, "y"⟩ ⟨⟨6, 1⟩, "v"⟩ ⟨⟨7, 1⟩, "R"⟩ ⟨⟨8, 1⟩, []⟩)
    (pushScope (entryState reuseContext reuse))
  (enterBorrow reuseContext .read ⟨⟨10, 1⟩, "x"⟩ ⟨⟨11, 1⟩, "w"⟩ ⟨⟨12, 1⟩, "R"⟩ {first.2 with escaped := []}).2

/-- There the alias names the region that is open now, and that of the parameter. -/
theorem region_scoping_reuse : OwnRegions reuse ∧ (∃ usage, checkFunction ⟨[]⟩ {} reuse = .ok usage) ∧
    Moment reuseContext reuse reusing ∧ ∃ b, reusing.scopes.get? ⟨2, 0⟩ = some b ∧ b.ty.regions = ["R", "P"] ∧
      ∀ r ∈ b.ty.regions, reusing.regions.isLive r = true := by
  have hown : OwnRegions reuse := by
    intro p hp r hr
    simp only [reuse, List.mem_cons, List.not_mem_nil, or_false] at hp
    rcases hp with rfl | rfl
    · exact ⟨_, List.mem_singleton_self _, (List.mem_singleton.mp hr).symm⟩
    · cases hr
  have hfound : (runFunction reuseContext reuse).found = [] := by cbv
  have hok : checkFunction ⟨[]⟩ {} reuse = .ok ⟨"reuse", (runFunction reuseContext reuse).events⟩ := ok_of_found hfound
  have hmoment : Moment reuseContext reuse reusing :=
    .visited (.start (.borrow (.first (.next (.inside .body) (by cbv) (by cbv)) (by cbv))))
  have halias : (reusing.scopes.get? ⟨2, 0⟩).map (fun b => b.ty.regions) = some ["R", "P"] := by cbv
  obtain ⟨b, hb, hregions⟩ := Option.map_eq_some_iff.mp halias
  exact ⟨hown, ⟨_, hok⟩, hmoment, b, hb, hregions,
    ((region_scoping ⟨[]⟩ {} reuse hown).2 _ hok).1 reusing hmoment ⟨2, 0⟩ b hb⟩

end Linearity.Check
