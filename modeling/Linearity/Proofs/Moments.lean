import Linearity.Proofs.Reached

/-! Every moment of a check.

`Visited` has the states in which tasks begin and end, and those inside an evaluation.
`Moment` adds what lies between: the regions and the parameters of a function come one
by one, and so do the parts of a value that is taken apart; a borrow block opens its
region, takes its reference and only then names it; branches are joined binding by
binding. Two moments that follow each other differ in scopes or regions; the reports
between them change neither, and are left to the later of the two.

Scopes and regions are coherent at every moment (`Moment.coherent`), and what is found
there is found by the whole check (`Moment.found`). -/
namespace Linearity.Check
variable (c : Context) (f : FunDef Span)

/-- The check of `f` comes to join branches. -/
inductive Joining : List Outcome → State → Prop where
  | skip {pos : Span} {branches : List (Branch Span)} {s : State} :
    Reached c f (.stmt (.choose pos branches none)) s →
    Joining ((checkBranches c branches s).1 ++ [⟨pos, some (checkBranches c branches s).2.scopes⟩])
      (checkBranches c branches s).2
  | otherwise {pos : Span} {branches : List (Branch Span)} {block : Block Span} {s t : State} {last : Outcome × State} :
    Reached c f (.stmt (.choose pos branches (some block))) s → t = (checkBranches c branches s).2 →
    last = outcome block.pos t (checkBlock c block t) →
    Joining ((checkBranches c branches s).1 ++ [last.1]) last.2
  | select {pos : Span} {value : Expr Span} {arms : List (Arm Span)} {s t : State} :
    Reached c f (.stmt (.select pos value arms)) s → t = evalClosed c value s →
    Joining (checkArms c arms t).1 (checkArms c arms t).2

inductive Moment : State → Prop where
  | visited {s : State} : Visited c f s → Moment s
  -- The function
  | opening {before after : List (Ident Span)} : f.regions = before ++ after →
    Moment (before.foldl (enterFunctionRegion c) {})
  | defining {before after : List (Slot Span)} : f.params = before ++ after →
    Moment (before.foldl (defineParam c) (f.regions.foldl (enterFunctionRegion c) {}))
  | ended : Moment (runFunction c f)
  -- Parts of a value
  | unpacking {pos : Span} {before after : List (Unpacked Span)} {value : Expr Span} {s : State} :
    Reached c f (.stmt (.unpack pos (before ++ after) value)) s →
    Moment (unpack c before (evalClosed c value s))
  | matching {pos : Span} {variant : Ident Span} {before after : List (Unpacked Span)} {body : Block Span}
    {rest : List (Arm Span)} {s : State} :
    Reached c f (.arms (⟨pos, variant, before ++ after, body⟩ :: rest)) s →
    Moment (unpack c before (pushScope s))
  | matched {pos : Span} {variant : Ident Span} {parts : List (Unpacked Span)} {body : Block Span}
    {rest : List (Arm Span)} {s : State} {run : Reach × State} :
    Reached c f (.arms (⟨pos, variant, parts, body⟩ :: rest)) s →
    run = checkBlock c body (unpack c parts (pushScope s)) → Moment (leaveScope c run.1 pos run.2)
  -- Branches
  | joining {outcomes : List Outcome} {before after : List (BindingId × Binding)} {s : State} :
    Joining c f outcomes s → reached outcomes ≠ [] → s.scopes.linearBindings = before ++ after →
    Moment (before.foldl (joinBinding c (reached outcomes)) s)
  -- Loops
  | looped {pos : Span} {cond : Expr Span} {body : Block Span} {s entry : State} :
    Reached c f (.stmt (.loop pos cond body)) s → entry = evalClosed c cond (enterLoop s) →
    Moment {(checkBlock c body entry).2 with scopes := entry.scopes}
  | counting {pos : Span} {var : Ident Span} {first last : Expr Span} {body : Block Span} {s : State} :
    Reached c f (.stmt (.count pos var first last body)) s →
    Moment (pushScope (evalClosed c last (evalClosed c first (enterLoop s))))
  | counted {pos : Span} {var : Ident Span} {first last : Expr Span} {body : Block Span} {s entry : State} :
    Reached c f (.stmt (.count pos var first last body)) s →
    entry = define c var.name .int var.pos (pushScope (evalClosed c last (evalClosed c first (enterLoop s)))) →
    Moment {(checkBlock c body entry).2 with scopes := entry.scopes}
  | uncounted {pos : Span} {var : Ident Span} {first last : Expr Span} {body : Block Span} {s entry : State} :
    Reached c f (.stmt (.count pos var first last body)) s →
    entry = define c var.name .int var.pos (pushScope (evalClosed c last (evalClosed c first (enterLoop s)))) →
    Moment (popScope {(checkBlock c body entry).2 with scopes := entry.scopes})
  -- Borrow blocks
  | opened {pos : Span} {kind : RefKind} {source name region : Ident Span} {body : Block Span} {s : State} :
    Reached c f (.stmt (.borrow pos kind source name region body)) s → Moment (openBorrow c region s).2
  | lent {pos : Span} {kind : RefKind} {source name region : Ident Span} {body : Block Span} {s : State} :
    Reached c f (.stmt (.borrow pos kind source name region body)) s → Moment (lend c kind source region s)
  | naming {pos : Span} {kind : RefKind} {source name region : Ident Span} {body : Block Span} {s : State} :
    Reached c f (.stmt (.borrow pos kind source name region body)) s →
    Moment (pushScope (lend c kind source region s))
  | returning {pos : Span} {kind : RefKind} {source name region : Ident Span} {body : Block Span} {s : State}
    {run : Reach × State} :
    Reached c f (.stmt (.borrow pos kind source name region body)) s →
    run = checkBlock c body (enterBorrow c kind source name region s).2 → Moment (leaveScope c run.1 pos run.2)

variable {c f} {s : State}

/-! ### Coherence -/

theorem Joining.branched {outcomes : List Outcome} (h : Joining c f outcomes s) :
    ∃ start, Branched start outcomes s := by
  cases h with
  | @skip pos branches start h =>
    have hbranches := branched_checkBranches c branches h.ready
    exact ⟨start, hbranches.append (branched_skip (hbranches.kept.ready h.ready) pos)⟩
  | @otherwise pos branches block start t last h ht hlast =>
    subst ht hlast
    have hbranches := branched_checkBranches c branches h.ready
    have hready := hbranches.kept.ready h.ready
    exact ⟨start, hbranches.append (branched_outcome hready _ (kept_checkBlock c block hready) block.pos)⟩
  | @select pos value arms start t h ht =>
    subst ht
    exact ⟨_, branched_checkArms c arms ((kept_evalClosed c h.ready value).ready h.ready)⟩

theorem ready_openBorrow (hs : Ready s) (region : Ident Span) : Ready (openBorrow c region s).2 := by
  rcases openBorrow_cases c region s with ⟨v, hopen⟩ | ⟨hnone, hopen⟩
  · rw [hopen]
    exact hs.of_same (report_scopes ..) (report_regions ..)
  · rw [hopen]
    let r : Region := ⟨region.name, .explicit, region.pos, []⟩
    have hborrow : Borrowing r s {s with regions := r :: s.regions} :=
      .of_scopes rfl rfl rfl rfl (hs.coherent.enter region.name .explicit region.pos)
    exact hborrow.ready hs

theorem ready_lend (hs : Ready s) (kind : RefKind) (source region : Ident Span) :
    Ready (lend c kind source region s) := by
  unfold lend
  rcases openBorrow_cases c region s with ⟨v, hopen⟩ | ⟨hnone, hopen⟩
  · rw [hopen]
    exact hs.of_same (report_scopes ..) (report_regions ..)
  · rw [hopen]
    obtain ⟨r, hborrow⟩ := borrowing_takeBorrow c hs kind source region hnone
    exact hborrow.ready hs

theorem ready_counting {pos : Span} {var : Ident Span} {first last : Expr Span} {body : Block Span}
    (h : Reached c f (.stmt (.count pos var first last body)) s) :
    Ready (evalClosed c last (evalClosed c first (enterLoop s))) := by
  have hfirst := (kept_evalClosed c h.ready.enterLoop first).ready h.ready.enterLoop
  exact (kept_evalClosed c hfirst last).ready hfirst

/-- Going back to the scopes of an earlier state, where the same regions were open. -/
theorem Ready.restored {t : State} (hs : Ready s) (hregions : t.regions = s.regions) :
    Coherent s.scopes t.regions :=
  hregions ▸ hs.coherent

/-- Nothing is borrowed where a function's body starts. -/
theorem entryState_refs : (entryState c f).regions.refs = [] := by
  refine entryState_induction c (P := fun s => s.regions.refs = []) rfl (fun s r hs => ?_) (fun _ _ hs => hs) f
  unfold enterFunctionRegion Regions.enter
  cases s.regions.get? r.name with
  | some prior => exact (report_regions ..).symm ▸ hs
  | none => exact hs

theorem Moment.coherent (h : Moment c f s) : Coherent s.scopes s.regions := by
  have hstart : Ready ({} : State) := ready_entryState c ⟨f.pos, f.name, [], [], f.ret, f.body⟩
  have hregions : ∀ regions : List (Ident Span), Ready (regions.foldl (enterFunctionRegion c) {}) := fun regions =>
    List.foldlRecOn regions _ hstart fun _ hs r _ => ready_enterFunctionRegion c hs r
  cases h with
  | visited h => exact h.coherent
  | opening => exact (hregions _).coherent
  | @defining before after =>
    refine (List.foldlRecOn before (defineParam c) (motive := Ready) (hregions f.regions) fun s hs p _ => ?_).coherent
    obtain ⟨new, hdefine⟩ := kept_define c hs p.name.name p.ty p.pos
    exact hdefine.ready hs
  | ended =>
    have hbody := kept_checkBlock c f.body (ready_entryState c f)
    refine (leaveScope_scopes c _ _ _).symm ▸ (leaveScope_regions c _ _ _).symm ▸ hbody.coherent.pop fun ref href => ?_
    rw [hbody.regions, entryState_refs] at href
    cases href
  | @unpacking pos before after value s h =>
    obtain ⟨new, hkept⟩ := kept_unpack c ((kept_evalClosed c h.ready value).ready h.ready) before
    exact hkept.coherent
  | @matching pos variant before after body rest s h =>
    obtain ⟨new, hkept⟩ := kept_unpack c h.ready.pushScope before
    exact hkept.coherent
  | @matched pos variant parts body rest s run h hrun =>
    subst hrun
    obtain ⟨new, hparts⟩ := kept_unpack c h.ready.pushScope parts
    have hbody := hparts.trans (kept_checkBlock c body (hparts.ready h.ready.pushScope))
    exact (hbody.leaveScope c h.ready _ pos).coherent
  | @joining outcomes before after s h hr hsplit =>
    obtain ⟨start, hbranched⟩ := h.branched
    refine (kept_joining c hbranched hr fun entry hentry => ?_).coherent
    rw [hsplit]
    exact List.mem_append_left _ hentry
  | @looped pos cond body s entry h hentry =>
    have hready : Ready entry := hentry ▸ (kept_evalClosed c h.ready.enterLoop cond).ready h.ready.enterLoop
    exact hready.restored (kept_checkBlock c body hready).regions
  | counting h => exact (ready_counting h).pushScope.coherent
  | @counted pos var first last body s entry h hentry =>
    obtain ⟨new, hvar⟩ := kept_define c (ready_counting h).pushScope var.name .int var.pos
    have hready : Ready entry := hentry ▸ hvar.ready (ready_counting h).pushScope
    exact hready.restored (kept_checkBlock c body hready).regions
  | @uncounted pos var first last body s entry h hentry =>
    obtain ⟨new, hvar⟩ := kept_define c (ready_counting h).pushScope var.name .int var.pos
    subst hentry
    have hbody := kept_checkBlock c body (hvar.ready (ready_counting h).pushScope)
    exact (ready_counting h).restored (hbody.regions.trans hvar.regions)
  | @opened pos kind source name region body s h => exact (ready_openBorrow h.ready region).coherent
  | @lent pos kind source name region body s h => exact (ready_lend h.ready kind source region).coherent
  | @naming pos kind source name region body s h => exact (ready_lend h.ready kind source region).pushScope.coherent
  | @returning pos kind source name region body s run h hrun =>
    subst hrun
    have hready := ready_lend (c := c) h.ready kind source region
    have hbody : ∀ v, Ready v → ∃ new, Kept new v (checkBlock c body v).2 :=
      fun _ hv => ⟨[], kept_checkBlock c body hv⟩
    rw [enterBorrow_state]
    exact (kept_alias c hready name (aliasTy kind source region s.scopes) pos hbody).coherent

/-! ### Nothing found is lost -/

theorem grown_task (task : Task) (s : State) : Grown s (task.run c s) := by
  cases task with
  | block block => exact grown_checkBlock c block s
  | stmts stmts => exact grown_checkStmts c stmts s
  | stmt stmt => exact grown_visit c stmt s
  | branches branches => exact grown_checkBranches c branches s
  | arms arms => exact grown_checkArms c arms s
  | operand pos acts => exact grown_closing c pos acts s

theorem Reached.grown {task : Task} (h : Reached c f task s) : s.found <+: (runFunction c f).found :=
  (grown_task task s).found.trans h.found

theorem Visited.found (h : Visited c f s) : s.found <+: (runFunction c f).found := by
  cases h with
  | start h => exact h.grown
  | @between pos before after s h =>
    have hrun := h.found
    rw [Task.run, closing, closeStatements_found, perform_append] at hrun
    exact (grown_perform c after _).found.trans hrun
  | finish h => exact h.found

theorem grown_lend (kind : RefKind) (source region : Ident Span) (s : State) :
    Grown (openBorrow c region s).2 (lend c kind source region s) := by
  unfold lend
  dsimp only
  split
  · exact grown_takeBorrow ..
  · exact .refl _

theorem grown_foldl {α : Type} {step : State → α → State} (hstep : ∀ s a, Grown s (step s a)) (s : State) (l : List α) :
    Grown s (l.foldl step s) :=
  List.foldlRecOn l step (.refl s) fun t ht a _ => ht.trans (hstep t a)

theorem grown_enterFunctionRegion (s : State) (r : Ident Span) : Grown s (enterFunctionRegion c s r) := by
  unfold enterFunctionRegion
  split
  · exact .of_same rfl rfl
  · exact grown_report ..

theorem grown_joinBinding (exits : List (Span × Scopes)) (s : State) (entry : BindingId × Binding) :
    Grown s (joinBinding c exits s entry) := by
  refine .of_escaped ?_ (joinBinding_frame c exits s entry).2.2.2.2
  rw [joinBinding_found]
  exact noteDisagreement_grows c exits s entry

theorem Joining.found {outcomes : List Outcome} (h : Joining c f outcomes s) :
    (join c outcomes s).2.found <+: (runFunction c f).found := by
  cases h with
  | skip h => exact h.found
  | otherwise h ht hlast =>
    subst ht hlast
    exact h.found
  | select h ht =>
    subst ht
    exact h.found

theorem Moment.found (h : Moment c f s) : s.found <+: (runFunction c f).found := by
  have hentry : (entryState c f).found <+: (runFunction c f).found := Reached.body.grown
  have hdefining : ∀ (s : State) (p : Slot Span), Grown s (defineParam c s p) := fun _ _ => .of_same rfl rfl
  cases h with
  | visited h => exact h.found
  | @opening before after hsplit =>
    refine List.IsPrefix.trans ?_ hentry
    rw [entryState, hsplit, List.foldl_append]
    exact ((grown_foldl grown_enterFunctionRegion _ after).trans (grown_foldl hdefining _ _)).found
  | @defining before after hsplit =>
    refine List.IsPrefix.trans ?_ hentry
    rw [entryState, hsplit, List.foldl_append]
    exact (grown_foldl hdefining _ after).found
  | ended => exact List.prefix_rfl
  | @unpacking pos before after value s h =>
    refine List.IsPrefix.trans ?_ h.found
    show _ <+: (unpack c (before ++ after) (evalClosed c value s)).found
    rw [unpack, unpack, List.foldl_append]
    exact (grown_unpack c after _).found
  | @matching pos variant before after body rest s h =>
    refine List.IsPrefix.trans ?_ (Reached.arm h).grown
    rw [unpack, unpack, List.foldl_append]
    exact (grown_unpack c after _).found
  | matched h hrun => exact hrun ▸ (Reached.nextArm h).grown
  | @joining outcomes before after s h hr hsplit =>
    refine List.IsPrefix.trans ?_ h.found
    rw [join_of_some c s hr, hsplit, List.foldl_append]
    exact (grown_foldl (grown_joinBinding _) _ after).found
  | looped h hentry => exact hentry ▸ (Reached.loop h).found
  | counting h => exact (Reached.count h).grown
  | counted h hentry => exact hentry ▸ (Reached.count h).found
  | uncounted h hentry => exact hentry ▸ (Reached.count h).found
  | @opened pos kind source name region body s h =>
    refine (grown_lend kind source region s).found.trans ?_
    have hinside := (Reached.borrow h).grown
    rwa [enterBorrow_state] at hinside
  | lent h | naming h =>
    have hinside := (Reached.borrow h).grown
    rwa [enterBorrow_state] at hinside
  | @returning pos kind source name region body s run h hrun =>
    subst hrun
    have hvisit := h.found
    rw [Task.run, visit] at hvisit
    rwa [leaveBorrow_found] at hvisit

end Linearity.Check
