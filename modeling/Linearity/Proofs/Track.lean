import Linearity.Proofs.Policy
import Linearity.Proofs.Walk

/-! Every end of a walk is the end of a path, to one binding at a time.

The walk goes on from a join as from several branches at once, and no path does that. But
to a single binding the join looks like one of the branches (`view_join`), and past a loop
as if there had been no round. So for every binding there is a path to wherever the walk
comes, at whose end things look the same to that binding (`tracked_visit`); and for every
branch that the walk comes out of there is one through that branch. -/
namespace Linearity.Check
variable {c : Context} {s t u : State}

/-- To every binding, the way from `s` to `t` looks like a path that takes the branches `via`. -/
def Tracked (c : Context) (code : Code) (via : List Span) (s t : State) : Prop :=
  ∀ id p, s.view id = State.view id p → ∃ path : Path code .continues,
    (∀ pos ∈ via, ∃ u, (pos, u) ∈ path.exits c true p) ∧ t.view id = (path.run c true p).view id

/-- Only how the end looks is of account. -/
theorem Tracked.of_same {code : Code} {via : List Span} (h : Tracked c code via s t)
    (hscopes : u.scopes = t.scopes) (hregions : u.regions = t.regions) : Tracked c code via s u := by
  intro id p hview
  obtain ⟨path, hexits, hend⟩ := h id p hview
  exact ⟨path, hexits, (view_of_same hscopes hregions).trans hend⟩

/-- Nor is more of the start. -/
theorem Tracked.of_start {code : Code} {via : List Span} (h : Tracked c code via s t)
    (hscopes : s.scopes = u.scopes) (hregions : s.regions = u.regions) : Tracked c code via u t :=
  fun id p hview => h id p ((view_of_same hscopes hregions).trans hview)

/-! ### Statements and blocks -/

/-- A statement without choices is its own path. -/
theorem tracked_simple {stmt : Stmt Span} (path : Path (.stmt stmt) .continues)
    (h : (visit c stmt s).2 = path.run c true s) : Tracked c (.stmt stmt) [] s (visit c stmt s).2 := by
  intro id p hview
  refine ⟨path, nofun, ?_⟩
  rw [h]
  exact (faithful_run c true path).view hview

theorem tracked_block (pos : Span) {stmts : List (Stmt Span)} (h : Tracked c (.stmts stmts) [] (pushScope s) t) :
    Tracked c (.block ⟨pos, stmts⟩) [] s (leaveScope c .continues pos t) := by
  intro id p hview
  obtain ⟨path, _, hend⟩ := h id _ (view_pushScope hview)
  exact ⟨.block pos path, nofun, view_leaveScope c hend .continues pos⟩

theorem tracked_nil : Tracked c (.stmts []) [] s s :=
  fun _ _ hview => ⟨.nil, nofun, hview⟩

theorem tracked_next {stmt : Stmt Span} {rest : List (Stmt Span)}
    (hfirst : Tracked c (.stmt stmt) [] {s with escaped := []} t)
    (hrest : Tracked c (.stmts rest) [] {t with escaped := s.escaped} u) :
    Tracked c (.stmts (stmt :: rest)) [] s u := by
  intro id p hview
  obtain ⟨first, _, hmid⟩ := hfirst id {p with escaped := []} hview
  obtain ⟨path, _, hend⟩ := hrest id (secluded (first.run c true) p) hmid
  exact ⟨.next first path, nofun, hend⟩

/-! ### Branches -/

/-- To a binding, a join looks like one of the branches that are joined. -/
theorem exists_view_join {outcomes : List Outcome} (h : Branched s outcomes t) (hr : reached outcomes ≠ [])
    (id : BindingId) :
    ∃ e ∈ reached outcomes, (join c outcomes t).2.view id = State.view id {t with scopes := e.2} := by
  by_cases hany : ∃ e ∈ reached outcomes, (consumedAt id e.2).isSome = true
  · obtain ⟨e, he, hsome⟩ := hany
    exact ⟨e, he, view_join h he fun _ _ _ => hsome⟩
  · obtain ⟨e, he⟩ := List.exists_mem_of_ne_nil _ hr
    exact ⟨e, he, view_join h he fun e' he' hsome => absurd ⟨e', he', hsome⟩ hany⟩

theorem reached_of_join {outcomes : List Outcome} (h : (join c outcomes t).1 = .continues) :
    reached outcomes ≠ [] := by
  intro hnil
  rw [join_of_none c t hnil] at h
  cases h

/-- Every branch of a choice that is come out of. -/
def BranchesTracked (c : Context) (code : Code) (s : State) (after : List Outcome × State) : Prop :=
  ∀ e ∈ reached after.1, Tracked c code [e.1] s {after.2 with scopes := e.2}

theorem tracked_choose {pos : Span} {branches : List (Branch Span)} {otherwise : Option (Block Span)} (hs : Ready s)
    (h : BranchesTracked c (.branches pos branches otherwise) s (checkChoice c pos branches otherwise s))
    (hreach : (visit c (.choose pos branches otherwise) s).1 = .continues) :
    Tracked c (.stmt (.choose pos branches otherwise)) [] s (visit c (.choose pos branches otherwise) s).2 := by
  intro id p hview
  rw [visit_choose] at hreach ⊢
  obtain ⟨e, he, hjoin⟩ := exists_view_join (c := c) (branched_checkChoice hs ..) (reached_of_join hreach) id
  obtain ⟨path, _, hend⟩ := h e he id p hview
  exact ⟨.choose path, nofun, hjoin.trans hend⟩

theorem tracked_select {pos : Span} {scrutinee : Expr Span} {arms : List (Arm Span)} (hs : Ready s)
    (h : BranchesTracked c (.arms arms) (evalClosed c scrutinee s) (checkArms c arms (evalClosed c scrutinee s)))
    (hreach : (visit c (.select pos scrutinee arms) s).1 = .continues) :
    Tracked c (.stmt (.select pos scrutinee arms)) [] s (visit c (.select pos scrutinee arms) s).2 := by
  intro id p hview
  have hready := (kept_evalClosed c hs scrutinee).ready hs
  obtain ⟨e, he, hjoin⟩ := exists_view_join (c := c) (branched_checkArms c arms hready) (reached_of_join hreach) id
  obtain ⟨path, _, hend⟩ := h e he id _ ((faithful_evalClosed c scrutinee).view hview)
  exact ⟨.select pos scrutinee path, nofun, hjoin.trans hend⟩

section Branches
variable {at₀ : Span} {rest : List (Branch Span)} {otherwise : Option (Block Span)}

theorem tracked_taken {branch : Branch Span}
    (h : Tracked c (.block branch.body) [] (evalClosed c branch.cond s) t) :
    Tracked c (.branches at₀ (branch :: rest) otherwise) [branch.pos] s t := by
  intro id p hview
  obtain ⟨pos, cond, body⟩ := branch
  obtain ⟨path, _, hend⟩ := h id _ ((faithful_evalClosed c cond).view hview)
  refine ⟨.taken pos cond rest at₀ otherwise path, fun pos' hpos => ?_, hend⟩
  rw [List.mem_singleton.mp hpos]
  exact ⟨_, List.mem_cons_self⟩

theorem tracked_passed {branch : Branch Span} {via : List Span}
    (h : Tracked c (.branches at₀ rest otherwise) via (evalClosed c branch.cond s) t) :
    Tracked c (.branches at₀ (branch :: rest) otherwise) via s t := by
  intro id p hview
  obtain ⟨path, hexits, hend⟩ := h id _ ((faithful_evalClosed c branch.cond).view hview)
  exact ⟨.passed branch path, hexits, hend⟩

theorem tracked_otherwise {block : Block Span} (h : Tracked c (.block block) [] s t) :
    Tracked c (.branches at₀ [] (some block)) [block.pos] s t := by
  intro id p hview
  obtain ⟨path, _, hend⟩ := h id p hview
  refine ⟨.otherwise at₀ path, fun pos hpos => ?_, hend⟩
  rw [List.mem_singleton.mp hpos]
  exact ⟨_, List.mem_cons_self⟩

theorem tracked_skipped : Tracked c (.branches at₀ [] none) [at₀] s s := by
  intro id p hview
  refine ⟨.skipped at₀, fun pos hpos => ?_, hview⟩
  rw [List.mem_singleton.mp hpos]
  exact ⟨_, List.mem_cons_self⟩

theorem tracked_arm {arm : Arm Span} {arms : List (Arm Span)}
    (h : Tracked c (.block arm.body) [] (unpack c arm.parts (pushScope s)) t) :
    Tracked c (.arms (arm :: arms)) [arm.pos] s (leaveScope c .continues arm.pos t) := by
  intro id p hview
  obtain ⟨pos, variant, parts, body⟩ := arm
  obtain ⟨path, _, hend⟩ := h id _ ((faithful_unpack c parts).view (view_pushScope hview))
  refine ⟨.arm pos variant parts arms path, fun pos' hpos => ?_, view_leaveScope c hend .continues pos⟩
  rw [List.mem_singleton.mp hpos]
  exact ⟨_, List.mem_cons_self⟩

theorem tracked_passedArm {arm : Arm Span} {arms : List (Arm Span)} {via : List Span}
    (h : Tracked c (.arms arms) via s t) : Tracked c (.arms (arm :: arms)) via s t := by
  intro id p hview
  obtain ⟨path, hexits, hend⟩ := h id p hview
  exact ⟨.passedArm arm path, hexits, hend⟩

end Branches

section Outcomes
variable {code : Code} {o : Outcome}

theorem branchesTracked_single (h : ∀ scopes, o.exit = some scopes → Tracked c code [o.pos] s {t with scopes}) :
    BranchesTracked c code s ([o], t) := by
  intro e he
  obtain ⟨o', ho', hpos, hexit⟩ := mem_reached.mp he
  rw [List.mem_singleton.mp ho'] at hpos hexit
  rw [← hpos]
  exact h e.2 hexit

theorem branchesTracked_cons {after : List Outcome × State}
    (hfirst : ∀ scopes, o.exit = some scopes → Tracked c code [o.pos] s {after.2 with scopes})
    (hrest : BranchesTracked c code s after) : BranchesTracked c code s (o :: after.1, after.2) := by
  intro e he
  obtain ⟨o', ho', hpos, hexit⟩ := mem_reached.mp he
  rcases List.mem_cons.mp ho' with rfl | ho'
  · exact branchesTracked_single hfirst e (mem_reached.mpr ⟨o', List.mem_singleton_self o', hpos, hexit⟩)
  · exact hrest e (mem_reached.mpr ⟨o', ho', hpos, hexit⟩)

/-- A branch that is come out of. -/
theorem tracked_outcome {pos : Span} {run : Reach × State}
    (h : run.1 = .continues → Tracked c code [pos] s run.2) (hregions : t.regions = run.2.regions)
    {scopes : Scopes} (hexit : (outcome pos u run).1.exit = some scopes) :
    Tracked c code [pos] s {t with scopes} := by
  unfold outcome at hexit
  split at hexit
  · rename_i hreach
    cases hexit
    exact (h hreach).of_same rfl hregions
  · cases hexit

end Outcomes

theorem branchesTracked_branch {pos : Span} {branch : Branch Span} {rest : List (Branch Span)}
    {otherwise : Option (Block Span)} (hs : Ready s)
    (hbody : (checkBlock c branch.body (evalClosed c branch.cond s)).1 = .continues →
      Tracked c (.block branch.body) [] (evalClosed c branch.cond s)
        (checkBlock c branch.body (evalClosed c branch.cond s)).2)
    (hrest : BranchesTracked c (.branches pos rest otherwise) (checkBranch c branch s).2
      (checkChoice c pos rest otherwise (checkBranch c branch s).2)) :
    BranchesTracked c (.branches pos (branch :: rest) otherwise) s
      (checkChoice c pos (branch :: rest) otherwise s) := by
  have hentry := (kept_evalClosed c hs branch.cond).ready hs
  have hregions := (branched_checkChoice (c := c) (ready_checkBranch (c := c) hs branch) pos rest otherwise).kept.regions
  rw [checkChoice_cons]
  refine branchesTracked_cons (fun _ hexit => ?_) fun e he => tracked_passed ?_
  · exact tracked_outcome (fun hreach => tracked_taken (hbody hreach)) hregions hexit
  · exact (hrest e he).of_start rfl (kept_checkBlock c branch.body hentry).regions

theorem branchesTracked_arm {arm : Arm Span} {rest : List (Arm Span)} (hs : Ready s)
    (hbody : (checkBlock c arm.body (unpack c arm.parts (pushScope s))).1 = .continues →
      Tracked c (.block arm.body) [] (unpack c arm.parts (pushScope s))
        (checkBlock c arm.body (unpack c arm.parts (pushScope s))).2)
    (hrest : BranchesTracked c (.arms rest) (checkArm c arm s).2 (checkArms c rest (checkArm c arm s).2)) :
    BranchesTracked c (.arms (arm :: rest)) s (checkArms c (arm :: rest) s) := by
  have hregions := (branched_checkArms c rest (ready_checkArm (c := c) hs arm)).kept.regions
  rw [checkArms_cons]
  refine branchesTracked_cons (fun _ hexit => ?_) fun e he => tracked_passedArm ?_
  · refine tracked_outcome (fun hreach => ?_) hregions hexit
    dsimp only at hreach ⊢
    rw [hreach]
    exact tracked_arm (hbody hreach)
  · exact (hrest e he).of_start rfl (kept_checkArm hs arm).regions

/-! ### Loops and borrow blocks -/

/-- A loop's body, after which the scopes are those of its entry, is as good as not entered. -/
theorem view_restored (hs : Ready s) (body : Block Span) (id : BindingId) :
    State.view id {(checkBlock c body s).2 with scopes := s.scopes} = s.view id :=
  view_of_same rfl (kept_checkBlock c body hs).regions

/-- Past a loop, it is as if there had been no round. -/
theorem tracked_loop {pos : Span} {cond : Expr Span} {body : Block Span} (hs : Ready s) :
    Tracked c (.stmt (.loop pos cond body)) [] s (visit c (.loop pos cond body) s).2 := by
  intro id p hview
  have hready := (kept_evalClosed c hs.enterLoop cond).ready hs.enterLoop
  have hentry := (faithful_evalClosed c cond).view (view_enterLoop hview)
  exact ⟨.loop pos (.done (some cond) body), nofun,
    view_exitLoop hview ((view_restored hready body id).trans hentry)⟩

theorem tracked_count {pos : Span} {var : Ident Span} {first last : Expr Span} {body : Block Span} (hs : Ready s) :
    Tracked c (.stmt (.count pos var first last body)) [] s (visit c (.count pos var first last body) s).2 := by
  intro id p hview
  have hfirst := (kept_evalClosed c hs.enterLoop first).ready hs.enterLoop
  have hlast := (kept_evalClosed c hfirst last).ready hfirst
  obtain ⟨new, hvar⟩ := kept_define c hlast.pushScope var.name .int var.pos
  have hbounds := (faithful_evalClosed c last).view ((faithful_evalClosed c first).view (view_enterLoop hview))
  have hentry := view_define c (view_pushScope hbounds) var.name .int var.pos
  have hround := (view_restored (c := c) (hvar.ready hlast.pushScope) body id).trans hentry
  -- The counter's scope is left without a look at the counter, which comes to the same.
  have hleft := view_leaveScope c hround .continues pos
  have hpop := fun t : State => @view_of_same id (popScope t) (leaveScope c .continues pos t)
    (leaveScope_scopes ..) (leaveScope_regions ..)
  exact ⟨.count pos var first last (.done none body), nofun, view_exitLoop hview ((hpop _).symm.trans hleft)⟩

theorem tracked_borrow (pos : Span) {kind : RefKind} {source name region : Ident Span} {body : Block Span}
    (h : Tracked c (.block body) [] (enterBorrow c kind source name region s).2 t) :
    Tracked c (.stmt (.borrow pos kind source name region body)) [] s
      (leaveBorrow (enterBorrow c kind source name region s).1 pos (leaveScope c .continues pos t)) := by
  intro id p hview
  obtain ⟨path, _, hend⟩ := h id _ ((faithful_enterBorrow c kind source name region).view hview)
  refine ⟨.borrow pos kind source name region path, nofun, ?_⟩
  rw [enterBorrow_flag_of_view c kind source name region hview]
  exact view_leaveBorrow (view_leaveScope c hend .continues pos) _ pos

/-! ### The walk -/

mutual

/-- To every binding, where a statement ends looks like the end of a path through it. -/
theorem tracked_visit (hc : c.Thorough) : ∀ (stmt : Stmt Span) {s : State}, Ready s →
    (visit c stmt s).1 = .continues → Tracked c (.stmt stmt) [] s (visit c stmt s).2
  | .bind pos name ty value, _, _, _ => tracked_simple (.bind pos name ty value) rfl
  | .unpack pos parts value, _, _, _ => tracked_simple (.unpack pos parts value) rfl
  | .assign pos target value, _, _, _ => tracked_simple (.assign pos target value) rfl
  | .discard pos value, _, _, _ => tracked_simple (.discard pos value) rfl
  | .ret _ _, _, _, hreach => nomatch hreach
  | .choose pos branches none, s, hs, hreach =>
    tracked_choose hs (tracked_branches hc pos branches none (fun _ h => nomatch h) hs) hreach
  | .choose pos branches (some block), s, hs, hreach =>
    tracked_choose hs (tracked_branches hc pos branches (some block) (fun _ h _ hs => by
      cases h
      exact tracked_checkBlock hc block hs) hs) hreach
  | .select pos scrutinee arms, s, hs, hreach =>
    tracked_select hs (tracked_arms hc arms ((kept_evalClosed c hs scrutinee).ready hs)) hreach
  | .loop _ _ _, _, hs, _ => tracked_loop hs
  | .count _ _ _ _ _, _, hs, _ => tracked_count hs
  | .borrow pos kind source name region body, s, hs, hreach => by
    have hbody := tracked_checkBlock hc body (ready_enterBorrow hs kind source name region) hreach
    have h := tracked_borrow pos hbody
    rw [← show (checkBlock c body (enterBorrow c kind source name region s).2).1 = .continues from hreach] at h
    exact h
  | .block body, s, hs, hreach => by
    intro id p hview
    obtain ⟨path, _, hend⟩ := tracked_checkBlock hc body hs hreach id p hview
    exact ⟨.nested path, nofun, hend⟩

theorem tracked_checkBlock (hc : c.Thorough) : ∀ (block : Block Span) {s : State}, Ready s →
    (checkBlock c block s).1 = .continues → Tracked c (.block block) [] s (checkBlock c block s).2
  | ⟨pos, stmts⟩, s, hs, hreach => by
    have h := tracked_block pos (tracked_checkStmts hc stmts hs.pushScope hreach)
    rw [← show (checkStmts c stmts (pushScope s)).1 = .continues from hreach] at h
    exact h

theorem tracked_checkStmts (hc : c.Thorough) : ∀ (stmts : List (Stmt Span)) {s : State}, Ready s →
    (checkStmts c stmts s).1 = .continues → Tracked c (.stmts stmts) [] s (checkStmts c stmts s).2
  | [], _, _, _ => tracked_nil
  | stmt :: rest, s, hs, hreach => by
    have hready : Ready {s with escaped := []} := hs.of_same rfl rfl
    cases hfirst : (visit c stmt {s with escaped := []}).1 with
    | diverges =>
      rw [checkStmts_of_diverges (hc.halted s) hfirst] at hreach
      cases hreach
    | continues =>
      rw [checkStmts_of_continues (hc.halted s) hfirst] at hreach ⊢
      have hrest := tracked_checkStmts hc rest (ready_checkStmt hs stmt) hreach
      exact tracked_next (tracked_visit hc stmt hready hfirst) hrest

theorem tracked_branches (hc : c.Thorough) (pos : Span) :
    ∀ (branches : List (Branch Span)) (otherwise : Option (Block Span)),
    (∀ block ∈ otherwise, ∀ s : State, Ready s → (checkBlock c block s).1 = .continues →
      Tracked c (.block block) [] s (checkBlock c block s).2) → ∀ {s : State}, Ready s →
    BranchesTracked c (.branches pos branches otherwise) s (checkChoice c pos branches otherwise s)
  | [], none, _, s, _ => by
    refine branchesTracked_single fun scopes hexit => ?_
    cases hexit
    exact tracked_skipped
  | [], some block, hlast, s, hs => by
    refine branchesTracked_single fun scopes hexit => tracked_outcome (fun hreach => ?_) rfl hexit
    exact tracked_otherwise (hlast block rfl s hs hreach)
  | ⟨at₀, cond, body⟩ :: rest, otherwise, hlast, s, hs =>
    branchesTracked_branch hs (tracked_checkBlock hc body ((kept_evalClosed c hs cond).ready hs))
      (tracked_branches hc pos rest otherwise hlast (ready_checkBranch hs ⟨at₀, cond, body⟩))

theorem tracked_arms (hc : c.Thorough) : ∀ (arms : List (Arm Span)) {s : State}, Ready s →
    BranchesTracked c (.arms arms) s (checkArms c arms s)
  | [], _, _ => nofun
  | ⟨pos, variant, parts, body⟩ :: rest, _, hs =>
    branchesTracked_arm hs (tracked_checkBlock hc body (ready_unpack hs parts))
      (tracked_arms hc rest (ready_checkArm hs ⟨pos, variant, parts, body⟩))

end

end Linearity.Check
