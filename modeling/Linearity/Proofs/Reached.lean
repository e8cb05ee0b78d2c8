import Linearity.Proofs.Balance
import Linearity.Proofs.Growth

/-! The states that the check of a function passes through.

A `Task` is a part of a check with a beginning and an end: a block, a statement, the
branches that are still to come, the evaluation of an operand. `Reached` says which
tasks the check of a function comes to, and in which states; `Visited` collects the
states themselves, those in the middle of an evaluation included. A statement finds
everything ready (`Reached.ready`), and every state is coherent (`Visited.coherent`),
no matter what has been reported. -/
namespace Linearity.Check

inductive Task where
  | block (block : Block Span)
  | stmts (stmts : List (Stmt Span))
  | stmt (stmt : Stmt Span)
  | branches (branches : List (Branch Span))
  | arms (arms : List (Arm Span))
  /-- An evaluation, up to where its statement regions are closed. -/
  | operand (pos : Span) (acts : List Action)

variable (c : Context) (f : FunDef Span)

/-- The state in which a task ends. -/
def Task.run : Task → State → State
  | .block b, s => (checkBlock c b s).2
  | .stmts l, s => (checkStmts c l s).2
  | .stmt st, s => (visit c st s).2
  | .branches l, s => (checkBranches c l s).2
  | .arms l, s => (checkArms c l s).2
  | .operand pos acts, s => closing c pos acts s

/-- The check of `f` comes to a task in a state. -/
inductive Reached : Task → State → Prop where
  | body : Reached (.block f.body) (entryState c f)
  -- Blocks and lists of statements
  | inside {pos : Span} {stmts : List (Stmt Span)} {s : State} :
    Reached (.block ⟨pos, stmts⟩) s → Reached (.stmts stmts) (pushScope s)
  | first {stmt : Stmt Span} {rest : List (Stmt Span)} {s : State} :
    Reached (.stmts (stmt :: rest)) s → halted c s = false → Reached (.stmt stmt) {s with escaped := []}
  | next {stmt : Stmt Span} {rest : List (Stmt Span)} {s : State} :
    Reached (.stmts (stmt :: rest)) s → halted c s = false → (checkStmt c stmt s).1 = .continues →
    Reached (.stmts rest) (checkStmt c stmt s).2
  -- Operands
  | bound {pos : Span} {name : Ident Span} {ty : Ty} {value : Expr Span} {s : State} :
    Reached (.stmt (.bind pos name ty value)) s → Reached (.operand value.pos (actions value)) s
  | unpacked {pos : Span} {parts : List (Unpacked Span)} {value : Expr Span} {s : State} :
    Reached (.stmt (.unpack pos parts value)) s → Reached (.operand value.pos (actions value)) s
  | assigned {pos : Span} {target value : Expr Span} {s : State} :
    Reached (.stmt (.assign pos target value)) s →
    Reached (.operand pos (actions value ++ storeActions target value pos)) s
  | discarded {pos : Span} {value : Expr Span} {s : State} :
    Reached (.stmt (.discard pos value)) s → Reached (.operand pos
      (actions value ++ [.forbid value.ty (.discarded value.var? value.ty.text pos) rfl])) s
  | returned {pos : Span} {value : Expr Span} {s : State} :
    Reached (.stmt (.ret pos value)) s → Reached (.operand value.pos (actions value)) s
  | scrutinee {pos : Span} {value : Expr Span} {arms : List (Arm Span)} {s : State} :
    Reached (.stmt (.select pos value arms)) s → Reached (.operand value.pos (actions value)) s
  | guard {pos : Span} {cond : Expr Span} {body : Block Span} {s : State} :
    Reached (.stmt (.loop pos cond body)) s → Reached (.operand cond.pos (actions cond)) (enterLoop s)
  | lower {pos : Span} {var : Ident Span} {first last : Expr Span} {body : Block Span} {s : State} :
    Reached (.stmt (.count pos var first last body)) s →
    Reached (.operand first.pos (actions first)) (enterLoop s)
  | upper {pos : Span} {var : Ident Span} {first last : Expr Span} {body : Block Span} {s : State} :
    Reached (.stmt (.count pos var first last body)) s →
    Reached (.operand last.pos (actions last)) (evalClosed c first (enterLoop s))
  | condition {pos : Span} {cond : Expr Span} {body : Block Span} {rest : List (Branch Span)} {s : State} :
    Reached (.branches (⟨pos, cond, body⟩ :: rest)) s → Reached (.operand cond.pos (actions cond)) s
  -- Branches and arms
  | branches {pos : Span} {branches : List (Branch Span)} {otherwise : Option (Block Span)} {s : State} :
    Reached (.stmt (.choose pos branches otherwise)) s → Reached (.branches branches) s
  | otherwise {pos : Span} {branches : List (Branch Span)} {block : Block Span} {s : State} :
    Reached (.stmt (.choose pos branches (some block))) s →
    Reached (.block block) (checkBranches c branches s).2
  | branch {pos : Span} {cond : Expr Span} {body : Block Span} {rest : List (Branch Span)} {s : State} :
    Reached (.branches (⟨pos, cond, body⟩ :: rest)) s → Reached (.block body) (evalClosed c cond s)
  | nextBranch {pos : Span} {cond : Expr Span} {body : Block Span} {rest : List (Branch Span)} {s : State} :
    Reached (.branches (⟨pos, cond, body⟩ :: rest)) s →
    Reached (.branches rest)
      {(checkBlock c body (evalClosed c cond s)).2 with scopes := (evalClosed c cond s).scopes}
  | arms {pos : Span} {value : Expr Span} {arms : List (Arm Span)} {s : State} :
    Reached (.stmt (.select pos value arms)) s → Reached (.arms arms) (evalClosed c value s)
  | arm {pos : Span} {variant : Ident Span} {parts : List (Unpacked Span)} {body : Block Span}
    {rest : List (Arm Span)} {s : State} :
    Reached (.arms (⟨pos, variant, parts, body⟩ :: rest)) s →
    Reached (.block body) (unpack c parts (pushScope s))
  | nextArm {pos : Span} {variant : Ident Span} {parts : List (Unpacked Span)} {body : Block Span}
    {rest : List (Arm Span)} {s : State} :
    Reached (.arms (⟨pos, variant, parts, body⟩ :: rest)) s →
    Reached (.arms rest)
      (let run := checkBlock c body (unpack c parts (pushScope s))
       {leaveScope c run.1 pos run.2 with scopes := s.scopes})
  -- Other bodies
  | loop {pos : Span} {cond : Expr Span} {body : Block Span} {s : State} :
    Reached (.stmt (.loop pos cond body)) s → Reached (.block body) (evalClosed c cond (enterLoop s))
  | count {pos : Span} {var : Ident Span} {first last : Expr Span} {body : Block Span} {s : State} :
    Reached (.stmt (.count pos var first last body)) s →
    Reached (.block body) (define c var.name .int var.pos
      (pushScope (evalClosed c last (evalClosed c first (enterLoop s)))))
  | borrow {pos : Span} {kind : RefKind} {source name region : Ident Span} {body : Block Span} {s : State} :
    Reached (.stmt (.borrow pos kind source name region body)) s →
    Reached (.block body) (enterBorrow c kind source name region s).2
  | nested {body : Block Span} {s : State} : Reached (.stmt (.block body)) s → Reached (.block body) s

/-- The states at the beginning and the end of each task, and those between two actions
of an evaluation. -/
inductive Visited : State → Prop where
  | start {task : Task} {s : State} : Reached c f task s → Visited s
  | between {pos : Span} {before after : List Action} {s : State} :
    Reached c f (.operand pos (before ++ after)) s → Visited (perform c before s)
  | finish {task : Task} {s : State} : Reached c f task s → Visited (task.run c s)

variable {c f}

/-- An operand's actions are plain. -/
theorem Reached.plain {pos : Span} {acts : List Action} {s : State} (h : Reached c f (.operand pos acts) s) :
    acts.all Action.plain = true := by
  cases h with
  | assigned => rw [List.all_append, plain_actions, plain_storeActions]; rfl
  | discarded => rw [List.all_append, plain_actions]; rfl
  | _ => exact plain_actions _

theorem Reached.ready {task : Task} {s : State} (h : Reached c f task s) : Ready s := by
  induction h with
  | body => exact ready_entryState c f
  | inside _ ih => exact ih.pushScope
  | first _ _ ih => exact ih.of_same rfl rfl
  | @next stmt _ _ _ _ _ ih =>
    obtain ⟨new, h⟩ := kept_apart ih fun u hu => kept_visit c stmt hu
    exact h.ready ih
  | bound _ ih => exact ih
  | unpacked _ ih => exact ih
  | assigned _ ih => exact ih
  | discarded _ ih => exact ih
  | returned _ ih => exact ih
  | scrutinee _ ih => exact ih
  | guard _ ih => exact ih.enterLoop
  | lower _ ih => exact ih.enterLoop
  | @upper _ _ first _ _ _ _ ih => exact (kept_evalClosed c ih.enterLoop first).ready ih.enterLoop
  | condition _ ih => exact ih
  | branches _ ih => exact ih
  | @otherwise _ branches _ _ _ ih => exact (branched_checkBranches c branches ih).kept.ready ih
  | @branch _ cond _ _ _ _ ih => exact (kept_evalClosed c ih cond).ready ih
  | @nextBranch _ cond body _ _ _ ih =>
    have hentry := (kept_evalClosed c ih cond).ready ih
    exact hentry.of_same rfl (kept_checkBlock c body hentry).regions
  | @arms _ value _ _ _ ih => exact (kept_evalClosed c ih value).ready ih
  | @arm _ _ parts _ _ _ _ ih =>
    obtain ⟨new, hparts⟩ := kept_unpack c ih.pushScope parts
    exact hparts.ready ih.pushScope
  | @nextArm pos _ parts body _ _ _ ih =>
    obtain ⟨new, hparts⟩ := kept_unpack c ih.pushScope parts
    have hbody := hparts.trans (kept_checkBlock c body (hparts.ready ih.pushScope))
    exact ih.of_same rfl (hbody.leaveScope c ih _ pos).regions
  | @loop _ cond _ _ _ ih => exact (kept_evalClosed c ih.enterLoop cond).ready ih.enterLoop
  | @count _ var first last _ _ _ ih =>
    have hfirst := (kept_evalClosed c ih.enterLoop first).ready ih.enterLoop
    have hlast := ((kept_evalClosed c hfirst last).ready hfirst).pushScope
    obtain ⟨new, hvar⟩ := kept_define c hlast var.name .int var.pos
    exact hvar.ready hlast
  | @borrow _ kind source name region _ s _ ih =>
    obtain ⟨u, hu, hentered, _⟩ := enterBorrow_cases c ih kind source name region
    obtain ⟨new, hdefine⟩ := kept_define c hu.pushScope name.name (aliasTy kind source region s.scopes) name.pos
    rw [hentered]
    exact hdefine.ready hu.pushScope
  | nested _ ih => exact ih

/-- A task that is reached keeps everything. -/
theorem Reached.kept {task : Task} {s : State} (h : Reached c f task s) : ∃ new, Kept new s (task.run c s) := by
  have hs := h.ready
  cases task with
  | block block => exact ⟨[], kept_checkBlock c block hs⟩
  | stmts stmts => exact kept_checkStmts c stmts hs
  | stmt stmt => exact kept_visit c stmt hs
  | branches branches => exact ⟨[], (branched_checkBranches c branches hs).kept⟩
  | arms arms => exact ⟨[], (branched_checkArms c arms hs).kept⟩
  | operand pos acts => exact ⟨[], kept_closing c hs pos h.plain⟩

theorem Visited.coherent {s : State} (h : Visited c f s) : Coherent s.scopes s.regions := by
  cases h with
  | start h => exact h.ready.coherent
  | @between pos before after s h =>
    have hplain := h.plain
    rw [List.all_append, Bool.and_eq_true] at hplain
    exact (evaluated_perform c h.ready.settled (Evaluated.refl h.ready.coherent) hplain.1).coherent
  | finish h =>
    obtain ⟨new, hkept⟩ := h.kept
    exact hkept.coherent

/-! ### Nothing found is lost -/

theorem checkStmts_of_continues {stmt : Stmt Span} {rest : List (Stmt Span)} {s : State}
    (hrun : halted c s = false) (hreach : (checkStmt c stmt s).1 = .continues) :
    checkStmts c (stmt :: rest) s = checkStmts c rest (checkStmt c stmt s).2 := by
  rw [checkStmts, if_neg (by rw [hrun]; decide)]
  change (apart (visit c stmt) s).1 = .continues at hreach
  dsimp only
  rw [hreach]
  rfl

theorem checkStmts_of_diverges {stmt : Stmt Span} {rest : List (Stmt Span)} {s : State}
    (hrun : halted c s = false) (hreach : (checkStmt c stmt s).1 = .diverges) :
    checkStmts c (stmt :: rest) s = (.diverges, (checkStmt c stmt s).2) := by
  rw [checkStmts, if_neg (by rw [hrun]; decide)]
  change (apart (visit c stmt) s).1 = .diverges at hreach
  dsimp only
  rw [hreach]
  rfl

/-- What a task finds is found by the check of the whole function. -/
theorem Reached.found {task : Task} {s : State} (h : Reached c f task s) :
    (task.run c s).found <+: (runFunction c f).found := by
  induction h with
  | body => exact (grown_leaveScope ..).found
  | inside _ ih => exact (grown_leaveScope ..).found.trans ih
  | @first stmt rest s _ hrun ih =>
    refine List.IsPrefix.trans ?_ ih
    show (checkStmt c stmt s).2.found <+: (checkStmts c (stmt :: rest) s).2.found
    cases hreach : (checkStmt c stmt s).1 with
    | continues =>
      rw [checkStmts_of_continues hrun hreach]
      exact (grown_checkStmts ..).found
    | diverges => exact (checkStmts_of_diverges hrun hreach).symm ▸ List.prefix_rfl
  | @next stmt rest s _ hrun hreach ih =>
    rw [Task.run, checkStmts_of_continues hrun hreach] at ih
    exact ih
  | @bound pos name ty value s _ ih =>
    refine List.IsPrefix.trans ?_ ih
    show _ <+: (bind c pos name ty value s).found
    rw [bind_eq]
    exact (grown_perform ..).found
  | @unpacked _ _ value s _ ih =>
    refine List.IsPrefix.trans ?_ ih
    show (closing c value.pos (actions value) s).found <+: _
    rw [← evalClosed_eq]
    exact (grown_unpack ..).found
  | @assigned pos target value s _ ih =>
    refine List.IsPrefix.trans ?_ ih
    show _ <+: (assign c pos target value s).found
    rw [assign_eq]
    exact List.prefix_rfl
  | @discarded pos value s _ ih =>
    refine List.IsPrefix.trans ?_ ih
    show _ <+: (discard c pos value s).found
    rw [discard_eq]
    exact List.prefix_rfl
  | @returned pos value s _ ih =>
    refine List.IsPrefix.trans ?_ ih
    show _ <+: (ret c pos value s).found
    rw [ret_eq]
    exact (grown_perform ..).found
  | @scrutinee _ value _ s _ ih =>
    refine List.IsPrefix.trans ?_ ih
    show (closing c value.pos (actions value) s).found <+: _
    rw [← evalClosed_eq]
    exact ((grown_checkArms ..).trans (grown_join ..)).found
  | @guard _ cond _ s _ ih =>
    refine List.IsPrefix.trans ?_ ih
    show (closing c cond.pos (actions cond) (enterLoop s)).found <+: _
    rw [← evalClosed_eq]
    exact (grown_checkBlock ..).found
  | @lower _ var first last body s _ ih =>
    refine List.IsPrefix.trans ?_ ih
    show (closing c first.pos (actions first) (enterLoop s)).found <+: _
    rw [← evalClosed_eq]
    exact ((grown_evalClosed c last _).trans (grown_counter c var body _)).found
  | @upper _ var first last body s _ ih =>
    refine List.IsPrefix.trans ?_ ih
    show (closing c last.pos (actions last) (evalClosed c first (enterLoop s))).found <+: _
    rw [← evalClosed_eq]
    exact (grown_counter c var body _).found
  | @condition pos cond body rest s _ ih =>
    refine List.IsPrefix.trans ?_ ih
    show (closing c cond.pos (actions cond) s).found <+: _
    rw [← evalClosed_eq]
    exact ((grown_checkBlock c body _).trans
      ((grown_outcome pos _ _).trans (grown_checkBranches c rest _))).found
  | @branches _ _ otherwise _ _ ih =>
    refine List.IsPrefix.trans ?_ ih
    cases otherwise with
    | none => exact (grown_join ..).found
    | some block =>
      exact ((grown_checkBlock c block _).trans ((grown_outcome block.pos _ _).trans (grown_join ..))).found
  | @otherwise _ _ block _ _ ih =>
    exact List.IsPrefix.trans ((grown_outcome block.pos _ _).trans (grown_join ..)).found ih
  | @branch pos _ _ rest _ _ ih =>
    exact List.IsPrefix.trans ((grown_outcome pos _ _).trans (grown_checkBranches c rest _)).found ih
  | nextBranch _ ih => exact ih
  | arms _ ih => exact List.IsPrefix.trans (grown_join ..).found ih
  | @arm pos _ _ _ rest s _ ih =>
    exact List.IsPrefix.trans
      ((grown_leaveScope ..).trans ((grown_outcome pos s (_, _)).trans (grown_checkArms c rest _))).found ih
  | nextArm _ ih => exact ih
  | loop _ ih => exact ih
  | count _ ih => exact ih
  | borrow _ ih => exact List.IsPrefix.trans ((grown_leaveScope ..).trans (grown_leaveBorrow ..)).found ih
  | nested _ ih => exact ih

/-- Where a function ends, no scope is open. -/
theorem runFunction_frames (c : Context) (f : FunDef Span) : (runFunction c f).scopes.frames = [] := by
  have hbody := kept_checkBlock c f.body (ready_entryState c f)
  have hone := hbody.frames_length.trans (entryState_scopes c f).2
  refine List.eq_nil_of_length_eq_zero ?_
  rw [runFunction, leaveScope_scopes, ← Scopes.length_skeleton, Scopes.skeleton_pop, List.length_tail,
    Scopes.length_skeleton, hone]

/-- The state after a whole function, under its own type parameters. -/
def finalState (T : TypeTable) (settings : Settings) (f : FunDef Span) : State :=
  runFunction ⟨T, .ofParams f.typeParams, settings⟩ f

/-- Nothing is found in a function that is accepted. -/
theorem found_of_ok {T : TypeTable} {settings : Settings} {f : FunDef Span} {usage : Usage}
    (h : checkFunction T settings f = .ok usage) :
    (runFunction ⟨T, .ofParams f.typeParams, settings⟩ f).found = [] := by
  unfold checkFunction at h
  dsimp only at h
  split at h
  · rename_i hempty
    exact List.isEmpty_iff.mp hempty
  · cases h

theorem ok_of_found {T : TypeTable} {settings : Settings} {f : FunDef Span}
    (h : (runFunction ⟨T, .ofParams f.typeParams, settings⟩ f).found = []) : checkFunction T settings f =
      .ok ⟨f.name.name, (runFunction ⟨T, .ofParams f.typeParams, settings⟩ f).events⟩ :=
  if_pos (List.isEmpty_iff.mpr h)

/-- What is found in a function that is rejected. -/
theorem found_of_error {T : TypeTable} {settings : Settings} {f : FunDef Span} {found : List Violation}
    (h : checkFunction T settings f = .error found) :
    found = Violation.sorted (runFunction ⟨T, .ofParams f.typeParams, settings⟩ f).found ∧
      (runFunction ⟨T, .ofParams f.typeParams, settings⟩ f).found ≠ [] := by
  unfold checkFunction at h
  dsimp only at h
  split at h
  · cases h
  · rename_i hempty
    cases h
    exact ⟨rfl, fun hnil => hempty (List.isEmpty_iff.mpr hnil)⟩

theorem error_of_found {T : TypeTable} {settings : Settings} {f : FunDef Span}
    (h : (runFunction ⟨T, .ofParams f.typeParams, settings⟩ f).found ≠ []) : checkFunction T settings f =
      .error (Violation.sorted (runFunction ⟨T, .ofParams f.typeParams, settings⟩ f).found) :=
  if_neg fun hempty => h (List.isEmpty_iff.mp hempty)

end Linearity.Check
