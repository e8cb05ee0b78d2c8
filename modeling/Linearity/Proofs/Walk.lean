import Linearity.Proofs.Reached
import Linearity.Proofs.Faithful

/-! How joins and loops look to a binding.

At a join the walk over a body goes on from several branches at once. To a binding it
looks as if it came from one of them: any that consumes it, and any at all if none does
(`view_join`). A loop's body, if all linear bindings are behind the barrier, looks as if
it had not been entered (`Kept.scopes_eq`); and a path is as balanced as the walk is
(`kept_run`). -/
namespace Linearity.Check
variable {c : Context} {s t p : State} {id : BindingId}

/-- The open regions tell a frozen binding from one that is not, so its state is known
up to whether it is consumed. -/
theorem faded_of_accounted {regions : Regions} {b b' : Binding} (h : Accounted regions id b)
    (h' : Accounted regions id b') (hlin : b'.isLinear = b.isLinear)
    (hconsumed : b'.state.isConsumed = b.state.isConsumed) : b'.state.faded = b.state.faded := by
  cases hl : b.isLinear with
  | false => rw [(h.free hl).1, (h'.free (hlin.trans hl)).1]
  | true =>
    have hl' := hlin.trans hl
    cases hs : b.state with
    | frozen kind pos =>
      have hone := h.frozen hl hs
      cases hs' : b'.state with
      | frozen kind' pos' =>
        rw [h'.frozen hl' hs'] at hone
        cases hone
        rfl
      | unconsumed =>
        rw [h'.idle hl' (by simp [hs'])] at hone
        cases hone
      | consumed at₀ =>
        rw [h'.idle hl' (by simp [hs'])] at hone
        cases hone
    | unconsumed =>
      cases hs' : b'.state with
      | frozen kind' pos' =>
        have hone := h'.frozen hl' hs'
        rw [h.idle hl (by simp [hs])] at hone
        cases hone
      | unconsumed => rfl
      | consumed at₀ => simp [hs, hs', BindingState.isConsumed] at hconsumed
    | consumed at₀ =>
      cases hs' : b'.state with
      | consumed at₁ => rfl
      | frozen kind' pos' => simp [hs, hs', BindingState.isConsumed] at hconsumed
      | unconsumed => simp [hs, hs', BindingState.isConsumed] at hconsumed

/-- Two states that differ only in states of bindings look the same to a binding that is
consumed in both or in neither. -/
theorem view_of_kept (h : Kept [] s t) (h' : Kept [] s p)
    (hconsumed : (consumedAt id t.scopes).isSome = (consumedAt id p.scopes).isSome) :
    t.view id = p.view id := by
  have hskel : t.scopes.skeleton = p.scopes.skeleton := h.skeleton_eq.trans h'.skeleton_eq.symm
  have hregions : t.regions = p.regions := h.regions.trans h'.regions.symm
  refine view_ext hskel (h.barrier.trans h'.barrier.symm) (by rw [hregions]) ?_
  cases hb : t.scopes.get? id with
  | none =>
    have hmap : (p.scopes.get? id).map Binding.blank = none := by
      rw [← Scopes.get?_skeleton, ← hskel, Scopes.get?_skeleton, hb]
      rfl
    rw [Option.map_eq_none_iff.mp hmap]
  | some b =>
    obtain ⟨b', hb', hblank⟩ := Scopes.get?_of_skeleton hskel.symm hb
    rw [consumedAt_of_get? hb, consumedAt_of_get? hb'] at hconsumed
    have hlin : b'.isLinear = b.isLinear := Binding.isLinear_of_blank hblank
    have hacc := h.coherent.accounted hb
    rw [hregions] at hacc
    rw [hb']
    exact congrArg some (faded_of_accounted hacc (h'.coherent.accounted hb') hlin hconsumed.symm).symm

/-! ### Joins -/

/-- A join looks like a branch that consumes the binding if any does. -/
theorem view_join {outcomes : List Outcome} (h : Branched s outcomes t) {e : Span × Scopes}
    (he : e ∈ reached outcomes)
    (hleads : ∀ e' ∈ reached outcomes, (consumedAt id e'.2).isSome = true → (consumedAt id e.2).isSome = true) :
    (join c outcomes t).2.view id = State.view id {t with scopes := e.2} := by
  refine view_of_kept (kept_join c h) (h.exits he) ?_
  have hr : reached outcomes ≠ [] := List.ne_nil_of_mem he
  have hskel : (join c outcomes t).2.scopes.skeleton = e.2.skeleton :=
    (kept_join c h).skeleton_eq.trans (h.exits he).skeleton_eq.symm
  cases hb : t.scopes.get? id with
  | none =>
    have hjoin : (join c outcomes t).2.scopes.get? id = none := by rw [get?_join c t hr, hb]; rfl
    have hmap : (e.2.get? id).map Binding.blank = none := by
      rw [← Scopes.get?_skeleton, ← hskel, Scopes.get?_skeleton, hjoin]
      rfl
    unfold consumedAt
    rw [hjoin, Option.map_eq_none_iff.mp hmap]
  | some b =>
    have hjoin := get?_join c t hr id
    rw [hb, Option.map_some] at hjoin
    rw [consumedAt_of_get? hjoin]
    cases hl : b.isLinear with
    | true =>
      rw [if_pos rfl, merged_isConsumed, Bool.eq_iff_iff, List.any_eq_true]
      exact ⟨fun ⟨e', he', hsome⟩ => hleads e' he' hsome, fun hsome => ⟨e, he, hsome⟩⟩
    | false =>
      -- What is free is never consumed.
      obtain ⟨b', hb', hblank⟩ := Scopes.get?_of_skeleton
        ((h.exits he).skeleton_eq.trans h.kept.skeleton_eq.symm) hb
      have hfree : b'.isLinear = false := (Binding.isLinear_of_blank hblank).trans hl
      rw [consumedAt_of_get? hb', (((h.exits he).coherent.accounted hb').free hfree).1,
        if_neg (by decide), ((h.kept.coherent.accounted hb).free hl).1]

section Choices
variable (c) (pos : Span) (branches : List (Branch Span)) (otherwise : Option (Block Span)) (s : State)

/-- All branches of a choice, the last one included that is taken if no condition holds. -/
def checkChoice : List Outcome × State :=
  let after := checkBranches c branches s
  match otherwise with
  | none => (after.1 ++ [⟨pos, some after.2.scopes⟩], after.2)
  | some block =>
    let last := outcome block.pos after.2 (checkBlock c block after.2)
    (after.1 ++ [last.1], last.2)

theorem visit_choose : visit c (.choose pos branches otherwise) s =
    join c (checkChoice c pos branches otherwise s).1 (checkChoice c pos branches otherwise s).2 := by
  cases otherwise <;> rfl

/-- One branch, after the conditions before it. -/
def checkBranch (branch : Branch Span) (s : State) : Outcome × State :=
  let entry := evalClosed c branch.cond s
  outcome branch.pos entry (checkBlock c branch.body entry)

theorem checkChoice_cons (branch : Branch Span) :
    checkChoice c pos (branch :: branches) otherwise s =
      let after := checkChoice c pos branches otherwise (checkBranch c branch s).2
      ((checkBranch c branch s).1 :: after.1, after.2) := by
  cases branch
  cases otherwise <;> rfl

/-- One arm, in a scope of its own. -/
def checkArm (arm : Arm Span) (s : State) : Outcome × State :=
  let run := checkBlock c arm.body (unpack c arm.parts (pushScope s))
  outcome arm.pos s (run.1, leaveScope c run.1 arm.pos run.2)

theorem checkArms_cons (arm : Arm Span) (arms : List (Arm Span)) : checkArms c (arm :: arms) s =
    let after := checkArms c arms (checkArm c arm s).2
    ((checkArm c arm s).1 :: after.1, after.2) := by
  cases arm
  rfl

theorem grown_checkChoice : Grown s (checkChoice c pos branches otherwise s).2 := by
  cases otherwise with
  | none => exact grown_checkBranches c branches s
  | some block =>
    exact (grown_checkBranches c branches s).trans ((grown_checkBlock c block _).trans (grown_outcome block.pos _ _))

end Choices

theorem branched_checkChoice (hs : Ready s) (pos : Span) (branches : List (Branch Span))
    (otherwise : Option (Block Span)) :
    Branched s (checkChoice c pos branches otherwise s).1 (checkChoice c pos branches otherwise s).2 := by
  have hbranches := branched_checkBranches c branches hs
  have hready := hbranches.kept.ready hs
  cases otherwise with
  | none => exact hbranches.append (branched_skip hready pos)
  | some block =>
    exact hbranches.append (branched_outcome hready (checkBlock c block (checkBranches c branches s).2).1
      (kept_checkBlock c block hready) block.pos)

theorem ready_checkBranch (hs : Ready s) (branch : Branch Span) : Ready (checkBranch c branch s).2 := by
  have hentry := (kept_evalClosed c hs branch.cond).ready hs
  exact hentry.of_same rfl (kept_checkBlock c branch.body hentry).regions

theorem ready_unpack (hs : Ready s) (parts : List (Unpacked Span)) : Ready (unpack c parts (pushScope s)) := by
  obtain ⟨new, hparts⟩ := kept_unpack c hs.pushScope parts
  exact hparts.ready hs.pushScope

theorem kept_checkArm (hs : Ready s) (arm : Arm Span) :
    Kept [] s (leaveScope c (checkBlock c arm.body (unpack c arm.parts (pushScope s))).1 arm.pos
      (checkBlock c arm.body (unpack c arm.parts (pushScope s))).2) := by
  obtain ⟨new, hparts⟩ := kept_unpack c hs.pushScope arm.parts
  exact (hparts.trans (kept_checkBlock c arm.body (hparts.ready hs.pushScope))).leaveScope c hs _ arm.pos

theorem ready_checkArm (hs : Ready s) (arm : Arm Span) : Ready (checkArm c arm s).2 :=
  hs.of_same rfl (kept_checkArm hs arm).regions

theorem ready_enterBorrow (hs : Ready s) (kind : RefKind) (source name region : Ident Span) :
    Ready (enterBorrow c kind source name region s).2 := by
  obtain ⟨u, hu, hentered, _⟩ := enterBorrow_cases c hs kind source name region
  obtain ⟨new, hdefine⟩ := kept_define c hu.pushScope name.name (aliasTy kind source region s.scopes) name.pos
  rw [hentered]
  exact hdefine.ready hu.pushScope

/-- Where a statement ends, the next may start. -/
theorem ready_checkStmt (hs : Ready s) (stmt : Stmt Span) : Ready (checkStmt c stmt s).2 := by
  have hready : Ready {s with escaped := []} := hs.of_same rfl rfl
  obtain ⟨new, hkept⟩ := kept_visit c stmt hready
  exact (hkept.ready hready).of_same rfl rfl

/-- The first of some statements is visited, and nothing is found in it if nothing is in all. -/
theorem clean_first {stmt : Stmt Span} {rest : List (Stmt Span)} (h : (checkStmts c (stmt :: rest) s).2.found = []) :
    halted c s = false ∧ (visit c stmt {s with escaped := []}).2.found = [] := by
  have hrun : halted c s = false := halted_of_clean ((grown_checkStmts c (stmt :: rest) s).eq_nil h)
  refine ⟨hrun, ?_⟩
  cases hreach : (checkStmt c stmt s).1 with
  | continues =>
    rw [checkStmts_of_continues hrun hreach] at h
    have hstmt := (grown_checkStmts c rest _).eq_nil h
    exact hstmt
  | diverges =>
    rw [checkStmts_of_diverges hrun hreach] at h
    exact h

theorem grown_checkBranch (branch : Branch Span) (s : State) : Grown s (checkBranch c branch s).2 :=
  (grown_evalClosed c branch.cond s).trans ((grown_checkBlock c branch.body _).trans (grown_outcome branch.pos _ _))

theorem grown_checkArm (arm : Arm Span) (s : State) : Grown s (checkArm c arm s).2 :=
  .trans (t := pushScope s) (.of_same rfl rfl)
    ((grown_unpack c arm.parts _).trans ((grown_checkBlock c arm.body _).trans
      ((grown_leaveScope ..).trans (grown_outcome arm.pos s (_, _)))))

/-- Where a branch that is run from `s` comes out, if it does. -/
theorem reached_outcome {pos : Span} {run : Reach × State} (h : run.1 = .continues) :
    (outcome pos s run).1.exit = some run.2.scopes :=
  if_pos h

theorem mem_reached_cons {o : Outcome} {outcomes : List Outcome} {scopes : Scopes} (h : o.exit = some scopes) :
    (o.pos, scopes) ∈ reached (o :: outcomes) :=
  mem_reached.mpr ⟨o, List.mem_cons_self, rfl, h⟩

theorem mem_reached_of_mem {o : Outcome} {outcomes : List Outcome} {e : Span × Scopes}
    (h : e ∈ reached outcomes) : e ∈ reached (o :: outcomes) := by
  obtain ⟨o', ho', hpos, hexit⟩ := mem_reached.mp h
  exact mem_reached.mpr ⟨o', List.mem_cons_of_mem o ho', hpos, hexit⟩

/-! ### Runs -/

theorem kept_perform (hs : Ready s) {acts : List Action} (hacts : acts.all Action.binds = true) :
    ∃ new, Kept new s (perform c acts s) := by
  induction acts generalizing s with
  | nil => exact ⟨[], .refl hs⟩
  | cons a acts ih =>
    rw [List.all_cons, Bool.and_eq_true] at hacts
    have hact : ∃ new, Kept new s (act c a s) := by
      cases a with
      | define name ty pos => exact kept_define c hs name ty pos
      | live ty name pos => exact ⟨[], hs.kept_same (requireLive_scopes ..) (requireLive_regions ..)⟩
      | _ => cases hacts.1
    obtain ⟨m, hact⟩ := hact
    obtain ⟨n, hrest⟩ := ih (hact.ready hs) hacts.2
    exact ⟨_, hact.trans hrest⟩

/-- Leaving a loop for the barrier before it. -/
theorem Kept.exitLoop {new : Frame} (h : Kept new (enterLoop s) t) : Kept new s (exitLoop s t) := by
  refine ⟨h.regions, h.skeleton, rfl, fun {id b} _ hb => ?_, ?_⟩
  · exact h.isolated (decide_eq_true (Scopes.get?_lt hb)) hb
  · exact ⟨h.coherent.valid, h.coherent.accounted, h.coherent.shared⟩

variable (c) in
/-- Runs are as balanced as the walk is. -/
theorem kept_law : PathLaw c c true true fun r F _ =>
    r = .continues → ∀ s, Ready s → ∃ new, Kept new s (F s) where
  skip _ s hs := ⟨[], .refl hs⟩
  seq hF hG hr s hs := by
    obtain ⟨m, hfirst⟩ := hF rfl s hs
    obtain ⟨n, hthen⟩ := hG hr _ (hfirst.ready hs)
    exact ⟨_, hfirst.trans hthen⟩
  perform hacts _ s hs := kept_perform hs hacts
  closing pos _ hacts _ s hs := ⟨[], kept_closing c hs pos hacts⟩
  ret _ _ _ hr := nomatch hr
  inScope pos hF hr s hs := by
    subst hr
    obtain ⟨n, hinner⟩ := hF rfl _ hs.pushScope
    exact ⟨[], hinner.leaveScope c hs .continues pos⟩
  lent {r F _} pos kind source name region hF hr s hs := by
    subst hr
    have hbody : ∀ u, Ready u → ∃ new, Kept new u ((Reach.continues, F u) : Reach × State).2 := hF rfl
    exact ⟨[], kept_borrow c hs kind source name region pos hbody⟩
  fenced hF hr s hs := by
    subst hr
    obtain ⟨n, hinner⟩ := hF rfl _ hs.enterLoop
    exact ⟨n, hinner.exitLoop⟩
  secluded hF hr s hs := by
    obtain ⟨n, hinner⟩ := hF hr {s with escaped := []} (hs.of_same rfl rfl)
    exact ⟨n, hinner.regions, hinner.skeleton, hinner.barrier, hinner.isolated, hinner.coherent⟩

theorem kept_run {code : Code} (path : Path code .continues) (hs : Ready s) :
    ∃ new, Kept new s (path.run c true s) :=
  (kept_law c).run path rfl s hs

theorem kept_run_block {body : Block Span} (path : Path (.block body) .continues) (hs : Ready s) :
    Kept [] s (path.run c true s) := by
  cases path with
  | block pos path =>
    obtain ⟨n, hinner⟩ := kept_run path hs.pushScope
    exact hinner.leaveScope c hs .continues pos

end Linearity.Check
