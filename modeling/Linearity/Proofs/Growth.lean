import Linearity.Proofs.Actions
import Linearity.Proofs.Join

/-! What has been found stays found.

`Grown s t`: from `s` to `t` violations were only added, and regions were marked as
reported only where something was. It holds of every step, and so of every construct
(`grown_visit`). -/
namespace Linearity.Check
variable (c : Context) {s t u : State}

structure Grown (s t : State) : Prop where
  found : s.found <+: t.found
  honest : Honest s → Honest t

namespace Grown

theorem refl (s : State) : Grown s s := ⟨List.prefix_rfl, fun h => h⟩

theorem trans (h : Grown s t) (h' : Grown t u) : Grown s u :=
  ⟨h.found.trans h'.found, fun hs => h'.honest (h.honest hs)⟩

theorem of_same (hfound : t.found = s.found) (hescaped : t.escaped = s.escaped) : Grown s t := by
  refine ⟨hfound ▸ List.prefix_rfl, fun h => ?_⟩
  unfold Honest
  rw [hfound, hescaped]
  exact h

/-- Violations alone were added. -/
theorem of_escaped (hfound : s.found <+: t.found) (hescaped : t.escaped = s.escaped) : Grown s t := by
  refine ⟨hfound, fun h he => ?_⟩
  rw [hescaped] at he
  exact ne_nil_of_prefix hfound (h he)

theorem ne_nil (h : Grown s t) (hs : s.found ≠ []) : t.found ≠ [] :=
  ne_nil_of_prefix h.found hs

theorem eq_nil (h : Grown s t) (ht : t.found = []) : s.found = [] :=
  List.prefix_nil.mp (ht ▸ h.found)

end Grown

/-! ### Actions -/

theorem grown_report (v : Violation) (s : State) : Grown s (report c v s) :=
  .of_escaped (report_grows c v s) (report_escaped c v s)

theorem grown_reportAll (vs : List Violation) (s : State) : Grown s (reportAll c vs s) :=
  .of_escaped (reportAll_grows c vs s) (reportAll_escaped c vs s)

theorem grown_reportEscapes (rs : List String) (name : Option String) (pos : Span) (s : State) :
    Grown s (reportEscapes c rs name pos s) :=
  ⟨reportEscapes_grows c rs name pos s, fun h => honest_reportEscapes c h rs name pos⟩

theorem grown_requireBelow (ty : Ty) (limit : Nat) (name : Option String) (pos : Span) (s : State) :
    Grown s (requireBelow c ty limit name pos s) :=
  grown_reportEscapes ..

theorem grown_settle (outcome : Except Violation (Option BindingId) × Scopes) (event : Event) (s : State) :
    Grown s (settle c outcome event s) := by
  unfold settle
  split
  · exact .of_same rfl rfl
  · exact .refl s
  · exact grown_report ..

theorem grown_borrowBinding (kind : RefKind) (name : String) (id : BindingId) (region : String)
    (pos : Span) (shareable : Bool) (s : State) :
    Grown s (borrowBinding c kind name id region pos shareable s) := by
  have hspec := borrowBinding_spec c kind name id region pos shareable s
  generalize borrowBinding c kind name id region pos shareable s = t at hspec ⊢
  cases hspec with
  | conflict => exact grown_report ..
  | shared => exact .of_same rfl rfl
  | refused => exact grown_report ..
  | taken => exact .of_same rfl rfl

theorem grown_borrowExpr (kind : RefKind) (target : String) (ty : Ty) (pos : Span) (s : State) :
    Grown s (borrowExpr c kind target ty pos s) := by
  unfold borrowExpr
  split
  · split
    · exact grown_report ..
    · rename_i u henter
      have hu : Grown s u := by
        rcases enterStatement_ok henter with ⟨rfl, _⟩ | ⟨_, rfl⟩
        · exact .refl u
        · exact .of_same rfl rfl
      split
      · exact hu.trans (grown_borrowBinding ..)
      · exact hu
  · exact .refl s

theorem grown_act (a : Action) (s : State) : Grown s (act c a s) := by
  cases a with
  | consume => exact grown_settle ..
  | read => exact grown_settle ..
  | overwrite => exact grown_settle ..
  | borrow => exact grown_borrowExpr ..
  | define => exact .of_same rfl rfl
  | live => exact grown_reportEscapes ..
  | outlive name ty pos =>
    show Grown s (requireOutlives c name ty pos s)
    unfold requireOutlives
    split
    · exact grown_requireBelow ..
    · exact .refl s
  | outlast region ty name pos =>
    show Grown s (requireOutlasts c region ty name pos s)
    unfold requireOutlasts
    split
    · exact grown_requireBelow ..
    · exact .refl s
  | ownRegions => exact grown_reportEscapes ..
  | allConsumed => exact grown_reportAll ..
  | forbid ty v h =>
    show Grown s (forbidLinear c ty v s)
    unfold forbidLinear
    split
    · exact grown_report ..
    · exact .refl s
  | refuse => exact grown_report ..

theorem grown_perform (acts : List Action) (s : State) : Grown s (perform c acts s) := by
  induction acts generalizing s with
  | nil => exact .refl s
  | cons a acts ih => exact (grown_act c a s).trans (ih _)

theorem grown_closing (pos : Span) (acts : List Action) (s : State) : Grown s (closing c pos acts s) :=
  (grown_perform c acts s).trans
    (.of_same (closeStatements_found ..) (closeStatements_escaped ..))

theorem grown_evalClosed (e : Expr Span) (s : State) : Grown s (evalClosed c e s) := by
  rw [evalClosed_eq]
  exact grown_closing ..

theorem grown_unpack (parts : List (Unpacked Span)) (s : State) : Grown s (unpack c parts s) := by
  rw [unpack_eq]
  exact grown_perform ..

/-! ### Scopes, borrow blocks and joins -/

theorem grown_leaveScope (reach : Reach) (scopeEnd : Span) (s : State) :
    Grown s (leaveScope c reach scopeEnd s) := by
  unfold leaveScope
  split
  · exact .trans (t := popScope s) (.of_same rfl rfl) (grown_reportAll ..)
  · exact .of_same rfl rfl

theorem grown_openBorrow (region : Ident Span) (s : State) : Grown s (openBorrow c region s).2 := by
  unfold openBorrow
  split
  · exact .of_same rfl rfl
  · exact grown_report ..

theorem grown_takeBorrow (kind : RefKind) (source region : Ident Span) (s : State) :
    Grown s (takeBorrow c kind source region s) := by
  unfold takeBorrow
  split
  · exact grown_borrowBinding ..
  · exact .refl s

theorem grown_enterBorrow (kind : RefKind) (source name region : Ident Span) (s : State) :
    Grown s (enterBorrow c kind source name region s).2 := by
  rw [enterBorrow_eq]
  refine (grown_openBorrow c region s).trans ?_
  dsimp only
  split
  · exact (grown_takeBorrow ..).trans (.of_same rfl rfl)
  · exact .of_same rfl rfl

theorem leaveBorrow_escaped (opened : Bool) (pos : Span) (s : State) :
    (leaveBorrow opened pos s).escaped = s.escaped := by
  unfold leaveBorrow closeRegion
  split
  · split <;> rfl
  · rfl

theorem grown_leaveBorrow (opened : Bool) (pos : Span) (s : State) : Grown s (leaveBorrow opened pos s) :=
  .of_same (leaveBorrow_found ..) (leaveBorrow_escaped ..)

theorem grown_outcome (pos : Span) (entry : State) (run : Reach × State) :
    Grown run.2 (outcome pos entry run).2 :=
  .of_same rfl rfl

theorem grown_join (outcomes : List Outcome) (s : State) : Grown s (join c outcomes s).2 :=
  .of_escaped (join_grows c s) (join_frame c s).2.2.2.2

/-! ### The walk -/

theorem grown_apart {run : State → Reach × State} (hrun : ∀ s, Grown s (run s).2) (s : State) :
    Grown s (apart run s).2 := by
  have hfound : s.found <+: (apart run s).2.found := (hrun {s with escaped := []}).found
  exact .of_escaped hfound rfl

mutual

theorem grown_visit : ∀ (stmt : Stmt Span) (s : State), Grown s (visit c stmt s).2
  | .bind pos name ty value, s => by
    show Grown s (bind c pos name ty value s)
    rw [bind_eq]
    exact (grown_closing ..).trans (grown_perform ..)
  | .unpack _ parts value, s => (grown_evalClosed c value s).trans (grown_unpack ..)
  | .assign pos target value, s => by
    show Grown s (assign c pos target value s)
    rw [assign_eq]
    exact grown_closing ..
  | .choose _ branches none, s => (grown_checkBranches branches s).trans (grown_join ..)
  | .choose _ branches (some block), s =>
    ((grown_checkBranches branches s).trans
      ((grown_checkBlock block _).trans (grown_outcome block.pos _ _))).trans (grown_join ..)
  | .select _ scrutinee arms, s =>
    ((grown_evalClosed c scrutinee s).trans (grown_checkArms arms _)).trans (grown_join ..)
  | .loop _ cond body, s =>
    .trans (t := enterLoop s) (.of_same rfl rfl)
      ((grown_evalClosed c cond _).trans ((grown_checkBlock body _).trans (.of_same rfl rfl)))
  | .count _ var first last body, s => by
    have hvar : Grown (evalClosed c last (evalClosed c first (enterLoop s)))
        (define c var.name .int var.pos (pushScope _)) := .of_same rfl rfl
    exact .trans (t := enterLoop s) (.of_same rfl rfl) ((grown_evalClosed c first _).trans
      ((grown_evalClosed c last _).trans (hvar.trans ((grown_checkBlock body _).trans (.of_same rfl rfl)))))
  | .borrow pos kind source name region body, s =>
    (grown_enterBorrow c kind source name region s).trans
      ((grown_checkBlock body _).trans ((grown_leaveScope ..).trans (grown_leaveBorrow ..)))
  | .ret pos value, s => by
    show Grown s (ret c pos value s)
    rw [ret_eq]
    exact (grown_closing ..).trans (grown_perform ..)
  | .discard pos value, s => by
    show Grown s (discard c pos value s)
    rw [discard_eq]
    exact grown_closing ..
  | .block body, s => grown_checkBlock body s

theorem grown_checkBlock : ∀ (block : Block Span) (s : State), Grown s (checkBlock c block s).2
  | ⟨_, stmts⟩, s =>
    .trans (t := pushScope s) (.of_same rfl rfl) ((grown_checkStmts stmts _).trans (grown_leaveScope ..))

theorem grown_checkStmts : ∀ (stmts : List (Stmt Span)) (s : State), Grown s (checkStmts c stmts s).2
  | [], s => .refl s
  | stmt :: rest, s => by
    have hstmt := grown_apart (grown_visit stmt) s
    rw [checkStmts]
    split
    · exact .refl s
    · dsimp only
      split
      · exact hstmt.trans (grown_checkStmts rest _)
      · exact hstmt

theorem grown_checkBranches : ∀ (branches : List (Branch Span)) (s : State),
    Grown s (checkBranches c branches s).2
  | [], s => .refl s
  | ⟨pos, cond, body⟩ :: rest, s =>
    (grown_evalClosed c cond s).trans
      ((grown_checkBlock body _).trans ((grown_outcome pos _ _).trans (grown_checkBranches rest _)))

theorem grown_checkArms : ∀ (arms : List (Arm Span)) (s : State), Grown s (checkArms c arms s).2
  | [], s => .refl s
  | ⟨pos, _, parts, body⟩ :: rest, s =>
    .trans (t := pushScope s) (.of_same rfl rfl)
      ((grown_unpack c parts _).trans ((grown_checkBlock body _).trans
        ((grown_leaveScope ..).trans ((grown_outcome pos s (_, _)).trans (grown_checkArms rest _)))))

end

/-- The body of a counting loop, from where its bounds are known. -/
theorem grown_counter (var : Ident Span) (body : Block Span) (s : State) :
    Grown s (checkBlock c body (define c var.name .int var.pos (pushScope s))).2 :=
  .trans (t := define c var.name .int var.pos (pushScope s)) (.of_same rfl rfl) (grown_checkBlock ..)

end Linearity.Check
