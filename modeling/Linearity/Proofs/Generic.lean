import Mathlib
import Linearity.Proofs.Classify
import Linearity.Proofs.Lockstep
import Linearity.Proofs.Moments
import Linearity.Proofs.Walk

/-! A generic function is accepted with all its instances.

The types that stand for a function's parameters mention no region, and where a parameter
must be free they are. Then the instance has the regions of the function, and fewer of its
types are linear (`specialises`); so the two can be checked in lockstep (`parallel_visit`),
and the instance is accepted if the function is (`instance_accepted`). -/
namespace Linearity

/-- The function with other types, and generic in `typeParams`. -/
def FunDef.retype (σ : Ty → Ty) (typeParams : List (TypeParam Span)) (f : FunDef Span) : FunDef Span :=
  {f.translate (.retyping σ) with typeParams}

namespace Check
variable {σ : Ty → Ty} {c c' : Context} {g i : State}

/-! ### The walk -/

variable (σ c') in
/-- Where a statement may start in both. -/
structure Paired (g i : State) : Prop where
  ready : Ready g
  honest : Honest g
  mirrors : Mirrors σ c' g i

/-- One thing after the other. -/
theorem paired_foldl {α β : Type} {step : State → α → State} {step' : State → β → State} (φ : α → β)
    (hgrown : ∀ s a, Grown s (step s a))
    (hstep : ∀ {g i} a, Paired σ c' g i → (step g a).found = [] → Paired σ c' (step g a) (step' i (φ a)))
    (l : List α) (h : Paired σ c' g i) (hfound : (l.foldl step g).found = []) :
    Paired σ c' (l.foldl step g) ((l.map φ).foldl step' i) := by
  induction l generalizing g i with
  | nil => exact h
  | cons a l ih => exact ih (hstep a h ((grown_foldl hgrown (step g a) l).eq_nil hfound)) hfound

section Walk
variable (hσ : Specialises σ c c')

include hσ

/-- Actions and the regions that close after them. -/
theorem paired_closing {acts acts' : List Action} (hacts : List.Forall₂ (Translated (.retyping σ)) acts acts')
    (hplain : acts.all Action.plain = true) (h : Paired σ c' g i) (pos : Span)
    (hfound : (closing c pos acts g).found = []) :
    Paired σ c' (closing c pos acts g) (closing c' pos acts' i) where
  ready := (kept_closing c h.ready pos hplain).ready h.ready
  honest := (grown_closing c pos acts g).honest h.honest
  mirrors := mirrors_closing hσ hacts h.mirrors h.honest pos hfound

/-- An operand and its retyped copy. -/
theorem paired_evalClosed (h : Paired σ c' g i) (e : Expr Span) (hfound : (evalClosed c e g).found = []) :
    Paired σ c' (evalClosed c e g) (evalClosed c' (e.translate (.retyping σ)) i) := by
  rw [evalClosed_eq] at hfound
  rw [evalClosed_eq, evalClosed_eq, Expr.pos_translate]
  exact paired_closing hσ (translated_actions hσ.toKeepsRegions e) (plain_actions e) h e.pos hfound

theorem paired_define (h : Paired σ c' g i) (name : String) (ty : Ty) (pos : Span) :
    Paired σ c' (define c name ty pos g) (define c' name (σ ty) pos i) := by
  obtain ⟨new, hdefine⟩ := kept_define c h.ready name ty pos
  exact ⟨hdefine.ready h.ready, h.honest, mirrors_define hσ h.mirrors h.ready.coherent.valid name ty pos⟩

/-- A binding is defined after its type has been looked at. -/
theorem paired_introduce (h : Paired σ c' g i) (name : String) (ty : Ty) (pos at₀ : Span)
    (hfound : (requireLive c ty (some name) pos g).found = []) :
    Paired σ c' (define c name ty at₀ (requireLive c ty (some name) pos g))
      (define c' name (σ ty) at₀ (requireLive c' (σ ty) (some name) pos i)) := by
  apply paired_define hσ
  exact ⟨h.ready.of_same (requireLive_scopes ..) (requireLive_regions ..),
    (grown_reportEscapes c _ (some name) pos g).honest h.honest,
    mirrors_requireLive hσ h.mirrors h.honest ty pos (some name) hfound⟩

/-- The bindings that a value is taken apart into. -/
theorem paired_unpack (parts : List (Unpacked Span)) (h : Paired σ c' g i)
    (hfound : (unpack c parts g).found = []) :
    Paired σ c' (unpack c parts g) (unpack c' (parts.map (Unpacked.translate (.retyping σ))) i) := by
  apply paired_foldl (Unpacked.translate (.retyping σ)) (fun s part => grown_unpack c [part] s) _ parts h hfound
  intro g i part h hpart
  exact paired_introduce hσ h part.name.name part.ty part.pos part.name.pos hpart

omit hσ

theorem Paired.pushScope (h : Paired σ c' g i) : Paired σ c' (pushScope g) (pushScope i) :=
  ⟨h.ready.pushScope, h.honest, mirrors_pushScope h.mirrors⟩

theorem paired_counter (hσ : Specialises σ c c') (h : Paired σ c' g i) (var : Ident Span) :
    Paired σ c' (define c var.name .int var.pos (Check.pushScope g))
      (define c' var.name .int var.pos (Check.pushScope i)) := by
  have hdefine := paired_define hσ h.pushScope var.name .int var.pos
  rwa [Ty.int, hσ.prim] at hdefine

/-- In a check that reports nothing the region of a borrow block is opened, in both. -/
theorem paired_enterBorrow (hσ : Specialises σ c c') (h : Paired σ c' g i) (kind : RefKind)
    (source name region : Ident Span) (hfound : (enterBorrow c kind source name region g).2.found = []) :
    Paired σ c' (enterBorrow c kind source name region g).2 (enterBorrow c' kind source name region i).2 ∧
      (enterBorrow c kind source name region g).1 = true ∧ (enterBorrow c' kind source name region i).1 = true := by
  have hlend : (lend c kind source region g).found = [] := by rwa [enterBorrow_state] at hfound
  obtain ⟨hlent, hopen, hopen'⟩ := mirrors_lend h.mirrors kind source region hlend
  have hinside : Paired σ c' (lend c kind source region g) (lend c' kind source region i) :=
    ⟨ready_lend h.ready kind source region, ((grown_openBorrow ..).trans (grown_lend ..)).honest h.honest, hlent⟩
  rw [enterBorrow_flag, enterBorrow_flag, enterBorrow_state, enterBorrow_state, h.mirrors.scopes.aliasTy hσ]
  exact ⟨paired_define hσ hinside.pushScope name.name _ name.pos, hopen, hopen'⟩

/-- Statements in a scope of their own. -/
theorem Parallel.leaveScope {s : State} {new : Frame} {run run' : Reach × State} (h : Parallel σ c' run run')
    (hs : Ready s) (hkept : Kept new (Check.pushScope s) run.2) (pos : Span)
    (hfound : (leaveScope c run.1 pos run.2).found = []) :
    Parallel σ c' (run.1, leaveScope c run.1 pos run.2) (run'.1, leaveScope c' run'.1 pos run'.2) := by
  have hvalid := (hkept.leaveScope c hs run.1 pos).coherent.valid
  rw [leaveScope_scopes, leaveScope_regions] at hvalid
  refine ⟨h.reach, ?_⟩
  rw [h.reach]
  exact mirrors_leaveScope h.mirrors hvalid run.1 pos hfound

/-- The scopes are again those from before, with the same bindings. -/
theorem Mirrors.restored {g₁ i₁ : State} (h : Mirrors σ c' g i) (hrun : Mirrors σ c' g₁ i₁)
    (hskel : g₁.scopes.skeleton = g.scopes.skeleton) :
    Mirrors σ c' {g₁ with scopes := g.scopes} {i₁ with scopes := i.scopes} := by
  have hskel' : i₁.scopes.skeleton = i.scopes.skeleton := by
    rw [hrun.scopes.skeleton, hskel, h.scopes.skeleton]
  refine ⟨h.scopes, ?_, hrun.clean⟩
  show i₁.regions = g₁.regions.map (Region.restrict (followed i.scopes))
  rw [← followed_of_skeleton hskel']
  exact hrun.regions

theorem paired_outcome {run run' : Reach × State} (h : Paired σ c' g i) (hrun : Parallel σ c' run run')
    (hkept : Kept [] g run.2) (hhonest : Honest run.2) (pos pos' : Span) :
    MirroredEnds σ c' [(outcome pos g run).1] [(outcome pos' i run').1] ∧
      Paired σ c' (outcome pos g run).2 (outcome pos' i run').2 := by
  refine ⟨.cons ?_ .nil, h.ready.of_same rfl hkept.regions, hhonest, h.mirrors.restored hrun.mirrors hkept.skeleton_eq⟩
  simp only [outcome, hrun.reach]
  by_cases hreach : run.1 = .continues
  · simp only [hreach, if_true]
    exact .some hrun.mirrors.scopes
  · simp only [hreach, if_false]
    exact .none

theorem Branched.parallel {s : State} {outcomes outcomes' : List Outcome} (hbranched : Branched s outcomes g)
    (h : Mirrors σ c' g i) (hends : MirroredEnds σ c' outcomes outcomes')
    (hfound : (join c outcomes g).2.found = []) : Parallel σ c' (join c outcomes g) (join c' outcomes' i) :=
  parallel_join h hends (fun _ he => (hbranched.exits he).skeleton_eq.trans hbranched.kept.skeleton_eq.symm) hfound

theorem Paired.enterLoop (h : Paired σ c' g i) : Paired σ c' (enterLoop g) (enterLoop i) := by
  refine ⟨h.ready.enterLoop, h.honest, ⟨h.mirrors.scopes.skeleton, ?_, h.mirrors.scopes.bound⟩,
    h.mirrors.regions, h.mirrors.clean⟩
  exact congrArg some h.mirrors.scopes.length

/-- The barrier after a loop is the one from before it, in both. -/
theorem Mirrors.exitLoop {s t : State} (h : Mirrors σ c' g i) (hbefore : Mirrors σ c' s t) :
    Mirrors σ c' (exitLoop s g) (exitLoop t i) :=
  ⟨⟨h.scopes.skeleton, hbefore.scopes.barrier, h.scopes.bound⟩, h.regions, h.clean⟩

end Walk

/-! ### Statements -/

variable (σ c') in
/-- Wherever both may start and nothing is found, the two run in parallel. -/
def Shadows (run run' : State → Reach × State) : Prop :=
  ∀ ⦃g i⦄, Paired σ c' g i → (run g).2.found = [] → Parallel σ c' (run g) (run' i)

variable (σ c') in
/-- So do branches, each to its end. -/
def ShadowsAll (run run' : State → List Outcome × State) : Prop :=
  ∀ ⦃g i⦄, Paired σ c' g i → (run g).2.found = [] →
    MirroredEnds σ c' (run g).1 (run' i).1 ∧ Paired σ c' (run g).2 (run' i).2

/-- A statement has its list of reported regions apart in both. -/
theorem Shadows.apart {run run' : State → Reach × State} (hrun : Shadows σ c' run run') :
    Shadows σ c' (apart run) (apart run') := by
  intro g i h hfound
  have hstart : Paired σ c' {g with escaped := []} {i with escaped := []} :=
    ⟨h.ready.of_same rfl rfl, fun he => absurd rfl he, h.mirrors.scopes, h.mirrors.regions, h.mirrors.clean⟩
  have hmiddle := hrun hstart hfound
  exact ⟨hmiddle.reach, hmiddle.mirrors.scopes, hmiddle.mirrors.regions, hmiddle.mirrors.clean⟩

section Simple
variable (hσ : Specialises σ c c') (pos : Span) (value : Expr Span)

include hσ

/-- A binding and its retyped copy. -/
theorem shadows_bind (name : Ident Span) (ty : Ty) : Shadows σ c' (visit c (.bind pos name ty value))
    (visit c' (.bind pos name (σ ty) (value.translate (.retyping σ)))) := by
  intro g i h hfound
  have hlive : (requireLive c ty (some name.name) pos (evalClosed c value g)).found = [] := hfound
  have hvalue := paired_evalClosed hσ h value ((grown_reportEscapes ..).eq_nil hlive)
  exact ⟨rfl, (paired_introduce hσ hvalue name.name ty pos name.pos hlive).mirrors⟩

theorem shadows_unpack (parts : List (Unpacked Span)) : Shadows σ c' (visit c (.unpack pos parts value))
    (visit c' (.unpack pos (parts.map (Unpacked.translate (.retyping σ))) (value.translate (.retyping σ)))) := by
  intro g i h hfound
  have hvalue := paired_evalClosed hσ h value ((grown_unpack c parts _).eq_nil hfound)
  exact ⟨rfl, (paired_unpack hσ parts hvalue hfound).mirrors⟩

theorem shadows_assign (target : Expr Span) : Shadows σ c' (visit c (.assign pos target value))
    (visit c' (.assign pos (target.translate (.retyping σ)) (value.translate (.retyping σ)))) := by
  intro g i h hfound
  change (assign c pos target value g).found = [] at hfound
  rw [assign_eq] at hfound
  refine ⟨rfl, ?_⟩
  rw [visit, visit, assign_eq, assign_eq]
  have hacts := List.rel_append (translated_actions (τ := .retyping σ) hσ.toKeepsRegions value)
    (translated_storeActions (τ := .retyping σ) hσ.toKeepsRegions target value pos)
  exact mirrors_closing hσ hacts h.mirrors h.honest pos hfound

/-- A return: both ask for the regions of the value and for what is still live. -/
theorem shadows_ret : Shadows σ c' (visit c (.ret pos value)) (visit c' (.ret pos (value.translate (.retyping σ)))) := by
  intro g i h hfound
  change (ret c pos value g).found = [] at hfound
  rw [ret_eq] at hfound
  refine ⟨rfl, ?_⟩
  rw [visit, visit, ret_eq, ret_eq, Expr.ty_translate, Expr.var?_translate, Expr.pos_translate]
  have hvalue := paired_closing hσ (translated_actions hσ.toKeepsRegions value) (plain_actions value) h value.pos
    ((grown_perform ..).eq_nil hfound)
  exact mirrors_perform hσ (.cons (.ownRegions value.ty value.var? pos) (.cons (.allConsumed pos) .nil))
    hvalue.mirrors hvalue.honest hfound

theorem shadows_discard :
    Shadows σ c' (visit c (.discard pos value)) (visit c' (.discard pos (value.translate (.retyping σ)))) := by
  intro g i h hfound
  change (discard c pos value g).found = [] at hfound
  rw [discard_eq] at hfound
  refine ⟨rfl, ?_⟩
  rw [visit, visit, discard_eq, discard_eq]
  have hacts := List.rel_append (translated_actions (τ := .retyping σ) hσ.toKeepsRegions value)
    (.cons (translated_discarded value pos) .nil)
  exact mirrors_closing hσ hacts h.mirrors h.honest pos hfound

end Simple

section Blocks
variable {pos : Span} {block block' : Block Span} {branches branches' : List (Branch Span)}
  {arms arms' : List (Arm Span)}

/-- If no condition holds, both go on from where the last one leaves off. -/
theorem shadowsAll_skip (hbranches : ShadowsAll σ c' (checkBranches c branches) (checkBranches c' branches')) :
    ShadowsAll σ c' (checkChoice c pos branches none) (checkChoice c' pos branches' none) := by
  intro g i h hfound
  obtain ⟨hends, hafter⟩ := hbranches h hfound
  exact ⟨List.rel_append hends (.cons (.some hafter.mirrors.scopes) .nil), hafter⟩

theorem shadowsAll_otherwise (hbranches : ShadowsAll σ c' (checkBranches c branches) (checkBranches c' branches'))
    (hblock : Shadows σ c' (checkBlock c block) (checkBlock c' block')) :
    ShadowsAll σ c' (checkChoice c pos branches (some block)) (checkChoice c' pos branches' (some block')) := by
  intro g i h hfound
  have hlast : (checkBlock c block (checkBranches c branches g).2).2.found = [] := hfound
  obtain ⟨hends, hafter⟩ := hbranches h ((grown_checkBlock ..).eq_nil hlast)
  obtain ⟨hend, hnext⟩ := paired_outcome hafter (hblock hafter hlast) (kept_checkBlock c block hafter.ready)
    ((grown_checkBlock ..).honest hafter.honest) block.pos block'.pos
  exact ⟨List.rel_append hends hend, hnext⟩

/-- A conditional, from its branches and what is done if none is taken. -/
theorem shadows_choose {otherwise otherwise' : Option (Block Span)}
    (hchoice : ShadowsAll σ c' (checkChoice c pos branches otherwise) (checkChoice c' pos branches' otherwise')) :
    Shadows σ c' (visit c (.choose pos branches otherwise)) (visit c' (.choose pos branches' otherwise')) := by
  intro g i h hfound
  rw [visit_choose] at hfound
  rw [visit_choose, visit_choose]
  obtain ⟨hends, hafter⟩ := hchoice h ((grown_join ..).eq_nil hfound)
  exact (branched_checkChoice h.ready pos branches otherwise).parallel hafter.mirrors hends hfound

theorem shadows_select (hσ : Specialises σ c c') (scrutinee : Expr Span)
    (harms : ShadowsAll σ c' (checkArms c arms) (checkArms c' arms')) :
    Shadows σ c' (visit c (.select pos scrutinee arms))
      (visit c' (.select pos (scrutinee.translate (.retyping σ)) arms')) := by
  intro g i h hfound
  have hall : (checkArms c arms (evalClosed c scrutinee g)).2.found = [] := (grown_join ..).eq_nil hfound
  have hvalue := paired_evalClosed hσ h scrutinee ((grown_checkArms ..).eq_nil hall)
  obtain ⟨hends, hafter⟩ := harms hvalue hall
  exact (branched_checkArms c arms hvalue.ready).parallel hafter.mirrors hends hfound

theorem shadows_loop (hσ : Specialises σ c c') (cond : Expr Span)
    (hblock : Shadows σ c' (checkBlock c block) (checkBlock c' block')) :
    Shadows σ c' (visit c (.loop pos cond block)) (visit c' (.loop pos (cond.translate (.retyping σ)) block')) := by
  intro g i h hfound
  have hbody : (checkBlock c block (evalClosed c cond (enterLoop g))).2.found = [] := hfound
  have hentry := paired_evalClosed hσ h.enterLoop cond ((grown_checkBlock ..).eq_nil hbody)
  have hrun := hblock hentry hbody
  have hskel := (kept_checkBlock c block hentry.ready).skeleton_eq
  exact ⟨rfl, (hentry.mirrors.restored hrun.mirrors hskel).exitLoop h.mirrors⟩

/-- A counting loop: the counter is in a scope of its own, behind the barrier, in both. -/
theorem shadows_count (hσ : Specialises σ c c') (var : Ident Span) (first last : Expr Span)
    (hblock : Shadows σ c' (checkBlock c block) (checkBlock c' block')) :
    Shadows σ c' (visit c (.count pos var first last block))
      (visit c' (.count pos var (first.translate (.retyping σ)) (last.translate (.retyping σ)) block')) := by
  intro g i h hfound
  have hbody : (checkBlock c block (define c var.name .int var.pos
    (pushScope (evalClosed c last (evalClosed c first (enterLoop g)))))).2.found = [] := hfound
  have hlast : (evalClosed c last (evalClosed c first (enterLoop g))).found = [] := (grown_counter ..).eq_nil hbody
  have hfirst := paired_evalClosed hσ h.enterLoop first ((grown_evalClosed ..).eq_nil hlast)
  have hbounds := paired_evalClosed hσ hfirst last hlast
  have hentry := paired_counter hσ hbounds var
  have hrun := hblock hentry hbody
  have hkept := kept_checkBlock c block hentry.ready
  have hend := hentry.mirrors.restored hrun.mirrors hkept.skeleton_eq
  -- The counter's scope is popped, and what is left are the scopes before it.
  have hvalid : ∀ ref ∈ (define c var.name .int var.pos (pushScope (evalClosed c last
      (evalClosed c first (enterLoop g))))).regions.refs, ∃ b, _ := hbounds.ready.coherent.valid
  rw [← hkept.regions] at hvalid
  exact ⟨rfl, (mirrors_popScope hend hvalid).exitLoop h.mirrors⟩

/-- A borrow block: both open the region, and both close it. -/
theorem shadows_borrow (hσ : Specialises σ c c') (kind : RefKind) (source name region : Ident Span)
    (hblock : Shadows σ c' (checkBlock c block) (checkBlock c' block')) :
    Shadows σ c' (visit c (.borrow pos kind source name region block))
      (visit c' (.borrow pos kind source name region block')) := by
  intro g i h hfound
  have hleave : (leaveScope c _ pos (checkBlock c block (enterBorrow c kind source name region g).2).2).found = [] :=
    (grown_leaveBorrow ..).eq_nil hfound
  have hbody := (grown_leaveScope ..).eq_nil hleave
  obtain ⟨hentry, hopen, hopen'⟩ := paired_enterBorrow hσ h kind source name region
    ((grown_checkBlock ..).eq_nil hbody)
  have hrun := hblock hentry hbody
  -- Seen from where the reference is taken, the block is a scope of its own.
  have hready := ready_lend (c := c) h.ready kind source region
  obtain ⟨new, hdefine⟩ := kept_define c hready.pushScope name.name (aliasTy kind source region g.scopes) name.pos
  rw [← enterBorrow_state] at hdefine
  have hkept := hdefine.trans (kept_checkBlock c block hentry.ready)
  have hend := hrun.leaveScope hready hkept pos hleave
  rw [visit, visit, hopen, hopen']
  exact ⟨hrun.reach, mirrors_closeRegion hend.mirrors pos⟩

theorem shadows_block {stmts stmts' : List (Stmt Span)}
    (hstmts : Shadows σ c' (checkStmts c stmts) (checkStmts c' stmts')) :
    Shadows σ c' (checkBlock c ⟨pos, stmts⟩) (checkBlock c' ⟨pos, stmts'⟩) := by
  intro g i h hfound
  have hrun := hstmts h.pushScope ((grown_leaveScope ..).eq_nil hfound)
  obtain ⟨new, hkept⟩ := kept_checkStmts c stmts h.ready.pushScope
  exact hrun.leaveScope h.ready hkept pos hfound

/-- A statement and those after it, if control reaches them. -/
theorem shadows_cons {stmt stmt' : Stmt Span} {rest rest' : List (Stmt Span)}
    (hstmt : Shadows σ c' (visit c stmt) (visit c' stmt'))
    (hrest : Shadows σ c' (checkStmts c rest) (checkStmts c' rest')) :
    Shadows σ c' (checkStmts c (stmt :: rest)) (checkStmts c' (stmt' :: rest')) := by
  intro g i h hfound
  have hrun : halted c g = false := halted_of_clean ((grown_checkStmts ..).eq_nil hfound)
  have hrun' : halted c' i = false := halted_of_clean h.mirrors.clean
  cases hreach : (checkStmt c stmt g).1 with
  | continues =>
    rw [checkStmts_of_continues hrun hreach] at hfound ⊢
    have hfirst := hstmt.apart h ((grown_checkStmts ..).eq_nil hfound)
    rw [checkStmts_of_continues hrun' (hfirst.reach.trans hreach)]
    obtain ⟨new, hkept⟩ := kept_apart h.ready fun u hu => kept_visit c stmt hu
    have hhonest := (grown_apart (grown_visit c stmt) g).honest h.honest
    exact hrest ⟨hkept.ready h.ready, hhonest, hfirst.mirrors⟩ hfound
  | diverges =>
    rw [checkStmts_of_diverges hrun hreach] at hfound ⊢
    have hfirst := hstmt.apart h hfound
    rw [checkStmts_of_diverges hrun' (hfirst.reach.trans hreach)]
    exact ⟨rfl, hfirst.mirrors⟩

theorem shadowsAll_branch (hσ : Specialises σ c c') (cond : Expr Span)
    (hblock : Shadows σ c' (checkBlock c block) (checkBlock c' block'))
    (hrest : ShadowsAll σ c' (checkBranches c branches) (checkBranches c' branches')) :
    ShadowsAll σ c' (checkBranches c (⟨pos, cond, block⟩ :: branches))
      (checkBranches c' (⟨pos, cond.translate (.retyping σ), block'⟩ :: branches')) := by
  intro g i h hfound
  have hbranch : (outcome pos (evalClosed c cond g) (checkBlock c block (evalClosed c cond g))).2.found = [] :=
    (grown_checkBranches ..).eq_nil hfound
  have hentry := paired_evalClosed hσ h cond ((grown_checkBlock ..).eq_nil hbranch)
  obtain ⟨hfirst, hnext⟩ := paired_outcome hentry (hblock hentry hbranch) (kept_checkBlock c block hentry.ready)
    ((grown_checkBlock ..).honest hentry.honest) pos pos
  obtain ⟨hends, hafter⟩ := hrest hnext hfound
  exact ⟨List.rel_append hfirst hends, hafter⟩

theorem shadowsAll_arm (hσ : Specialises σ c c') (variant : Ident Span) (parts : List (Unpacked Span))
    (hblock : Shadows σ c' (checkBlock c block) (checkBlock c' block'))
    (hrest : ShadowsAll σ c' (checkArms c arms) (checkArms c' arms')) :
    ShadowsAll σ c' (checkArms c (⟨pos, variant, parts, block⟩ :: arms))
      (checkArms c' (⟨pos, variant, parts.map (Unpacked.translate (.retyping σ)), block'⟩ :: arms')) := by
  intro g i h hfound
  let run := checkBlock c block (unpack c parts (pushScope g))
  have harm : (outcome pos g (run.1, leaveScope c run.1 pos run.2)).2.found = [] := (grown_checkArms ..).eq_nil hfound
  have hbody : run.2.found = [] := (grown_leaveScope c run.1 pos run.2).eq_nil harm
  have hparts := paired_unpack hσ parts h.pushScope ((grown_checkBlock ..).eq_nil hbody)
  obtain ⟨new, hnew⟩ := kept_unpack c h.ready.pushScope parts
  have hkept : Kept _ (pushScope g) run.2 := hnew.trans (kept_checkBlock c block hparts.ready)
  have hrun := (hblock hparts hbody).leaveScope h.ready hkept pos harm
  have hhonest := ((grown_checkBlock c block _).trans (grown_leaveScope c run.1 pos run.2)).honest hparts.honest
  obtain ⟨hfirst, hnext⟩ := paired_outcome h hrun (hkept.leaveScope c h.ready run.1 pos) hhonest pos pos
  obtain ⟨hends, hafter⟩ := hrest hnext hfound
  exact ⟨List.rel_append hfirst hends, hafter⟩

end Blocks

mutual

/-- Statement by statement, the copy mirrors the program. -/
theorem parallel_visit (hσ : Specialises σ c c') :
    ∀ stmt : Stmt Span, Shadows σ c' (visit c stmt) (visit c' (stmt.translate (.retyping σ)))
  | .bind pos name ty value => shadows_bind hσ pos value name ty
  | .unpack pos parts value => shadows_unpack hσ pos value parts
  | .assign pos target value => shadows_assign hσ pos value target
  | .choose _ branches none => shadows_choose (shadowsAll_skip (parallel_checkBranches hσ branches))
  | .choose _ branches (some block) =>
    shadows_choose (shadowsAll_otherwise (parallel_checkBranches hσ branches) (parallel_checkBlock hσ block))
  | .select _ scrutinee arms => shadows_select hσ scrutinee (parallel_checkArms hσ arms)
  | .loop _ cond body => shadows_loop hσ cond (parallel_checkBlock hσ body)
  | .count _ var first last body => shadows_count hσ var first last (parallel_checkBlock hσ body)
  | .borrow _ kind source name region body =>
    shadows_borrow hσ kind source name region (parallel_checkBlock hσ body)
  | .ret pos value => shadows_ret hσ pos value
  | .discard pos value => shadows_discard hσ pos value
  | .block body => parallel_checkBlock hσ body

theorem parallel_checkBlock (hσ : Specialises σ c c') :
    ∀ block : Block Span, Shadows σ c' (checkBlock c block) (checkBlock c' (block.translate (.retyping σ)))
  | ⟨_, stmts⟩ => shadows_block (parallel_checkStmts hσ stmts)

theorem parallel_checkStmts (hσ : Specialises σ c c') : ∀ stmts : List (Stmt Span),
    Shadows σ c' (checkStmts c stmts) (checkStmts c' (Stmt.translateAll (.retyping σ) stmts))
  | [] => fun _ _ h _ => ⟨rfl, h.mirrors⟩
  | stmt :: rest => shadows_cons (parallel_visit hσ stmt) (parallel_checkStmts hσ rest)

theorem parallel_checkBranches (hσ : Specialises σ c c') : ∀ branches : List (Branch Span),
    ShadowsAll σ c' (checkBranches c branches) (checkBranches c' (Branch.translateAll (.retyping σ) branches))
  | [] => fun _ _ h _ => ⟨.nil, h⟩
  | ⟨_, cond, body⟩ :: rest =>
    shadowsAll_branch hσ cond (parallel_checkBlock hσ body) (parallel_checkBranches hσ rest)

theorem parallel_checkArms (hσ : Specialises σ c c') : ∀ arms : List (Arm Span),
    ShadowsAll σ c' (checkArms c arms) (checkArms c' (Arm.translateAll (.retyping σ) arms))
  | [] => fun _ _ h _ => ⟨.nil, h⟩
  | ⟨_, variant, parts, body⟩ :: rest =>
    shadowsAll_arm hσ variant parts (parallel_checkBlock hσ body) (parallel_checkArms hσ rest)

end

/-! ### Functions -/

section Functions
variable (hσ : Specialises σ c c')

theorem mirrors_enterFunctionRegion (h : Mirrors σ c' g i) (r : Ident Span)
    (hfound : (enterFunctionRegion c g r).found = []) :
    Mirrors σ c' (enterFunctionRegion c g r) (enterFunctionRegion c' i r) := by
  cases hget : g.regions.get? r.name with
  | some prior =>
    simp only [enterFunctionRegion, Regions.enter, hget] at hfound
    exact absurd hfound (report_found c _ g)
  | none =>
    simp only [enterFunctionRegion, Regions.enter, hget, h.get?, Option.map_none]
    exact h.opened r.name .function r.pos

theorem paired_initial : Paired σ c' {} {} := by
  refine ⟨ready_initial, fun he => absurd rfl he, ⟨rfl, rfl, fun {id b b'} hb => ?_⟩, rfl, rfl⟩
  simp [Scopes.get?, Scopes.initial, Scopes.getIn, Frame.get?] at hb

include hσ

/-- The two functions start with the same regions and parameters. -/
theorem paired_entryState {f : FunDef Span} {typeParams : List (TypeParam Span)}
    (hregions : (f.retype σ typeParams).regions = f.regions) (hfound : (entryState c f).found = []) :
    Paired σ c' (entryState c f) (entryState c' (f.retype σ typeParams)) := by
  have hdefining : ∀ s p, Grown s (defineParam c s p) := fun s p => .of_same rfl rfl
  have hopen : Paired σ c' (f.regions.foldl (enterFunctionRegion c) {})
      ((f.regions.map id).foldl (enterFunctionRegion c') {}) := by
    apply paired_foldl id grown_enterFunctionRegion _ f.regions paired_initial
      ((grown_foldl hdefining _ f.params).eq_nil hfound)
    intro g i r h hr
    exact ⟨ready_enterFunctionRegion c h.ready r, (grown_enterFunctionRegion g r).honest h.honest,
      mirrors_enterFunctionRegion h.mirrors r hr⟩
  rw [List.map_id] at hopen
  rw [entryState, entryState, hregions]
  apply paired_foldl _ hdefining _ f.params hopen hfound
  intro g i p h _
  exact paired_define hσ h p.name.name p.ty p.pos

/-- If the check of a function finds nothing, neither does that of the retyped function. -/
theorem clean_runFunction {f : FunDef Span} {typeParams : List (TypeParam Span)}
    (hregions : (f.retype σ typeParams).regions = f.regions) (hfound : (runFunction c f).found = []) :
    (runFunction c' (f.retype σ typeParams)).found = [] := by
  have hblock : (checkBlock c f.body (entryState c f)).2.found = [] := (grown_leaveScope ..).eq_nil hfound
  have hentry := paired_entryState hσ hregions ((grown_checkBlock ..).eq_nil hblock)
  have hrun := parallel_checkBlock hσ f.body hentry hblock
  have hrefs : (checkBlock c f.body (entryState c f)).2.regions.refs = [] := by
    rw [(kept_checkBlock c f.body hentry.ready).regions, entryState_refs]
  have hend := mirrors_leaveScope hrun.mirrors (by simp [hrefs]) _ f.pos hfound
  rw [← hrun.reach] at hend
  exact hend.clean

end Functions

end Check

/-! ### Instances -/

/-- Types for parameters of a function, not for its regions. They mention no region, and
where a parameter must be free they are. A parameter may be left without a type. -/
structure Subst.Instantiates (s : Subst) (T : TypeTable) (params : List (TypeParam Span)) : Prop where
  regionFree : ∀ {name t}, s.get? name = some t → t.regions = []
  kind : ∀ {name t}, s.get? name = some t → ∃ k, (Kinds.ofParams params).get? name = some k ∧ k ≠ .region ∧
    (k = .free → T.classify .empty t = .free)

/-- The function with types for its parameters. Only the regions are left generic. -/
def FunDef.instantiate (s : Subst) (f : FunDef Span) : FunDef Span :=
  f.retype (Ty.substitute s) (f.typeParams.filter fun p => p.kind == .region)

section Regions
variable {s : Subst} (h : ∀ {name t}, s.get? name = some t → t.regions = [])

include h

theorem Subst.region_eq (r : String) : s.region r = r := by
  cases hr : s.get? r with
  | none => simp only [region, hr]
  | some t =>
    cases t with
    | region q => cases h hr
    | _ => simp only [region, hr]

omit h

mutual

theorem Ty.regions_substitute (h : ∀ {name t}, s.get? name = some t → t.regions = []) :
    ∀ t : Ty, (t.substitute s).regions = t.regions
  | .prim _ => rfl
  | .named _ args => regionsAll_substitute h args
  | .param name => by
    rw [substitute]
    cases hname : s.get? name with
    | none => rfl
    | some t => exact h hname
  | .ref kind r referent => by
    rw [substitute, regions, regions, Subst.region_eq h, regions_substitute h referent]
  | .region _ => rfl

theorem Ty.regionsAll_substitute (h : ∀ {name t}, s.get? name = some t → t.regions = []) :
    ∀ args : List Ty, regionsAll (substituteAll s args) = regionsAll args
  | [] => rfl
  | a :: args => by
    rw [substituteAll, regionsAll, regionsAll, regions_substitute h a, regionsAll_substitute h args]

end

include h

/-- Types without regions can be put for parameters, and no region comes or goes. -/
theorem Subst.keepsRegions : KeepsRegions (Ty.substitute s) where
  prim _ := rfl
  ref kind r referent := by rw [Ty.substitute, region_eq h]
  isRef t := by
    cases t with
    | param name =>
      rw [Ty.substitute]
      cases hname : s.get? name with
      | none => rfl
      | some t =>
        cases t with
        | ref => cases h hname
        | _ => rfl
    | _ => rfl
  regions := Ty.regions_substitute h

end Regions

namespace Check

/-- Fewer types are linear in an instance. -/
theorem specialises {T : TypeTable} {f : FunDef Span} {s : Subst} (h : s.Instantiates T f.typeParams)
    (settings : Settings) : Specialises (Ty.substitute s) ⟨T, .ofParams f.typeParams, settings⟩
      ⟨T, .ofParams (f.instantiate s).typeParams, settings⟩ where
  toKeepsRegions := Subst.keepsRegions h.regionFree
  settings := rfl
  linear {t} ht := by
    have hregions : ∀ {name k}, (Kinds.ofParams (f.instantiate s).typeParams).get? name = some k →
        k.admitsLinear = false := by
      intro name k hk
      obtain ⟨p, hp, heq⟩ := List.mem_map.mp (Dict.get?_mem hk)
      obtain ⟨_, rfl⟩ := Prod.mk.inj heq
      have hkind : p.kind = .region := by simpa using (List.mem_filter.mp hp).2
      rw [hkind]
      rfl
    have hfinds := TypeTable.finds_of_linearIn [] _ ht
    refine TypeTable.linearIn_of_finds (hfinds.of_substitute hregions fun {name a} hname hkind ha => ?_)
    obtain ⟨k, hk, hregion, hfree⟩ := h.kind hname
    rw [hk] at hkind
    cases k with
    | linear | poly => cases hkind
    | region => exact absurd rfl hregion
    | free => exact TypeTable.classify_eq_free.mp (hfree rfl) (ha.weaken hregions)

theorem regions_instantiate (s : Subst) (f : FunDef Span) : (f.instantiate s).regions = f.regions := by
  simp [FunDef.regions, FunDef.instantiate, FunDef.retype, List.filter_filter]

/-- A function that is accepted is accepted with any types for its parameters that its
parameters' kinds admit, and under the same settings. -/
theorem instance_accepted (T : TypeTable) (settings : Settings) {f : FunDef Span} {s : Subst}
    (h : s.Instantiates T f.typeParams) {usage : Usage} (hok : checkFunction T settings f = .ok usage) :
    ∃ usage', checkFunction T settings (f.instantiate s) = .ok usage' := by
  have hclean : (runFunction ⟨T, .ofParams (f.instantiate s).typeParams, settings⟩ (f.instantiate s)).found = [] :=
    clean_runFunction (specialises h settings) (regions_instantiate s f) (found_of_ok hok)
  exact ⟨_, ok_of_found hclean⟩

/-- A function that lends its first argument, closes its second and returns the first. -/
def relay : FunDef Span where
  pos := ⟨19, 1⟩
  name := ⟨⟨0, 1⟩, "relay"⟩
  typeParams := [⟨⟨1, 1⟩, ⟨⟨1, 1⟩, "T"⟩, .poly⟩, ⟨⟨1, 9⟩, ⟨⟨1, 9⟩, "U"⟩, .linear⟩, ⟨⟨1, 19⟩, ⟨⟨1, 19⟩, "F"⟩, .free⟩]
  params := [⟨⟨2, 1⟩, ⟨⟨2, 1⟩, "x"⟩, .param "T"⟩, ⟨⟨3, 1⟩, ⟨⟨3, 1⟩, "y"⟩, .param "U"⟩,
    ⟨⟨4, 1⟩, ⟨⟨4, 1⟩, "z"⟩, .param "F"⟩]
  ret := .param "T"
  body := ⟨⟨18, 1⟩, [
    .borrow ⟨5, 1⟩ .write ⟨⟨6, 1⟩, "x"⟩ ⟨⟨7, 1⟩, "v"⟩ ⟨⟨8, 1⟩, "R"⟩ ⟨⟨9, 1⟩, []⟩,
    .discard ⟨10, 1⟩ ⟨⟨10, 1⟩, .unit, .call ⟨⟨10, 1⟩, "close"⟩ [⟨⟨11, 1⟩, .param "U", .var "y"⟩]⟩,
    .bind ⟨12, 1⟩ ⟨⟨13, 1⟩, "w"⟩ (.param "T") ⟨⟨14, 1⟩, .param "T", .var "x"⟩,
    .ret ⟨15, 1⟩ ⟨⟨16, 1⟩, .param "T", .var "w"⟩]⟩

def files : TypeTable := ⟨[("File", ⟨⟨0, 1⟩, ⟨⟨0, 1⟩, "File"⟩, [], .linear, .sealed⟩)]⟩

/-- Integers for the first and the last parameter, files for the second. -/
def filesAndInts : Subst := ⟨[("T", .int), ("U", .named "File" []), ("F", .int)]⟩

/-- In the instance the first argument is free, and lending it freezes nothing. -/
theorem instance_accepted_relay : filesAndInts.Instantiates files relay.typeParams ∧
    (∃ usage, checkFunction files {} relay = .ok usage) ∧
      ∃ usage, checkFunction files {} (relay.instantiate filesAndInts) = .ok usage := by
  have hinst : filesAndInts.Instantiates files relay.typeParams := by
    constructor
    · intro name t h
      have hmem := Dict.get?_mem h
      simp only [filesAndInts, List.mem_cons, Prod.mk.injEq, List.not_mem_nil, or_false] at hmem
      rcases hmem with ⟨_, rfl⟩ | ⟨_, rfl⟩ | ⟨_, rfl⟩ <;> rfl
    · intro name t h
      have hmem := Dict.get?_mem h
      simp only [filesAndInts, List.mem_cons, Prod.mk.injEq, List.not_mem_nil, or_false] at hmem
      rcases hmem with ⟨rfl, rfl⟩ | ⟨rfl, rfl⟩ | ⟨rfl, rfl⟩
      · exact ⟨.poly, by decide, by decide, fun h => absurd h (by decide)⟩
      · exact ⟨.linear, by decide, by decide, fun h => absurd h (by decide)⟩
      · exact ⟨.free, by decide, by decide, fun _ => by cbv⟩
  have hfound : (runFunction ⟨files, .ofParams relay.typeParams, {}⟩ relay).found = [] := by cbv
  exact ⟨hinst, ⟨_, ok_of_found hfound⟩, instance_accepted files {} hinst (ok_of_found hfound)⟩

end Check

end Linearity
