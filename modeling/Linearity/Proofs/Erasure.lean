import Mathlib
import Linearity.Proofs.Reached
import Linearity.Proofs.Relocate

/-! What a verdict does not depend on.

`erase` puts one and the same thing for every place, literal, callee, operator, and for every
name of a record, a union, a variant or a field. What is left are the names of bindings and
regions, the types and the shape of the code. The check of an erased function is the erased
check (`runFunction_erase`): all its states, violations and events are those of the function,
without their places. -/
namespace Linearity

/-! ### Syntax -/

/-- The place of everything in an erased program. -/
def nowhere (_ : Span) : Span := ⟨0, 0⟩

def Violation.erase (v : Violation) : Violation := v.relocate nowhere

def Event.erase (e : Event) : Event := e.relocate nowhere

/-- For a name that is not kept. -/
def Ident.anonymous : Ident Span := ⟨⟨0, 0⟩, ""⟩

abbrev Translation.erasing : Translation where
  place := nowhere
  label _ := .anonymous
  literal _ := .unit
  unary _ := .neg
  binary _ := .add

abbrev Expr.erase (e : Expr Span) : Expr Span := e.translate .erasing

abbrev Block.erase (block : Block Span) : Block Span := block.translate .erasing

/-- Neither its name nor what it returns is kept. -/
def FunDef.erase (f : FunDef Span) : FunDef Span := {f.translate .erasing with ret := .unit}

@[simp] theorem FunDef.regions_erase (f : FunDef Span) : f.erase.regions = f.regions.map (Ident.relocate nowhere) := by
  simp only [regions, erase, translate, List.filter_map, List.map_map]
  rfl

@[simp] theorem Kinds.ofParams_erase (params : List (TypeParam Span)) :
    ofParams (params.map (TypeParam.translate .erasing)) = ofParams params := by
  simp only [ofParams, List.map_map]
  rfl

namespace Check

/-! ### Actions -/

/-- The same actions, nowhere. -/
def eraseActions (acts : List Action) : List Action := acts.map (Action.relocate nowhere)

@[simp] theorem eraseActions_append (acts acts' : List Action) :
    eraseActions (acts ++ acts') = eraseActions acts ++ eraseActions acts' :=
  List.map_append

/-- Erasure leaves types alone. -/
theorem keepsRegions_erasing : KeepsRegions Translation.erasing.ty :=
  ⟨fun _ => rfl, fun _ _ _ => rfl, fun _ => rfl, fun _ => rfl⟩

/-- An erased program takes the actions that are left when they are erased. -/
theorem eq_eraseActions {acts acts' : List Action} (h : List.Forall₂ (Translated .erasing) acts acts') :
    acts' = eraseActions acts := by
  induction h with
  | nil => rfl
  | cons ha _ ih => rw [ih, ha.eq_relocate fun _ => rfl, eraseActions, eraseActions, List.map_cons]

/-- An erased expression takes the same actions, nowhere. -/
theorem actions_erase (e : Expr Span) : actions e.erase = eraseActions (actions e) :=
  eq_eraseActions (translated_actions keepsRegions_erasing e)

/-- An assignment to an erased target takes the same actions, nowhere. -/
theorem storeActions_erase (target value : Expr Span) (pos : Span) :
    storeActions target.erase value.erase (nowhere pos) = eraseActions (storeActions target value pos) :=
  eq_eraseActions (translated_storeActions keepsRegions_erasing target value pos)

theorem unpackActions_erase (parts : List (Unpacked Span)) :
    unpackActions (parts.map (Unpacked.translate .erasing)) = eraseActions (unpackActions parts) := by
  simp only [unpackActions, eraseActions, List.flatMap_map, List.map_flatMap]
  rfl

/-! ### The walk -/

/-- The state without places. -/
def State.erase (s : State) : State := s.relocate (.moving nowhere [] [])

def Outcome.erase (o : Outcome) : Outcome := o.relocate (.moving nowhere [] [])

variable (c : Context)

theorem fits_erase : Fits c (.moving nowhere [] []) := .inr rfl

/-- Actions and the regions that close after them. -/
theorem closing_erase (pos : Span) {acts : List Action} (hacts : acts.all Action.plain = true) (s : State) :
    closing c (nowhere pos) (eraseActions acts) s.erase = (closing c pos acts s).erase :=
  (relocate_closing (fits_erase c) s pos hacts).symm

theorem perform_erase (acts : List Action) (s : State) :
    perform c (eraseActions acts) s.erase = (perform c acts s).erase :=
  (relocate_perform_moving (fits_erase c) s acts).symm

theorem evalClosed_erase (e : Expr Span) (s : State) : evalClosed c e.erase s.erase = (evalClosed c e s).erase := by
  rw [evalClosed_eq, evalClosed_eq, actions_erase, Expr.pos_translate, closing_erase c e.pos (plain_actions e)]

theorem unpack_erase (parts : List (Unpacked Span)) (s : State) :
    unpack c (parts.map (Unpacked.translate .erasing)) s.erase = (unpack c parts s).erase := by
  rw [unpack_eq, unpack_eq, unpackActions_erase, perform_erase]

theorem define_erase (name : Ident Span) (ty : Ty) (s : State) :
    define c name.name ty (nowhere name.pos) s.erase = (define c name.name ty name.pos s).erase :=
  perform_erase c [.define name.name ty name.pos] s

/-- The end of a scope. -/
theorem leaveScope_erase (reach : Reach) (pos : Span) (s : State) :
    leaveScope c reach (nowhere pos) s.erase = (leaveScope c reach pos s).erase :=
  (relocate_leaveScope_moving (fits_erase c) s reach pos).symm

/-- The start of a borrow block. -/
theorem enterBorrow_erase (kind : RefKind) (source name region : Ident Span) (s : State) :
    enterBorrow c kind (source.relocate nowhere) (name.relocate nowhere) (region.relocate nowhere) s.erase =
      ((enterBorrow c kind source name region s).1, (enterBorrow c kind source name region s).2.erase) :=
  relocate_enterBorrow_moving (fits_erase c) s kind source name region

theorem leaveBorrow_erase (opened : Bool) (pos : Span) (s : State) :
    leaveBorrow opened (nowhere pos) s.erase = (leaveBorrow opened pos s).erase := by
  unfold leaveBorrow
  split
  · exact (relocate_closeRegion s pos).symm
  · rfl

/-- The join of branches. -/
theorem join_erase (outcomes : List Outcome) (s : State) : join c (outcomes.map Outcome.erase) s.erase =
    ((join c outcomes s).1, (join c outcomes s).2.erase) :=
  relocate_join (fits_erase c) s outcomes

theorem outcome_erase (pos : Span) (entry : State) (run : Reach × State) :
    outcome (nowhere pos) entry.erase (run.1, run.2.erase) =
      ((outcome pos entry run).1.erase, (outcome pos entry run).2.erase) := by
  unfold outcome
  by_cases hrun : run.1 = .continues
  · simp only [hrun, if_true]
    rfl
  · simp only [hrun, if_false]
    rfl

theorem enterLoop_erase (s : State) : enterLoop s.erase = (enterLoop s).erase := by
  simp [enterLoop, State.erase, State.relocate, Relocation.moving, Scopes.relocate, Scopes.enterLoop]

theorem popScope_erase (s : State) : popScope s.erase = (popScope s).erase := by
  simp only [popScope, State.erase, State.relocate, Relocation.moving, Scopes.pop_relocate]

section Statements
variable (pos : Span) (value : Expr Span) (s : State)

theorem bind_erase (name : Ident Span) (ty : Ty) :
    bind c (nowhere pos) (name.relocate nowhere) ty value.erase s.erase = (bind c pos name ty value s).erase := by
  rw [bind_eq, bind_eq, ← perform_erase, ← closing_erase c value.pos (plain_actions value), actions_erase,
    Expr.pos_translate]
  rfl

theorem assign_erase (target : Expr Span) :
    assign c (nowhere pos) target.erase value.erase s.erase = (assign c pos target value s).erase := by
  have hplain : (actions value ++ storeActions target value pos).all Action.plain = true := by
    rw [List.all_append, plain_actions, plain_storeActions]
    rfl
  rw [assign_eq, assign_eq, ← closing_erase c pos hplain, actions_erase, storeActions_erase, eraseActions_append]

theorem discard_erase : discard c (nowhere pos) value.erase s.erase = (discard c pos value s).erase := by
  have hplain : (actions value ++
      [Action.forbid value.ty (.discarded value.var? value.ty.text pos) rfl]).all Action.plain = true := by
    rw [List.all_append, plain_actions]
    rfl
  rw [discard_eq, discard_eq, ← closing_erase c pos hplain, eraseActions_append, actions_erase]
  simp only [Expr.ty_translate, Expr.var?_translate]
  rfl

theorem ret_erase : ret c (nowhere pos) value.erase s.erase = (ret c pos value s).erase := by
  rw [ret_eq, ret_eq, ← perform_erase, ← closing_erase c value.pos (plain_actions value), actions_erase,
    Expr.pos_translate, Expr.ty_translate, Expr.var?_translate]
  rfl

end Statements

/-- A statement has its list of reported regions apart, erased or not. -/
theorem apart_erase {run run' : State → Reach × State}
    (hrun : ∀ s, run' s.erase = ((run s).1, (run s).2.erase)) (s : State) :
    apart run' s.erase = ((apart run s).1, (apart run s).2.erase) := by
  have hinside := hrun {s with escaped := []}
  unfold apart
  rw [show ({s.erase with escaped := []} : State) = State.erase {s with escaped := []} from rfl, hinside]
  rfl

mutual

/-- An erased statement does to an erased state what the statement does to the state. -/
theorem visit_erase : ∀ (stmt : Stmt Span) (s : State),
    visit c (stmt.translate .erasing) s.erase = ((visit c stmt s).1, (visit c stmt s).2.erase)
  | .bind pos name ty value, s => congrArg (Prod.mk _) (bind_erase c pos value s name ty)
  | .unpack _ parts value, s => by
    simp only [Stmt.translate, visit, evalClosed_erase, unpack_erase]
  | .assign pos target value, s => congrArg (Prod.mk _) (assign_erase c pos value s target)
  | .choose pos branches none, s => by
    simp only [Stmt.translate, visit, checkBranches_erase branches s]
    exact (congrArg (fun outcomes => join c outcomes _) (by rw [List.map_append]; rfl)).trans (join_erase ..)
  | .choose pos branches (some block), s => by
    simp only [Stmt.translate, visit, checkBranches_erase branches s, checkBlock_erase block, Block.pos_translate, outcome_erase]
    exact (congrArg (fun outcomes => join c outcomes _) (by rw [List.map_append]; rfl)).trans (join_erase ..)
  | .select _ scrutinee arms, s => by
    simp only [Stmt.translate, visit, evalClosed_erase, checkArms_erase arms]
    exact join_erase ..
  | .loop _ cond body, s => by
    simp only [Stmt.translate, visit, enterLoop_erase, evalClosed_erase, checkBlock_erase body]
    rfl
  | .count _ var first last body, s => by
    have hentry := define_erase c var .int (pushScope (evalClosed c last (evalClosed c first (enterLoop s))))
    simp only [Stmt.translate, visit, enterLoop_erase, evalClosed_erase]
    rw [show define c (var.relocate nowhere).name .int (var.relocate nowhere).pos (pushScope (State.erase _)) = _ from hentry,
      checkBlock_erase body]
    generalize define c var.name .int var.pos (pushScope _) = entry
    have hpop := popScope_erase {(checkBlock c body entry).2 with scopes := entry.scopes}
    exact congrArg (fun t => (Reach.continues, exitLoop s.erase t)) hpop
  | .borrow pos kind source name region body, s => by
    simp only [Stmt.translate, visit, enterBorrow_erase, checkBlock_erase body, leaveScope_erase, leaveBorrow_erase]
  | .ret pos value, s => congrArg (Prod.mk _) (ret_erase c pos value s)
  | .discard pos value, s => congrArg (Prod.mk _) (discard_erase c pos value s)
  | .block body, s => checkBlock_erase body s

theorem checkBlock_erase : ∀ (block : Block Span) (s : State),
    checkBlock c block.erase s.erase = ((checkBlock c block s).1, (checkBlock c block s).2.erase)
  | ⟨pos, stmts⟩, s => by
    have hstmts := checkStmts_erase stmts (pushScope s)
    simp only [Block.translate, checkBlock]
    rw [show pushScope s.erase = (pushScope s).erase from rfl, hstmts, leaveScope_erase]

theorem checkStmts_erase : ∀ (stmts : List (Stmt Span)) (s : State),
    checkStmts c (Stmt.translateAll .erasing stmts) s.erase = ((checkStmts c stmts s).1, (checkStmts c stmts s).2.erase)
  | [], s => rfl
  | stmt :: rest, s => by
    have hhalted : halted c s.erase = halted c s := halted_relocate (fits_erase c) s
    simp only [Stmt.translateAll, checkStmts, hhalted, apart_erase (visit_erase stmt)]
    split
    · rfl
    · cases (apart (visit c stmt) s).1 with
      | continues => exact checkStmts_erase rest _
      | diverges => rfl

theorem checkBranches_erase : ∀ (branches : List (Branch Span)) (s : State),
    checkBranches c (Branch.translateAll .erasing branches) s.erase =
      ((checkBranches c branches s).1.map Outcome.erase, (checkBranches c branches s).2.erase)
  | [], s => rfl
  | ⟨pos, cond, body⟩ :: rest, s => by
    simp only [Branch.translateAll, checkBranches, evalClosed_erase, checkBlock_erase body, outcome_erase,
      checkBranches_erase rest, List.map_cons]

theorem checkArms_erase : ∀ (arms : List (Arm Span)) (s : State),
    checkArms c (Arm.translateAll .erasing arms) s.erase =
      ((checkArms c arms s).1.map Outcome.erase, (checkArms c arms s).2.erase)
  | [], s => rfl
  | ⟨pos, variant, parts, body⟩ :: rest, s => by
    have hparts := unpack_erase c parts (pushScope s)
    have harm := outcome_erase pos s ((checkBlock c body (unpack c parts (pushScope s))).1,
      leaveScope c (checkBlock c body (unpack c parts (pushScope s))).1 pos
        (checkBlock c body (unpack c parts (pushScope s))).2)
    simp only [Arm.translateAll, checkArms]
    rw [show pushScope s.erase = (pushScope s).erase from rfl, hparts, checkBlock_erase body, leaveScope_erase, harm,
      checkArms_erase rest]
    rfl

end

/-! ### Functions -/

theorem enterFunctionRegion_erase (s : State) (r : Ident Span) :
    enterFunctionRegion c s.erase (r.relocate nowhere) = (enterFunctionRegion c s r).erase := by
  unfold enterFunctionRegion
  rw [show s.erase.regions.enter (r.relocate nowhere).name .function (r.relocate nowhere).pos = _ from
    (Relocation.moving nowhere [] []).regions_enter s.regions r.name .function r.pos]
  cases s.regions.enter r.name .function r.pos with
  | ok regions => rfl
  | error v => exact (relocate_report (fits_erase c) s v).symm

theorem defineParam_erase (s : State) (p : Slot Span) :
    defineParam c s.erase (p.translate .erasing) = (defineParam c s p).erase :=
  define_erase c ⟨p.pos, p.name.name⟩ p.ty s

/-- An erased function starts in the erased state. -/
theorem entryState_erase (f : FunDef Span) : entryState c f.erase = (entryState c f).erase := by
  have hregions : f.erase.regions.foldl (enterFunctionRegion c) ({} : State).erase =
      (f.regions.foldl (enterFunctionRegion c) {}).erase := by
    rw [FunDef.regions_erase, List.foldl_map]
    exact List.foldl_hom State.erase (enterFunctionRegion_erase c)
  unfold entryState
  rw [show ({} : State) = ({} : State).erase from rfl, hregions, show f.erase.params = f.params.map (Slot.translate .erasing) from rfl,
    List.foldl_map]
  exact List.foldl_hom State.erase (defineParam_erase c)

/-- The check of an erased function is the erased check of the function. -/
theorem runFunction_erase (f : FunDef Span) : runFunction c f.erase = (runFunction c f).erase := by
  unfold runFunction
  rw [entryState_erase, show f.erase.body = f.body.erase from rfl, checkBlock_erase]
  exact leaveScope_erase ..

theorem finalState_erase (T : TypeTable) (settings : Settings) (f : FunDef Span) :
    finalState T settings f.erase = (finalState T settings f).erase := by
  unfold finalState
  rw [show f.erase.typeParams = f.typeParams.map (TypeParam.translate .erasing) from rfl, Kinds.ofParams_erase, runFunction_erase]

/-- What an erased check has found. -/
theorem erase_found (s : State) : s.erase.found = s.found.map Violation.erase := List.nil_append _

theorem erase_events (s : State) : s.erase.events = s.events.map Event.erase := List.nil_append _

/-- Two functions that are the same when they are erased are both accepted or both refused, with
the same events and with the same violations in the same order, but for their places. -/
theorem verdict_of_erase_eq (T : TypeTable) (settings : Settings) {f g : FunDef Span} (h : f.erase = g.erase) :
    ((∃ usage usage', checkFunction T settings f = .ok usage ∧ checkFunction T settings g = .ok usage' ∧
        usage.events.map Event.erase = usage'.events.map Event.erase) ∨
      ∃ vs vs', checkFunction T settings f = .error vs ∧ checkFunction T settings g = .error vs') ∧
      (finalState T settings f).found.map Violation.erase = (finalState T settings g).found.map Violation.erase ∧
      (finalState T settings f).events.map Event.erase = (finalState T settings g).events.map Event.erase := by
  have hstate : (finalState T settings f).erase = (finalState T settings g).erase := by
    rw [← finalState_erase, h, finalState_erase]
  have hfound : (finalState T settings f).found.map Violation.erase =
      (finalState T settings g).found.map Violation.erase := by
    rw [← erase_found, hstate, erase_found]
  have hevents : (finalState T settings f).events.map Event.erase =
      (finalState T settings g).events.map Event.erase := by
    rw [← erase_events, hstate, erase_events]
  refine ⟨?_, hfound, hevents⟩
  by_cases hclean : (finalState T settings f).found = []
  · have hclean' : (finalState T settings g).found = [] := by
      rw [hclean] at hfound
      exact List.map_eq_nil_iff.mp hfound.symm
    exact .inl ⟨_, _, ok_of_found hclean, ok_of_found hclean', hevents⟩
  · have hclean' : (finalState T settings g).found ≠ [] := fun hnil => by
      rw [hnil] at hfound
      exact hclean (List.map_eq_nil_iff.mp hfound)
    exact .inr ⟨_, _, error_of_found hclean, error_of_found hclean'⟩

/-- A function that closes its parameter in one of two branches only. Its name, what it calls and
compares, and where it stands are left open. -/
def spill (name callee field : String) (value : Literal) (op : BinaryOp) (ret : Ty) (at₀ : Nat) : FunDef Span where
  pos := ⟨at₀ + 20, 1⟩
  name := ⟨⟨at₀, 1⟩, name⟩
  typeParams := [⟨⟨at₀ + 1, 1⟩, ⟨⟨at₀ + 1, 1⟩, "A"⟩, .linear⟩]
  params := [⟨⟨at₀ + 2, 1⟩, ⟨⟨at₀ + 2, 1⟩, "x"⟩, .param "A"⟩]
  ret := ret
  body := ⟨⟨at₀ + 19, 1⟩, [
    .choose ⟨at₀ + 3, 1⟩ [⟨⟨at₀ + 4, 1⟩,
      ⟨⟨at₀ + 5, 1⟩, .bool, .binary op
        ⟨⟨at₀ + 6, 1⟩, .int, .path ⟨⟨at₀ + 7, 1⟩, .param "A", .var "x"⟩ [.field ⟨⟨at₀ + 8, 1⟩, field⟩]⟩
        ⟨⟨at₀ + 9, 1⟩, .int, .lit value⟩⟩,
      ⟨⟨at₀ + 10, 1⟩, [.discard ⟨at₀ + 11, 1⟩
        ⟨⟨at₀ + 12, 1⟩, .unit, .call ⟨⟨at₀ + 13, 1⟩, callee⟩ [⟨⟨at₀ + 14, 1⟩, .param "A", .var "x"⟩]⟩]⟩⟩] none]⟩

/-- Under other names and elsewhere the same branches disagree. -/
theorem verdict_of_erase_eq_spill :
    let f := spill "close_short" "close" "size" (.int 3) .lt .unit 0
    let g := spill "drop_odd" "drop" "count" (.text "odd") .ne .int 100
    f.erase = g.erase ∧
      (finalState ⟨[]⟩ {} f).found = [.branchesDisagree "x" [⟨4, 1⟩] [⟨3, 1⟩]] ∧
      (finalState ⟨[]⟩ {} f).found.map Violation.erase = (finalState ⟨[]⟩ {} g).found.map Violation.erase ∧
      (finalState ⟨[]⟩ {} f).events.map Event.erase = (finalState ⟨[]⟩ {} g).events.map Event.erase := by
  intro f g
  have herase : f.erase = g.erase := rfl
  exact ⟨herase, by cbv, (verdict_of_erase_eq ⟨[]⟩ {} herase).2⟩

end Check

end Linearity
