import Mathlib
import Linearity.Proofs.Reached
import Linearity.Proofs.Policy

/-! Linear values at the head of a path.

A path moves nothing out of its head. If that is no variable but an expression, as in
`rewind(x).pos`, what it evaluates to is dropped once the path has been followed, and where
its type is linear that is reported. So it is if the path is read. The place of an
assignment is followed in a walk of its own, which evaluates the head and asks nothing of
its type (`heads_of_paths`): an accepted function reads no part of a linear temporary, but
may write to one, and `leak` loses its file that way. -/
namespace Linearity.Check
variable {c : Context} {s : State}

/-! ### What a statement evaluates -/

/-- `e` is evaluated whenever `whole` is. A variable at the head of a path is not. -/
inductive Within (e : Expr Span) : Expr Span → Prop where
  | self : Within e e
  | arg {pos : Span} {ty : Ty} {callee : Ident Span} {args : List (Expr Span)} {a : Expr Span} :
    a ∈ args → Within e a → Within e ⟨pos, ty, .call callee args⟩
  | left {pos : Span} {ty : Ty} {op : BinaryOp} {lhs rhs : Expr Span} :
    Within e lhs → Within e ⟨pos, ty, .binary op lhs rhs⟩
  | right {pos : Span} {ty : Ty} {op : BinaryOp} {lhs rhs : Expr Span} :
    Within e rhs → Within e ⟨pos, ty, .binary op lhs rhs⟩
  | operand {pos : Span} {ty : Ty} {op : UnaryOp} {operand : Expr Span} :
    Within e operand → Within e ⟨pos, ty, .unary op operand⟩
  | field {pos : Span} {ty : Ty} {name : Ident Span} {fields : List (Ident Span × Expr Span)}
    {field : Ident Span × Expr Span} :
    field ∈ fields → Within e field.2 → Within e ⟨pos, ty, .record name fields⟩
  | slot {pos : Span} {ty : Ty} {name variant : Ident Span} {slots : List (Ident Span × Expr Span)}
    {slot : Ident Span × Expr Span} :
    slot ∈ slots → Within e slot.2 → Within e ⟨pos, ty, .union name variant slots⟩
  | reference {pos : Span} {ty : Ty} {reference : Expr Span} :
    Within e reference → Within e ⟨pos, ty, .deref reference⟩
  | head {pos : Span} {ty : Ty} {head : Expr Span} {steps : List (Step Span)} :
    head.var? = none → Within e head → Within e ⟨pos, ty, .path head steps⟩
  | index {pos : Span} {ty : Ty} {head : Expr Span} {steps : List (Step Span)} {index : Expr Span} :
    .index index ∈ steps → Within e index → Within e ⟨pos, ty, .path head steps⟩

/-- The indices of a path. -/
def indices (steps : List (Step Span)) : List (Expr Span) := steps.filterMap fun
  | .index e => some e
  | _ => none

/-- What is evaluated of a place: where it starts, unless that is a variable, and its indices. -/
def placeOperands (head : Expr Span) (steps : List (Step Span)) : List (Expr Span) :=
  (if head.var?.isSome then [] else [head]) ++ indices steps

/-- The expressions that the check of a statement evaluates, those in its blocks apart. -/
def operands : Stmt Span → List (Expr Span)
  | .bind _ _ _ value | .unpack _ _ value | .select _ value _ | .ret _ value | .discard _ value => [value]
  | .assign _ target value => value ::
    match target.form with
    | .var _ => []
    | .path head steps => placeOperands head steps
    | .deref reference => placeOperands reference []
    | _ => [target]
  | .choose _ branches _ => branches.map Branch.cond
  | .loop _ cond _ => [cond]
  | .count _ _ first last _ => [first, last]
  | .borrow .. | .block _ => []

/-! ### Its actions -/

theorem actions_subset_single {e value : Expr Span} (h : e ∈ [value]) : actions e ⊆ actions value := by
  rw [List.mem_singleton.mp h]
  exact List.Subset.refl _

theorem actions_subset_all {args : List (Expr Span)} {a : Expr Span} (h : a ∈ args) :
    actions a ⊆ allActions args := by
  induction args with
  | nil => cases h
  | cons e es ih =>
    rw [allActions]
    rcases List.mem_cons.mp h with rfl | h
    · exact List.subset_append_left ..
    · exact List.subset_append_of_subset_right _ (ih h)

theorem actions_subset_values {fields : List (Ident Span × Expr Span)} {field : Ident Span × Expr Span}
    (h : field ∈ fields) : actions field.2 ⊆ valuesActions fields := by
  induction fields with
  | nil => cases h
  | cons first rest ih =>
    rw [valuesActions]
    rcases List.mem_cons.mp h with rfl | h
    · exact List.subset_append_left ..
    · exact List.subset_append_of_subset_right _ (ih h)

theorem actions_subset_steps {steps : List (Step Span)} {index : Expr Span} (h : .index index ∈ steps) :
    actions index ⊆ stepsActions steps := by
  induction steps with
  | nil => cases h
  | cons step rest ih =>
    rcases List.mem_cons.mp h with rfl | hrest
    · rw [stepsActions]
      exact List.subset_append_left ..
    · cases step with
      | field | arrow => exact ih hrest
      | index e =>
        rw [stepsActions]
        exact List.subset_append_of_subset_right _ (ih hrest)

/-- Of a path whose head is no variable. -/
theorem formActions_path {head : Expr Span} (hvar : head.var? = none) (pos : Span) (ty : Ty)
    (steps : List (Step Span)) : formActions pos ty (.path head steps) =
      (actions head ++ [.forbid head.ty (.discarded none head.ty.text head.pos) rfl]) ++
        (stepsActions steps ++ [.forbid ty (.linearLeaf (rootName head) ty.text pos) rfl]) := by
  rw [formActions, hvar]

/-- A part of an expression does what it does as a part. -/
theorem Within.actions {e whole : Expr Span} (h : Within e whole) : actions e ⊆ actions whole := by
  -- An expression's own actions are those of its form and one more.
  have hform : ∀ {pos ty form}, Check.actions e ⊆ formActions pos ty form →
      Check.actions e ⊆ Check.actions ⟨pos, ty, form⟩ := by
    intro pos ty form h
    rw [Check.actions]
    exact List.subset_append_of_subset_left _ h
  induction h with
  | self => exact List.Subset.refl _
  | arg hmem _ ih => exact hform (List.Subset.trans ih (actions_subset_all hmem))
  | left _ ih => exact hform (List.subset_append_of_subset_left _ ih)
  | right _ ih => exact hform (List.subset_append_of_subset_right _ ih)
  | operand _ ih => exact hform ih
  | field hmem _ ih => exact hform (List.Subset.trans ih (actions_subset_values hmem))
  | slot hmem _ ih => exact hform (List.Subset.trans ih (actions_subset_values hmem))
  | reference _ ih => exact hform (List.subset_append_of_subset_left _ ih)
  | head hvar _ ih =>
    refine hform ?_
    rw [formActions_path hvar]
    exact List.subset_append_of_subset_left _ (List.subset_append_of_subset_left _ ih)
  | index hmem _ ih =>
    refine hform ?_
    rw [formActions]
    exact List.subset_append_of_subset_right _
      (List.subset_append_of_subset_left _ (List.Subset.trans ih (actions_subset_steps hmem)))

theorem actions_subset_place {head e : Expr Span} {steps : List (Step Span)} (h : e ∈ placeOperands head steps)
    (ty : Ty) (value : Expr Span) (pos : Span) : actions e ⊆ placeActions ty head steps value pos := by
  unfold placeOperands at h
  unfold placeActions
  rcases List.mem_append.mp h with h | h
  · cases hvar : head.var? with
    | some name => rw [hvar] at h; cases h
    | none =>
      rw [hvar] at h
      rw [List.mem_singleton.mp h, headActions, hvar]
      exact List.subset_append_left ..
  · obtain ⟨step, hstep, hindex⟩ := List.mem_filterMap.mp h
    cases step with
    | index e' =>
      cases hindex
      exact List.subset_append_of_subset_right _ (List.subset_append_of_subset_left _ (actions_subset_steps hstep))
    | _ => cases hindex

theorem actions_subset_store {target value e : Expr Span} {pos p : Span}
    (h : e ∈ operands (.assign p target value)) :
    actions e ⊆ actions value ++ storeActions target value pos := by
  rcases List.mem_cons.mp h with rfl | h
  · exact List.subset_append_left ..
  · refine List.subset_append_of_subset_right _ ?_
    unfold storeActions
    cases hform : target.form with
    | var name => rw [hform] at h; cases h
    | path head steps => rw [hform] at h; exact actions_subset_place h ..
    | deref reference => rw [hform] at h; exact actions_subset_place h ..
    | _ => rw [hform] at h; exact actions_subset_single h

theorem Reached.condition_of_mem {f : FunDef Span} {branches : List (Branch Span)}
    (h : Reached c f (.branches branches) s) {b : Branch Span} (hb : b ∈ branches) :
    ∃ u, Reached c f (.operand b.cond.pos (actions b.cond)) u := by
  induction branches generalizing s with
  | nil => cases hb
  | cons first rest ih =>
    obtain ⟨pos, cond, body⟩ := first
    rcases List.mem_cons.mp hb with rfl | hb
    · exact ⟨s, h.condition⟩
    · exact ih h.nextBranch hb

/-- What a statement evaluates, the check of its function comes to. -/
theorem Reached.operand_of_mem {f : FunDef Span} {stmt : Stmt Span} (h : Reached c f (.stmt stmt) s)
    {e : Expr Span} (he : e ∈ operands stmt) :
    ∃ pos acts u, Reached c f (.operand pos acts) u ∧ actions e ⊆ acts := by
  cases stmt with
  | bind => exact ⟨_, _, _, h.bound, actions_subset_single he⟩
  | unpack => exact ⟨_, _, _, h.unpacked, actions_subset_single he⟩
  | assign => exact ⟨_, _, _, h.assigned, actions_subset_store he⟩
  | choose =>
    obtain ⟨b, hb, rfl⟩ := List.mem_map.mp he
    obtain ⟨u, hu⟩ := h.branches.condition_of_mem hb
    exact ⟨_, _, u, hu, List.Subset.refl _⟩
  | select => exact ⟨_, _, _, h.scrutinee, actions_subset_single he⟩
  | loop => exact ⟨_, _, _, h.guard, actions_subset_single he⟩
  | count =>
    rcases List.mem_cons.mp he with rfl | he
    · exact ⟨_, _, _, h.lower, List.Subset.refl _⟩
    · exact ⟨_, _, _, h.upper, actions_subset_single he⟩
  | borrow | block => cases he
  | ret => exact ⟨_, _, _, h.returned, actions_subset_single he⟩
  | discard => exact ⟨_, _, _, h.discarded, List.subset_append_of_subset_left _ (actions_subset_single he)⟩

/-! ### Types that must not be linear -/

/-- Where nothing is found, a type that must not be linear is not. -/
theorem free_of_forbid {acts : List Action} {ty : Ty} {v : Violation} {hv : v.isDisagreement = false}
    (hmem : .forbid ty v hv ∈ acts) (h : (perform c acts s).found = []) : isLinear c ty = false := by
  obtain ⟨before, after, rfl⟩ := List.append_of_mem hmem
  rw [perform_append] at h
  have hforbid : (forbidLinear c ty v (perform c before s)).found = [] := (grown_perform c after _).eq_nil h
  cases hlin : isLinear c ty with
  | false => rfl
  | true =>
    rw [forbidLinear, hlin, if_pos rfl] at hforbid
    exact absurd hforbid (report_found c v _)

theorem isRef_of_isLinear {ty : Ty} (h : isLinear c ty = true) : ty.isRef = false := by
  cases ty with
  | ref =>
    rw [isLinear, TypeTable.isLinear, TypeTable.linearIn] at h
    cases h
  | _ => rfl

/-! ### Reading and writing -/

section Thorough
variable (hc : c.Thorough) {head : Expr Span} (hvar : head.var? = none) (hlin : isLinear c head.ty = true)
  (pos : Span) (ty : Ty) (steps : List (Step Span)) (s : State)
include hc hvar hlin

theorem eval_temporary : (eval c head s).found ++ [.discarded none head.ty.text head.pos] <+:
    (eval c ⟨pos, ty, .path head steps⟩ s).found := by
  have hhead : (perform c (actions head ++ [.forbid head.ty (.discarded none head.ty.text head.pos) rfl]) s).found =
      (eval c head s).found ++ [.discarded none head.ty.text head.pos] := by
    rw [perform_append, ← eval_eq]
    exact (hc.forbidLinear_found ..).trans (by rw [hlin]; rfl)
  rw [eval_eq c ⟨pos, ty, .path head steps⟩, actions, formActions_path hvar, perform_append, perform_append, ← hhead]
  exact ((grown_perform ..).trans (grown_perform ..)).found

/-- All that can be reported for the place itself is its own type. -/
theorem assign_temporary (place : Span) (value : Expr Span) :
    (assign c place ⟨pos, ty, .path head steps⟩ value s).found =
      (evalSteps c steps (eval c head (eval c value s))).found ++
        if isLinear c ty then [.discarded none ty.text place] else [] := by
  rw [assign_eq, closing, closeStatements_found, perform_append, ← eval_eq]
  show (perform c (placeActions ty head steps value place) _).found = _
  rw [placeActions, headActions, admitActions_of_plain (isRef_of_isLinear hlin), hvar, perform_append,
    perform_append, ← eval_eq, ← evalSteps_eq]
  exact hc.forbidLinear_found ..

end Thorough

theorem forbid_mem_path {head : Expr Span} (hvar : head.var? = none) (pos : Span) (ty : Ty)
    (steps : List (Step Span)) : .forbid head.ty (.discarded none head.ty.text head.pos) rfl ∈
      actions ⟨pos, ty, .path head steps⟩ := by
  rw [actions, formActions_path hvar]
  simp

/-- **Linear values at the head of a path.** A thorough check reports such a head, if it is no
variable, where the path is read: right after it has evaluated it. If the path is assigned
to, the check reports what evaluating value, head and indices reports, and the place if it is
linear itself, but nothing for the head. In an accepted function, then, each path that is
evaluated, in whatever operand, starts at a variable or at a free value; and of a path that is
assigned to, only the place it leads to is known to be free. -/
theorem heads_of_paths (T : TypeTable) (settings : Settings) (f : FunDef Span) :
    let c : Context := ⟨T, .ofParams f.typeParams, settings⟩
    (settings.policy = .accumulate → ∀ head : Expr Span, head.var? = none → isLinear c head.ty = true →
      ∀ s pos ty steps,
        (eval c head s).found ++ [.discarded none head.ty.text head.pos] <+:
          (eval c ⟨pos, ty, .path head steps⟩ s).found ∧
        ∀ place value, (assign c place ⟨pos, ty, .path head steps⟩ value s).found =
          (evalSteps c steps (eval c head (eval c value s))).found ++
            if isLinear c ty then [.discarded none ty.text place] else []) ∧
    ∀ usage, checkFunction T settings f = .ok usage → ∀ stmt s, Reached c f (.stmt stmt) s →
      (∀ e ∈ operands stmt, ∀ pos ty head steps, Within ⟨pos, ty, .path head steps⟩ e →
        head.var? = none → isLinear c head.ty = false) ∧
      ∀ place pos ty head steps value, stmt = .assign place ⟨pos, ty, .path head steps⟩ value →
        isLinear c ty = false := by
  intro c
  refine ⟨fun hpolicy head hvar hlin s pos ty steps => ?_, fun usage hok stmt s h => ?_⟩
  · have hc : c.Thorough := hpolicy
    exact ⟨eval_temporary hc hvar hlin pos ty steps s, assign_temporary hc hvar hlin pos ty steps s⟩
  have hsilent : ∀ {pos acts u}, Reached c f (.operand pos acts) u → (perform c acts u).found = [] := by
    intro pos acts u hu
    have hfound := hu.found
    rwa [found_of_ok hok, List.prefix_nil, Task.run, closing, closeStatements_found] at hfound
  refine ⟨fun e he pos ty head steps hwithin hvar => ?_, ?_⟩
  · obtain ⟨_, acts, u, hu, hacts⟩ := h.operand_of_mem he
    exact free_of_forbid (hacts (hwithin.actions (forbid_mem_path hvar pos ty steps))) (hsilent hu)
  · rintro place pos ty head steps value rfl
    have hmem : .forbid ty (.discarded head.var? ty.text place) rfl ∈
        actions value ++ storeActions ⟨pos, ty, .path head steps⟩ value place := by
      simp [storeActions, placeActions]
    exact free_of_forbid hmem (hsilent h.assigned)

/-! ### A file that is lost -/

/-- Files are linear, marks are free, and both have a position. -/
def leakTable : TypeTable := .ofDefs [
  ⟨⟨3, 1⟩, ⟨⟨0, 1⟩, "File"⟩, [], .linear, .record [⟨⟨2, 1⟩, ⟨⟨1, 1⟩, "pos"⟩, .int⟩]⟩,
  ⟨⟨7, 1⟩, ⟨⟨4, 1⟩, "Mark"⟩, [], .free, .record [⟨⟨6, 1⟩, ⟨⟨5, 1⟩, "pos"⟩, .int⟩]⟩]

/-- `rewind(x)`, a file that no variable holds. -/
def leakHead : Expr Span :=
  ⟨⟨10, 1⟩, .named "File" [], .call ⟨⟨9, 1⟩, "rewind"⟩ [⟨⟨8, 1⟩, .named "File" [], .var "x"⟩]⟩

/-- `start()`, a mark. -/
def leakMark : Expr Span := ⟨⟨14, 1⟩, .named "Mark" [], .call ⟨⟨13, 1⟩, "start"⟩ []⟩

def leakTarget : Expr Span := ⟨⟨12, 1⟩, .int, .path leakHead [.field ⟨⟨11, 1⟩, "pos"⟩]⟩

def leakValue : Expr Span := ⟨⟨16, 1⟩, .int, .path leakMark [.field ⟨⟨15, 1⟩, "pos"⟩]⟩

/-- A function that moves its file into a call, sets the position of what it gets back, and
keeps neither. -/
def leak : FunDef Span where
  pos := ⟨22, 1⟩
  name := ⟨⟨18, 1⟩, "leak"⟩
  typeParams := []
  params := [⟨⟨20, 1⟩, ⟨⟨19, 1⟩, "x"⟩, .named "File" []⟩]
  ret := .unit
  body := ⟨⟨21, 1⟩, [.assign ⟨17, 1⟩ leakTarget leakValue]⟩

def leakContext : Context := ⟨leakTable, .ofParams leak.typeParams, {}⟩

/-- Where it comes to its assignment. -/
def leakState : State := {pushScope (entryState leakContext leak) with escaped := []}

theorem leak_reached : Reached leakContext leak (.stmt (.assign ⟨17, 1⟩ leakTarget leakValue)) leakState :=
  have hbody : Reached leakContext leak (.stmts leak.body.stmts) _ := .inside .body
  .first hbody (by cbv)

theorem leak_ok : ∃ usage, checkFunction leakTable {} leak = .ok usage := by
  have hfound : (runFunction leakContext leak).found = [] := by cbv
  exact ⟨_, ok_of_found hfound⟩

/-- `leak` is accepted, though the head of the path it assigns to is linear and no variable. -/
theorem leak_drops_file : (∃ usage, checkFunction leakTable {} leak = .ok usage) ∧
    ∃ s, Reached leakContext leak (.stmt (.assign ⟨17, 1⟩ leakTarget leakValue)) s ∧
      leakHead.var? = none ∧ isLinear leakContext leakHead.ty = true ∧
      .discarded none leakHead.ty.text leakHead.pos ∉ (assign leakContext ⟨17, 1⟩ leakTarget leakValue s).found := by
  have hfound : (assign leakContext ⟨17, 1⟩ leakTarget leakValue leakState).found = [] := by cbv
  exact ⟨leak_ok, leakState, leak_reached, rfl, by cbv, by rw [hfound]; exact List.not_mem_nil⟩

/-- Were its target read, the file would be reported. That it is assigned to is silent, and the
value that is assigned does start at a free value. -/
theorem heads_of_paths_leak :
    (eval leakContext leakHead leakState).found ++ [.discarded none "File" ⟨10, 1⟩] <+:
      (eval leakContext leakTarget leakState).found ∧
    (assign leakContext ⟨17, 1⟩ leakTarget leakValue leakState).found = [] ∧
    isLinear leakContext leakMark.ty = false ∧ isLinear leakContext leakTarget.ty = false := by
  have hlin : isLinear leakContext leakHead.ty = true := by cbv
  have hpath : (evalSteps leakContext [.field ⟨⟨11, 1⟩, "pos"⟩]
      (eval leakContext leakHead (eval leakContext leakValue leakState))).found ++
        (if isLinear leakContext .int then [.discarded none (Ty.int).text ⟨17, 1⟩] else []) = [] := by cbv
  obtain ⟨hthorough, haccepted⟩ := heads_of_paths leakTable {} leak
  obtain ⟨hread, hwrite⟩ := hthorough rfl leakHead rfl hlin leakState ⟨12, 1⟩ .int [.field ⟨⟨11, 1⟩, "pos"⟩]
  obtain ⟨usage, hok⟩ := leak_ok
  obtain ⟨hoperands, hplace⟩ := haccepted usage hok _ _ leak_reached
  have hmark := hoperands leakValue List.mem_cons_self ⟨16, 1⟩ .int leakMark [.field ⟨⟨15, 1⟩, "pos"⟩] .self rfl
  exact ⟨hread, (hwrite ⟨17, 1⟩ leakValue).trans hpath, hmark, hplace _ _ _ _ _ _ rfl⟩

end Linearity.Check
