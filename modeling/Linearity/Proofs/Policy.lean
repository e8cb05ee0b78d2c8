import Linearity.Proofs.Path

/-! When to stop reporting.

A check may report all that is wrong, or stop at the first. Up to the first report both
do the same, and after it the one that stops adds nothing: what it finds is how the list
of the other begins (`found_runFunction`), and no more than one violation
(`single_runFunction`). So what holds of the violations of a thorough
check holds of those of any check. Along a path it is the same: where the one finds
something, so does the other (`found_of_thorough`). -/
namespace Linearity.Check

/-- Everything that is wrong is reported. -/
def Context.Thorough (c : Context) : Prop := c.settings.policy = .accumulate

/-- The same check, made thorough. -/
def Context.thorough (c : Context) : Context := {c with settings := {c.settings with policy := .accumulate}}

theorem Context.thorough_thorough (c : Context) : c.thorough.Thorough := rfl

section Thorough
variable {c : Context} (hc : c.Thorough)

include hc

theorem Context.Thorough.halted (s : State) : halted c s = false := by
  unfold Check.halted
  rw [hc]
  rfl

theorem Context.Thorough.report_found (v : Violation) (s : State) : (report c v s).found = s.found ++ [v] := by
  unfold report
  rw [hc.halted]
  rfl

theorem Context.Thorough.reportAll_found (vs : List Violation) (s : State) :
    (reportAll c vs s).found = s.found ++ vs := by
  induction vs generalizing s with
  | nil => exact (List.append_nil _).symm
  | cons v vs ih =>
    rw [reportAll_cons, ih, hc.report_found, List.append_assoc]
    rfl

theorem Context.Thorough.forbidLinear_found (ty : Ty) (v : Violation) (s : State) :
    (forbidLinear c ty v s).found = s.found ++ if isLinear c ty then [v] else [] := by
  unfold forbidLinear
  split
  · exact hc.report_found v s
  · exact (List.append_nil _).symm

end Thorough

variable (c : Context) {α β : Type} {s t : State}

theorem halted_of_found (h : t.found = s.found) : halted c t = halted c s := by
  unfold halted
  rw [h]

/-- Two checks that have come to the same, or of which the first has stopped and found how
the list of the second begins. -/
def Heads (x y : α × State) : Prop := x = y ∨ halted c x.2 = true ∧ x.2.found <+: y.2.found

/-- A check that stops has not found more than what it stops at. -/
def Single (s : State) : Prop := c.settings.policy = .firstError → s.found.length ≤ 1

theorem Single.of_found (h : Single c s) (hfound : t.found = s.found) : Single c t := fun hpolicy =>
  hfound ▸ h hpolicy

/-- What a check that may stop does, beside what a thorough one does. -/
structure Agrees (F G : State → α × State) : Prop where
  /-- After it has stopped, nothing is added. -/
  quiet : ∀ {s}, halted c s = true → (F s).2.found = s.found
  grows : ∀ s, s.found <+: (G s).2.found
  same : ∀ {s}, halted c s = false → Heads c (F s) (G s)
  single : ∀ {s}, Single c s → Single c (F s).2

namespace Agrees
variable {c} {F G : State → α × State} {F' G' : α → State → β × State}

theorem lift (h : Agrees c F G) (hs : halted c s = true) (hfound : s.found <+: t.found) :
    halted c (F s).2 = true ∧ (F s).2.found <+: (G t).2.found := by
  rw [halted_of_found c (h.quiet hs), h.quiet hs]
  exact ⟨hs, hfound.trans (h.grows t)⟩

theorem heads (h : Agrees c F G) (s : State) : Heads c (F s) (G s) := by
  cases hs : halted c s with
  | true => exact .inr (h.lift hs List.prefix_rfl)
  | false => exact h.same hs

theorem bind (h : Agrees c F G) (h' : ∀ a, Agrees c (F' a) (G' a)) :
    Agrees c (fun s => F' (F s).1 (F s).2) fun s => G' (G s).1 (G s).2 := by
  refine ⟨fun {s} hs => ?_, fun s => (h.grows s).trans ((h' _).grows _), fun {s} hs => ?_,
    fun hs => (h' _).single (h.single hs)⟩
  · have hquiet := h.quiet hs
    rw [(h' _).quiet (halted_of_found c hquiet ▸ hs), hquiet]
  · rcases h.same hs with heq | ⟨hhalted, hfound⟩
    · rw [heq]
      exact (h' _).heads _
    · refine .inr ?_
      have hquiet := (h' (F s).1).quiet hhalted
      rw [halted_of_found c hquiet, hquiet]
      exact ⟨hhalted, hfound.trans ((h' _).grows _)⟩

/-- A step may look at the state it starts in, and go on as that state says. -/
theorem pointwise (h : ∀ u, ∃ H K, Agrees c H K ∧ F u = H u ∧ G u = K u) : Agrees c F G := by
  refine ⟨fun {s} hs => ?_, fun s => ?_, fun {s} hs => ?_, fun {s} hs => ?_⟩ <;>
    obtain ⟨H, K, hagrees, hF, hG⟩ := h s
  · rw [hF]
    exact hagrees.quiet hs
  · rw [hG]
    exact hagrees.grows s
  · rw [hF, hG]
    exact hagrees.same hs
  · rw [hF]
    exact hagrees.single hs

/-- A step that reports nothing. -/
theorem silent (hfound : ∀ s, (F s).2.found = s.found) : Agrees c F F :=
  ⟨fun _ => hfound _, fun s => hfound s ▸ List.prefix_rfl, fun _ => .inl rfl, fun hs => hs.of_found c (hfound _)⟩

end Agrees

/-- A step without a result. -/
def AgreesOn (F G : State → State) : Prop := Agrees c (fun s => ((), F s)) fun s => ((), G s)

namespace AgreesOn
variable {c} {F G F₂ G₂ : State → State} {H K : State → α × State}

theorem silent (hfound : ∀ s, (F s).found = s.found) : AgreesOn c F F := Agrees.silent hfound

theorem pointwise (h : ∀ u, ∃ F₂ G₂, AgreesOn c F₂ G₂ ∧ F u = F₂ u ∧ G u = G₂ u) : AgreesOn c F G :=
  Agrees.pointwise fun u =>
    let ⟨_, _, hagrees, hF, hG⟩ := h u
    ⟨_, _, hagrees, congrArg _ hF, congrArg _ hG⟩

theorem seq (h : AgreesOn c F G) (h' : AgreesOn c F₂ G₂) : AgreesOn c (fun s => F₂ (F s)) fun s => G₂ (G s) :=
  Agrees.bind h fun _ => h'

theorem before (h : AgreesOn c F G) (h' : Agrees c H K) : Agrees c (fun s => H (F s)) fun s => K (G s) :=
  Agrees.bind h fun _ => h'

/-- A step with a result that does not depend on it. -/
theorem giving (h : AgreesOn c F G) (a : α) : Agrees c (fun s => (a, F s)) fun s => (a, G s) :=
  have hgive : ∀ _ : Unit, Agrees c (fun s => (a, s)) fun s => (a, s) := fun _ => .silent fun _ => rfl
  (Agrees.bind h hgive :)

end AgreesOn

theorem Agrees.states {c : Context} {F G : State → α × State} (h : Agrees c F G) :
    AgreesOn c (fun s => (F s).2) fun s => (G s).2 :=
  have hgive : ∀ _ : α, AgreesOn c (fun s => s) fun s => s := fun _ => .silent fun _ => rfl
  (h.bind hgive :)

theorem Agrees.after {c : Context} {F G : State → α × State} {F' G' : α → State → State} (h : Agrees c F G)
    (h' : ∀ a, AgreesOn c (F' a) (G' a)) :
    Agrees c (fun s => ((F s).1, F' (F s).1 (F s).2)) fun s => ((G s).1, G' (G s).1 (G s).2) :=
  h.bind fun a => (h' a).giving a

/-! ### Steps -/

theorem single_report (v : Violation) (hs : Single c s) : Single c (report c v s) := by
  intro hpolicy
  unfold report
  split
  · exact hs hpolicy
  · rename_i hhalted
    -- A check that stops and has not stopped has found nothing.
    rw [halted, hpolicy, beq_self_eq_true, Bool.true_and, Bool.not_eq_true, Bool.not_eq_eq_eq_not, Bool.not_false,
      List.isEmpty_iff] at hhalted
    rw [hhalted]
    exact Nat.le_refl 1

theorem agrees_report (v : Violation) : AgreesOn c (report c v) (report c.thorough v) := by
  refine ⟨fun {s} hs => ?_, fun s => report_grows .., fun {s} hs => .inl ?_, single_report c v⟩
  · show (report c v s).found = s.found
    unfold report
    rw [if_pos hs]
  · unfold report
    rw [hs, c.thorough_thorough.halted]

theorem agrees_reportAll (vs : List Violation) : AgreesOn c (reportAll c vs) (reportAll c.thorough vs) := by
  induction vs with
  | nil => exact .silent fun _ => rfl
  | cons v vs ih => exact (agrees_report c v).seq ih

theorem agrees_reportEscape (r : String) (name : Option String) (pos : Span) :
    AgreesOn c (fun s => reportEscape c name pos s r) fun s => reportEscape c.thorough name pos s r := by
  refine .pointwise fun u => ?_
  unfold reportEscape
  by_cases hr : r ∈ u.escaped
  · rw [if_pos hr, if_pos hr]
    exact ⟨_, _, .silent fun _ => rfl, rfl, rfl⟩
  · rw [if_neg hr, if_neg hr]
    have hmark : AgreesOn c (fun s => {s with escaped := r :: u.escaped}) fun s => {s with escaped := r :: u.escaped} :=
      .silent fun _ => rfl
    exact ⟨_, _, hmark.seq (agrees_report c _), rfl, rfl⟩

theorem agrees_reportEscapes (rs : List String) (name : Option String) (pos : Span) :
    AgreesOn c (reportEscapes c rs name pos) (reportEscapes c.thorough rs name pos) := by
  induction rs with
  | nil => exact .silent fun _ => rfl
  | cons r rs ih => exact (agrees_reportEscape c r name pos).seq ih

theorem agrees_settle (attempt : Scopes → Except Violation (Option BindingId) × Scopes) (event : Event) :
    AgreesOn c (fun s => settle c (attempt s.scopes) event s) fun s => settle c.thorough (attempt s.scopes) event s := by
  refine .pointwise fun u => ?_
  obtain ⟨outcome, scopes⟩ := attempt u.scopes
  cases outcome with
  | error v => exact ⟨_, _, agrees_report c v, rfl, rfl⟩
  | ok id =>
    cases id with
    | none => exact ⟨_, _, .silent fun _ => rfl, rfl, rfl⟩
    | some id => exact ⟨fun s => {log event s with scopes}, _, .silent fun _ => rfl, rfl, rfl⟩

theorem agrees_borrowBinding (kind : RefKind) (name : String) (id : BindingId) (region : String) (pos : Span)
    (shareable : Bool) : AgreesOn c (borrowBinding c kind name id region pos shareable)
      (borrowBinding c.thorough kind name id region pos shareable) := by
  refine .pointwise fun u => ?_
  unfold borrowBinding
  split
  · split
    · exact ⟨attach kind name id region pos false, _, .silent fun _ => rfl, rfl, rfl⟩
    · exact ⟨_, _, agrees_report c _, rfl, rfl⟩
  · split
    · rename_i frozen scopes _
      exact ⟨fun s => attach kind name id region pos frozen.isSome {s with scopes}, _, .silent fun _ => rfl, rfl, rfl⟩
    · exact ⟨_, _, agrees_report c _, rfl, rfl⟩

theorem agrees_borrowExpr (kind : RefKind) (target : String) (ty : Ty) (pos : Span) :
    AgreesOn c (borrowExpr c kind target ty pos) (borrowExpr c.thorough kind target ty pos) := by
  refine .pointwise fun u => ?_
  unfold borrowExpr
  cases ty with
  | ref k region referent =>
    dsimp only
    cases henter : enterStatement region pos u with
    | error v => exact ⟨_, _, agrees_report c v, rfl, rfl⟩
    | ok t =>
      have hopen : AgreesOn c (fun s => {s with regions := t.regions}) fun s => {s with regions := t.regions} :=
        .silent fun _ => rfl
      have ht : t = {u with regions := t.regions} := by
        rcases enterStatement_ok henter with ⟨rfl, _⟩ | ⟨_, rfl⟩ <;> rfl
      dsimp only
      split
      · rename_i id b hlookup
        refine ⟨_, _, hopen.seq (agrees_borrowBinding c kind target id region pos true), ?_, ?_⟩ <;> rw [← ht]
      · exact ⟨_, _, hopen, ht, ht⟩
  | _ => exact ⟨_, _, .silent fun _ => rfl, rfl, rfl⟩

theorem agrees_requireBelow (ty : Ty) (limit : Nat) (name : Option String) (pos : Span) :
    AgreesOn c (requireBelow c ty limit name pos) (requireBelow c.thorough ty limit name pos) :=
  .pointwise fun _ => ⟨_, _, agrees_reportEscapes c _ name pos, rfl, rfl⟩

theorem agrees_act (a : Action) : AgreesOn c (act c a) (act c.thorough a) := by
  cases a with
  | consume name pos => exact agrees_settle c (fun scopes => scopes.consume name pos) (.consume name pos)
  | read name reads pos =>
    exact agrees_settle c (fun scopes => scopes.read name (reads.getD c.settings.leafReads) pos) (.read name pos)
  | overwrite name pos => exact agrees_settle c (fun scopes => scopes.overwrite name pos) (.define name pos true)
  | borrow kind target ty pos => exact agrees_borrowExpr c kind target ty pos
  | define => exact .silent fun _ => rfl
  | live ty name pos => exact .pointwise fun _ => ⟨_, _, agrees_reportEscapes c _ name pos, rfl, rfl⟩
  | outlive name ty pos =>
    refine .pointwise fun u => ?_
    show ∃ F G, _ ∧ requireOutlives c name ty pos u = _ ∧ requireOutlives c.thorough name ty pos u = _
    unfold requireOutlives
    split
    · exact ⟨_, _, agrees_requireBelow c ty _ (some name) pos, rfl, rfl⟩
    · exact ⟨_, _, .silent fun _ => rfl, rfl, rfl⟩
  | outlast region ty name pos =>
    refine .pointwise fun u => ?_
    show ∃ F G, _ ∧ requireOutlasts c region ty name pos u = _ ∧ requireOutlasts c.thorough region ty name pos u = _
    unfold requireOutlasts
    split
    · exact ⟨_, _, agrees_requireBelow c ty _ name pos, rfl, rfl⟩
    · exact ⟨_, _, .silent fun _ => rfl, rfl, rfl⟩
  | ownRegions ty name pos => exact .pointwise fun _ => ⟨_, _, agrees_reportEscapes c _ name pos, rfl, rfl⟩
  | allConsumed pos => exact .pointwise fun _ => ⟨_, _, agrees_reportAll c _, rfl, rfl⟩
  | forbid ty v h =>
    refine .pointwise fun u => ?_
    show ∃ F G, _ ∧ forbidLinear c ty v u = _ ∧ forbidLinear c.thorough ty v u = _
    unfold forbidLinear
    rw [show isLinear c.thorough ty = isLinear c ty from rfl]
    split
    · exact ⟨_, _, agrees_report c v, rfl, rfl⟩
    · exact ⟨_, _, .silent fun _ => rfl, rfl, rfl⟩
  | refuse v h => exact agrees_report c v

theorem agrees_perform (acts : List Action) : AgreesOn c (perform c acts) (perform c.thorough acts) := by
  induction acts with
  | nil => exact .silent fun _ => rfl
  | cons a acts ih => exact (agrees_act c a).seq ih

theorem agrees_closing (pos : Span) (acts : List Action) :
    AgreesOn c (closing c pos acts) (closing c.thorough pos acts) :=
  .pointwise fun u => ⟨_, _, (agrees_perform c acts).seq (.silent (F := closeStatements u.regions.length pos)
    fun _ => closeStatements_found ..), rfl, rfl⟩

theorem agrees_evalClosed (e : Expr Span) : AgreesOn c (evalClosed c e) (evalClosed c.thorough e) := by
  rw [funext (evalClosed_eq c e), funext (evalClosed_eq c.thorough e)]
  exact agrees_closing c e.pos (actions e)

theorem agrees_unpack (parts : List (Unpacked Span)) : AgreesOn c (unpack c parts) (unpack c.thorough parts) := by
  rw [funext (unpack_eq c parts), funext (unpack_eq c.thorough parts)]
  exact agrees_perform c (unpackActions parts)

/-! ### Scopes, borrow blocks and joins -/

theorem agrees_leaveScope (reach : Reach) (pos : Span) :
    AgreesOn c (leaveScope c reach pos) (leaveScope c.thorough reach pos) := by
  refine ⟨fun {s} hs => ?_, fun s => (grown_leaveScope ..).found, fun {s} hs => ?_, fun {s} hs => ?_⟩
  · show (leaveScope c reach pos s).found = s.found
    unfold leaveScope
    rw [if_neg fun h => Bool.false_ne_true (h.2.symm.trans hs)]
    rfl
  · unfold leaveScope
    rw [hs, c.thorough_thorough.halted]
    split
    · exact (agrees_reportAll c _).heads (popScope s)
    · exact .inl rfl
  · show Single c (leaveScope c reach pos s)
    unfold leaveScope
    split
    · exact (agrees_reportAll c _).single (s := popScope s) hs
    · exact hs

theorem agrees_openBorrow (region : Ident Span) :
    Agrees c (openBorrow c region) (openBorrow c.thorough region) := by
  refine .pointwise fun u => ?_
  unfold openBorrow
  split
  · rename_i regions _
    exact ⟨fun s => (true, {s with regions}), _, .silent fun _ => rfl, rfl, rfl⟩
  · exact ⟨_, _, (agrees_report c _).giving false, rfl, rfl⟩

theorem agrees_takeBorrow (kind : RefKind) (source region : Ident Span) :
    AgreesOn c (takeBorrow c kind source region) (takeBorrow c.thorough kind source region) := by
  refine .pointwise fun u => ?_
  unfold takeBorrow
  split
  · exact ⟨_, _, agrees_borrowBinding c kind source.name _ region.name source.pos false, rfl, rfl⟩
  · exact ⟨_, _, .silent fun _ => rfl, rfl, rfl⟩

theorem agrees_enterBorrow (kind : RefKind) (source name region : Ident Span) :
    Agrees c (enterBorrow c kind source name region) (enterBorrow c.thorough kind source name region) := by
  refine .pointwise fun u => ?_
  have htaken : ∀ opened : Bool,
      AgreesOn c (fun s => if opened then takeBorrow c kind source region s else s)
        fun s => if opened then takeBorrow c.thorough kind source region s else s := fun opened => by
    cases opened
    · exact .silent fun _ => rfl
    · exact agrees_takeBorrow c kind source region
  have hnamed : AgreesOn c
      (fun s => define c name.name (aliasTy kind source region u.scopes) name.pos (pushScope s))
      fun s => define c.thorough name.name (aliasTy kind source region u.scopes) name.pos (pushScope s) :=
    .silent fun _ => rfl
  rw [enterBorrow_eq, enterBorrow_eq]
  exact ⟨_, _, (agrees_openBorrow c region).after fun opened => (htaken opened).seq hnamed, rfl, rfl⟩

theorem agrees_joinBinding (exits : List (Span × Scopes)) (entry : BindingId × Binding) :
    AgreesOn c (fun s => joinBinding c exits s entry) fun s => joinBinding c.thorough exits s entry := by
  have hnote : AgreesOn c (noteDisagreement c exits entry) (noteDisagreement c.thorough exits entry) := by
    refine .pointwise fun u => ?_
    unfold noteDisagreement
    dsimp only
    split
    · exact ⟨_, _, .silent fun _ => rfl, rfl, rfl⟩
    · exact ⟨_, _, agrees_report c _, rfl, rfl⟩
  refine .pointwise fun u => ?_
  rw [joinBinding_eq, joinBinding_eq]
  dsimp only
  split
  · rename_i pos _
    exact ⟨_, _, hnote.seq (.silent (F := fun s => {s with scopes := s.scopes.setState entry.1 (.consumed pos)})
      fun _ => rfl), rfl, rfl⟩
  · rw [(noteDisagreement_same c exits u entry).1, (noteDisagreement_same c.thorough exits u entry).1]
    split
    · exact ⟨_, _, hnote.seq (.silent (F := fun s => {s with scopes := u.scopes.setState entry.1 .unconsumed})
        fun _ => rfl), rfl, rfl⟩
    · exact ⟨_, _, hnote, rfl, rfl⟩

theorem agrees_join (outcomes : List Outcome) : Agrees c (join c outcomes) (join c.thorough outcomes) := by
  refine .pointwise fun u => ?_
  unfold join
  split
  · exact ⟨_, _, .silent fun _ => rfl, rfl, rfl⟩
  · have hfold : ∀ entries : List (BindingId × Binding),
        AgreesOn c (fun s => entries.foldl (joinBinding c (reached outcomes)) s)
          fun s => entries.foldl (joinBinding c.thorough (reached outcomes)) s := fun entries => by
      induction entries with
      | nil => exact .silent fun _ => rfl
      | cons entry entries ih => exact (agrees_joinBinding c _ entry).seq ih
    exact ⟨_, _, (hfold _).giving .continues, rfl, rfl⟩

/-! ### The walk -/

theorem agrees_apart {run run' : State → Reach × State} (h : Agrees c run run') :
    Agrees c (apart run) (apart run') := by
  refine .pointwise fun u => ?_
  have hstart : AgreesOn c (fun s => {s with escaped := []}) fun s => {s with escaped := []} := .silent fun _ => rfl
  have hend : AgreesOn c (fun s => {s with escaped := u.escaped}) fun s => {s with escaped := u.escaped} :=
    .silent fun _ => rfl
  exact ⟨_, _, (hstart.before h).after fun _ => hend, rfl, rfl⟩

/-- A branch, and the scopes of its entry for the next. -/
theorem agrees_outcome (pos : Span) {run run' : State → Reach × State} (h : Agrees c run run') :
    Agrees c (fun s => outcome pos s (run s)) fun s => outcome pos s (run' s) := by
  refine .pointwise fun u => ?_
  have hend : ∀ reach : Reach, Agrees c
      (fun s => ((⟨pos, if reach = .continues then some s.scopes else none⟩ : Outcome), {s with scopes := u.scopes}))
      fun s => (⟨pos, if reach = .continues then some s.scopes else none⟩, {s with scopes := u.scopes}) :=
    fun _ => .silent fun _ => rfl
  exact ⟨_, _, h.bind hend, rfl, rfl⟩

/-- A loop's body, after which the scopes are those of its entry. -/
theorem agrees_restored {run run' : State → Reach × State} (h : Agrees c run run') :
    AgreesOn c (fun s => {(run s).2 with scopes := s.scopes}) fun s => {(run' s).2 with scopes := s.scopes} := by
  refine .pointwise fun u => ?_
  have hend : Reach → AgreesOn c (fun s => {s with scopes := u.scopes}) fun s => {s with scopes := u.scopes} :=
    fun _ => .silent fun _ => rfl
  exact ⟨_, _, h.bind hend, rfl, rfl⟩

/-- A step behind the barrier of a loop. -/
theorem agrees_barred {F G : State → State} (h : AgreesOn c F G) :
    AgreesOn c (fun s => exitLoop s (F (enterLoop s))) fun s => exitLoop s (G (enterLoop s)) := by
  refine .pointwise fun u => ?_
  have hstart : AgreesOn c enterLoop enterLoop := .silent fun _ => rfl
  have hend : AgreesOn c (exitLoop u) (exitLoop u) := .silent fun _ => rfl
  exact ⟨_, _, (hstart.seq h).seq hend, rfl, rfl⟩

mutual

theorem agrees_visit : ∀ stmt : Stmt Span, Agrees c (visit c stmt) (visit c.thorough stmt)
  | .bind pos name ty value => by
    refine AgreesOn.giving ?_ Reach.continues
    rw [funext fun s => bind_eq c pos s name ty value, funext fun s => bind_eq c.thorough pos s name ty value]
    exact (agrees_closing c _ _).seq (agrees_perform c _)
  | .unpack _ parts value => ((agrees_evalClosed c value).seq (agrees_unpack c parts)).giving Reach.continues
  | .assign pos target value => by
    refine AgreesOn.giving ?_ Reach.continues
    rw [funext fun s => assign_eq c pos s target value, funext fun s => assign_eq c.thorough pos s target value]
    exact agrees_closing c _ _
  | .choose pos branches none => by
    have hjoin : ∀ outcomes, Agrees c (fun s => join c (outcomes ++ [⟨pos, some s.scopes⟩]) s)
        fun s => join c.thorough (outcomes ++ [⟨pos, some s.scopes⟩]) s :=
      fun outcomes => .pointwise fun u => ⟨_, _, agrees_join c _, rfl, rfl⟩
    exact ((agrees_checkBranches branches).bind hjoin :)
  | .choose _ branches (some block) => by
    have hlast := fun outcomes => (agrees_outcome c block.pos (agrees_checkBlock block)).bind
      fun last => agrees_join c (outcomes ++ [last])
    exact ((agrees_checkBranches branches).bind hlast :)
  | .select _ scrutinee arms =>
    (agrees_evalClosed c scrutinee).before ((agrees_checkArms arms).bind fun outcomes => agrees_join c outcomes)
  | .loop _ cond body => by
    have hround := (agrees_evalClosed c cond).seq (agrees_restored c (agrees_checkBlock body))
    exact (agrees_barred c hround).giving Reach.continues
  | .count _ var first last body => by
    have hvar : AgreesOn c (fun s => define c var.name .int var.pos (pushScope s))
        fun s => define c.thorough var.name .int var.pos (pushScope s) := .silent fun _ => rfl
    have hpop : AgreesOn c popScope popScope := .silent fun _ => rfl
    have hround := (hvar.seq (agrees_restored c (agrees_checkBlock body))).seq hpop
    exact (agrees_barred c ((agrees_evalClosed c first).seq ((agrees_evalClosed c last).seq hround))).giving
      Reach.continues
  | .borrow pos kind source name region body => by
    have hbody := fun opened => (agrees_checkBlock body).after fun reach =>
      (agrees_leaveScope c reach pos).seq (.silent (F := leaveBorrow opened pos) fun _ => leaveBorrow_found ..)
    exact ((agrees_enterBorrow c kind source name region).bind hbody :)
  | .ret pos value => by
    refine AgreesOn.giving ?_ Reach.diverges
    rw [funext fun s => ret_eq c pos s value, funext fun s => ret_eq c.thorough pos s value]
    exact (agrees_closing c _ _).seq (agrees_perform c _)
  | .discard pos value => by
    refine AgreesOn.giving ?_ Reach.continues
    rw [funext fun s => discard_eq c pos s value, funext fun s => discard_eq c.thorough pos s value]
    exact agrees_closing c _ _
  | .block body => agrees_checkBlock body

theorem agrees_checkBlock : ∀ block : Block Span, Agrees c (checkBlock c block) (checkBlock c.thorough block)
  | ⟨pos, stmts⟩ => by
    have hpush : AgreesOn c pushScope pushScope := .silent fun _ => rfl
    exact (hpush.before (agrees_checkStmts stmts)).after fun reach => agrees_leaveScope c reach pos

theorem agrees_checkStmts : ∀ stmts : List (Stmt Span), Agrees c (checkStmts c stmts) (checkStmts c.thorough stmts)
  | [] => .silent fun _ => rfl
  | stmt :: rest => by
    have hrest : ∀ reach : Reach, Agrees c
        (fun s => match reach with | .continues => checkStmts c rest s | .diverges => (.diverges, s))
        fun s => match reach with | .continues => checkStmts c.thorough rest s | .diverges => (.diverges, s) := by
      intro reach
      cases reach with
      | continues => exact agrees_checkStmts rest
      | diverges => exact .silent fun _ => rfl
    have hall := (agrees_apart c (agrees_visit stmt)).bind hrest
    refine ⟨fun {s} hs => ?_, fun s => (grown_checkStmts ..).found, fun {s} hs => ?_, fun {s} hs => ?_⟩
    · rw [checkStmts, if_pos hs]
    · rw [checkStmts, checkStmts, hs, c.thorough_thorough.halted]
      exact hall.same hs
    · rw [checkStmts]
      split
      · exact hs
      · exact hall.single hs

theorem agrees_checkBranches : ∀ branches : List (Branch Span),
    Agrees c (checkBranches c branches) (checkBranches c.thorough branches)
  | [] => .silent fun _ => rfl
  | ⟨pos, cond, body⟩ :: rest => by
    have hcons : ∀ o : Outcome, Agrees c
        (fun s => (o :: (checkBranches c rest s).1, (checkBranches c rest s).2))
        fun s => (o :: (checkBranches c.thorough rest s).1, (checkBranches c.thorough rest s).2) := fun o =>
      ((agrees_checkBranches rest).bind fun os => .silent (F := fun s => (o :: os, s)) fun _ => rfl :)
    exact (agrees_evalClosed c cond).before ((agrees_outcome c pos (agrees_checkBlock body)).bind hcons)

theorem agrees_checkArms : ∀ arms : List (Arm Span), Agrees c (checkArms c arms) (checkArms c.thorough arms)
  | [] => .silent fun _ => rfl
  | ⟨pos, _, parts, body⟩ :: rest => by
    have hpush : AgreesOn c pushScope pushScope := .silent fun _ => rfl
    have harm := ((hpush.seq (agrees_unpack c parts)).before (agrees_checkBlock body)).after
      fun reach => agrees_leaveScope c reach pos
    have hcons : ∀ o : Outcome, Agrees c
        (fun s => (o :: (checkArms c rest s).1, (checkArms c rest s).2))
        fun s => (o :: (checkArms c.thorough rest s).1, (checkArms c.thorough rest s).2) := fun o =>
      ((agrees_checkArms rest).bind fun os => .silent (F := fun s => (o :: os, s)) fun _ => rfl :)
    exact (agrees_outcome c pos harm).bind hcons

end

/-! ### Functions -/

theorem agrees_enterFunctionRegion (region : Ident Span) :
    AgreesOn c (fun s => enterFunctionRegion c s region) fun s => enterFunctionRegion c.thorough s region := by
  refine .pointwise fun u => ?_
  unfold enterFunctionRegion
  split
  · rename_i regions _
    exact ⟨fun s => {s with regions}, _, .silent fun _ => rfl, rfl, rfl⟩
  · exact ⟨_, _, agrees_report c _, rfl, rfl⟩

/-- What is done before the body of a function is entered. -/
theorem agrees_entry (regions : List (Ident Span)) (params : List (Slot Span)) :
    AgreesOn c (fun s => params.foldl (defineParam c) (regions.foldl (enterFunctionRegion c) s))
      fun s => params.foldl (defineParam c.thorough) (regions.foldl (enterFunctionRegion c.thorough) s) := by
  induction regions with
  | nil =>
    induction params with
    | nil => exact .silent fun _ => rfl
    | cons p params ih =>
      have hparam : AgreesOn c (fun s => defineParam c s p) fun s => defineParam c.thorough s p := .silent fun _ => rfl
      exact hparam.seq ih
  | cons region regions ih => exact (agrees_enterFunctionRegion c region).seq ih

/-- The check of a function, as a step from the empty state. -/
theorem agrees_function (f : FunDef Span) :
    ∃ F G, AgreesOn c F G ∧ runFunction c f = F {} ∧ runFunction c.thorough f = G {} := by
  have hbody : AgreesOn c _ _ := (agrees_checkBlock c f.body).bind fun reach => agrees_leaveScope c reach f.pos
  exact ⟨_, _, (agrees_entry c f.regions f.params).seq hbody, rfl, rfl⟩

/-- The run of a check over a function is that of a thorough one, or it has stopped before. -/
theorem heads_runFunction (f : FunDef Span) : Heads c ((), runFunction c f) ((), runFunction c.thorough f) := by
  obtain ⟨F, G, hagrees, hF, hG⟩ := agrees_function c f
  rw [hF, hG]
  exact hagrees.heads {}

/-- A check that stops finds one violation at most. -/
theorem single_runFunction (f : FunDef Span) : Single c (runFunction c f) := by
  obtain ⟨F, G, hagrees, hF, _⟩ := agrees_function c f
  rw [hF]
  exact hagrees.single (s := {}) fun _ => Nat.zero_le 1

theorem found_runFunction (f : FunDef Span) : (runFunction c f).found <+: (runFunction c.thorough f).found := by
  rcases heads_runFunction c f with heq | ⟨_, hfound⟩
  · exact (Prod.mk.inj heq).2 ▸ List.prefix_rfl
  · exact hfound

/-! ### Paths -/

theorem agrees_onward {F G : State → State} (r : Reach) (h : AgreesOn c F G) : AgreesOn c (onward r F) (onward r G) := by
  cases r with
  | continues => exact h
  | diverges => exact .silent fun _ => rfl

theorem agrees_law (barred : Bool) : PathLaw c c.thorough barred barred fun _ F G => AgreesOn c F G where
  skip := .silent fun _ => rfl
  seq h h' := h.seq h'
  perform _ := agrees_perform c _
  closing pos _ _ := agrees_closing c pos _
  ret _ _ _ := agrees_perform c _
  inScope {r} _ _ pos h := by
    have hpush : AgreesOn c pushScope pushScope := .silent fun _ => rfl
    exact (hpush.seq h).seq (agrees_onward c r (agrees_leaveScope c .continues pos))
  lent {r} _ _ pos kind source name region h := by
    have hleave (opened : Bool) := agrees_onward c r ((agrees_leaveScope c .continues pos).seq
      (.silent (F := leaveBorrow opened pos) fun _ => leaveBorrow_found ..))
    exact ((agrees_enterBorrow c kind source name region).bind fun opened => h.seq (hleave opened) :)
  fenced {r} _ _ h := by
    cases barred with
    | false => exact h
    | true =>
      cases r with
      | continues => exact agrees_barred c h
      | diverges =>
        have hstart : AgreesOn c enterLoop enterLoop := .silent fun _ => rfl
        exact hstart.seq h
  secluded h := (agrees_apart c (h.giving Reach.continues)).states

/-- A path on which a thorough run finds something is one on which every run does. -/
theorem found_of_thorough {f : FunDef Span} {barred : Bool} {r : Reach} {path : Path (.block f.body) r}
    (h : (path.runFunction c.thorough barred f).found ≠ []) : (path.runFunction c barred f).found ≠ [] := by
  have hbody := ((agrees_law c barred).run path).seq (agrees_onward c r (agrees_leaveScope c .continues f.pos))
  have hall := (agrees_entry c f.regions f.params).seq hbody
  rcases hall.heads {} with heq | ⟨hhalted, _⟩
  · rw [show path.runFunction c barred f = path.runFunction c.thorough barred f from (Prod.mk.inj heq).2]
    exact h
  · intro hnil
    exact Bool.false_ne_true ((halted_of_clean hnil).symm.trans hhalted)

end Linearity.Check
