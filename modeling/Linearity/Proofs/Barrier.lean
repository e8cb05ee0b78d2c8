import Linearity.Proofs.Faithful

/-! Barriers only add reports.

`unbarred s` is `s` without the barrier of the loop at hand. Where a run with barriers
finds nothing, no move was stopped by one, and the run without them goes through the
same states, the barrier apart (`run_unbarred`). -/
namespace Linearity.Check
variable (c : Context)

def unbarred (s : State) : State := {s with scopes := {s.scopes with barrier := none}}

/-- Outside of loops there is no barrier to take away. -/
theorem unbarred_eq {s : State} (h : s.scopes.barrier = none) : unbarred s = s := by
  obtain ⟨⟨frames, barrier⟩, regions, events, found, escaped⟩ := s
  cases h
  rfl

/-- A report does not look at the barrier. -/
theorem report_unbarred (v : Violation) (s : State) : report c v (unbarred s) = unbarred (report c v s) := by
  unfold report
  cases hhalted : halted c s
  · rw [if_neg (by rw [show halted c (unbarred s) = false from hhalted]; decide), if_neg (by decide)]
    rfl
  · rw [if_pos (show halted c (unbarred s) = true from hhalted), if_pos rfl]

theorem reportAll_unbarred (vs : List Violation) (s : State) :
    reportAll c vs (unbarred s) = unbarred (reportAll c vs s) := by
  induction vs generalizing s with
  | nil => rfl
  | cons v vs ih => rw [reportAll_cons, reportAll_cons, report_unbarred, ih]

theorem reportEscapes_unbarred (regions : List String) (name : Option String) (pos : Span) (s : State) :
    reportEscapes c regions name pos (unbarred s) = unbarred (reportEscapes c regions name pos s) := by
  unfold reportEscapes
  induction regions generalizing s with
  | nil => rfl
  | cons r regions ih =>
    have hone : reportEscape c name pos (unbarred s) r = unbarred (reportEscape c name pos s r) := by
      unfold reportEscape
      by_cases h : r ∈ s.escaped
      · rw [if_pos h, if_pos (show r ∈ (unbarred s).escaped from h)]
      · rw [if_neg h, if_neg (show r ∉ (unbarred s).escaped from h), ← report_unbarred]
        rfl
    rw [List.foldl_cons, List.foldl_cons, hone, ih]

/-- `F` with barriers and `G` without them come to the same where `F` finds nothing. -/
structure Unbars (F G : State → State) : Prop where
  grown : ∀ s, Grown s (F s)
  same : ∀ {s}, (F s).found = [] → G (unbarred s) = unbarred (F s)

namespace Unbars
variable {F G F' G' : State → State}

/-- A step that does nothing has no use for barriers. -/
theorem skip : Unbars (fun s => s) fun s => s := ⟨fun s => .refl s, fun _ => rfl⟩

/-- One step after the other: if nothing is found after both, nothing is found after the first. -/
theorem seq (h : Unbars F G) (h' : Unbars F' G') : Unbars (fun s => F' (F s)) fun s => G' (G s) := by
  refine ⟨fun s => (h.grown s).trans (h'.grown _), fun {s} hclean => ?_⟩
  rw [h.same ((h'.grown _).eq_nil hclean), h'.same hclean]

end Unbars

/-! ### Moves -/

/-- A name that the barrier lets through is found without it too. -/
theorem tracked_unbarred {s : Scopes} {name : String} {pos : Span} {e : Option (BindingId × Binding)}
    (h : s.tracked name pos = .ok e) : Scopes.tracked {s with barrier := none} name pos = .ok e := by
  have hlookup : Scopes.lookup {s with barrier := none} name = s.lookup name := rfl
  unfold Scopes.tracked at h ⊢
  rw [hlookup]
  cases hl : s.lookup name with
  | none =>
    rw [hl] at h
    exact h
  | some found =>
    rw [hl] at h
    dsimp only at h ⊢
    split at h
    · rw [if_pos (by assumption)]
      exact h
    · split at h
      · cases h
      · rw [if_neg (by assumption), if_neg (show ¬ Scopes.outsideLoop {s with barrier := none} found.1 = true from
          fun h => nomatch h)]
        exact h

/-- A move that is not stopped goes the same way without the barrier. -/
theorem attempt_unbarred {s : Scopes} {name : String} {pos : Span}
    {move : Binding → Except Violation BindingState} {moved : Option BindingId} {scopes : Scopes}
    (h : s.attempt name pos move = (.ok moved, scopes)) :
    Scopes.attempt {s with barrier := none} name pos move = (.ok moved, {scopes with barrier := none}) := by
  unfold Scopes.attempt at h ⊢
  cases htracked : s.tracked name pos with
  | error v =>
    rw [htracked] at h
    cases h
  | ok e =>
    rw [htracked] at h
    rw [tracked_unbarred htracked]
    cases e with
    | none =>
      cases h
      rfl
    | some e =>
      dsimp only at h ⊢
      cases hmove : move e.2 with
      | error v =>
        rw [hmove] at h
        cases h
      | ok state =>
        rw [hmove] at h
        cases h
        rfl

/-- A move that reports nothing was not stopped by the barrier, so it goes the same way without it. -/
theorem unbars_settle (name : String) (pos : Span) (move : Binding → Except Violation BindingState)
    (event : Event) : Unbars (fun s => settle c (s.scopes.attempt name pos move) event s)
      fun s => settle c (s.scopes.attempt name pos move) event s := by
  refine ⟨fun s => grown_settle .., fun {s} hclean => ?_⟩
  cases houtcome : s.scopes.attempt name pos move with
  | mk outcome scopes =>
    rw [houtcome] at hclean
    cases outcome with
    | error v => exact absurd hclean (report_found c v s)
    | ok moved =>
      have hsame : (unbarred s).scopes.attempt name pos move = (.ok moved, {scopes with barrier := none}) :=
        attempt_unbarred houtcome
      rw [hsame]
      cases moved <;> rfl

/-- A borrow that reports nothing goes the same way without the barrier: freezing is its only move. -/
theorem unbars_borrowBinding (kind : RefKind) (name : String) (id : BindingId) (region : String) (pos : Span)
    (shareable : Bool) : Unbars (borrowBinding c kind name id region pos shareable)
      (borrowBinding c kind name id region pos shareable) := by
  refine ⟨grown_borrowBinding c kind name id region pos shareable, fun {s} hclean => ?_⟩
  have hrefs : (unbarred s).regions.referenceTo id = s.regions.referenceTo id := rfl
  have hget : (unbarred s).scopes.get? id = s.scopes.get? id := rfl
  unfold borrowBinding at hclean ⊢
  rw [hrefs, hget]
  cases href : s.regions.referenceTo id with
  | some e =>
    rw [href] at hclean
    dsimp only at hclean ⊢
    split at hclean
    · rename_i hshare
      rw [if_pos hshare, if_pos hshare]
      rfl
    · exact absurd hclean (report_found c _ s)
  | none =>
    rw [href] at hclean
    dsimp only at hclean ⊢
    cases hfreeze : s.scopes.freeze name kind pos with
    | mk outcome scopes =>
      rw [hfreeze] at hclean
      cases outcome with
      | error v => exact absurd hclean (report_found c v s)
      | ok frozen =>
        have hsame : (unbarred s).scopes.freeze name kind pos = (.ok frozen, {scopes with barrier := none}) :=
          attempt_unbarred hfreeze
        rw [hsame]
        rfl

theorem unbars_borrowExpr (kind : RefKind) (target : String) (ty : Ty) (pos : Span) :
    Unbars (borrowExpr c kind target ty pos) (borrowExpr c kind target ty pos) := by
  refine ⟨grown_borrowExpr c kind target ty pos, fun {s} hclean => ?_⟩
  cases ty with
  | ref k region referent =>
    have henter : enterStatement region pos (unbarred s) = (enterStatement region pos s).map unbarred := by
      unfold enterStatement
      rw [show (unbarred s).regions = s.regions from rfl]
      split
      · rfl
      · cases s.regions.enter region .statement pos <;> rfl
    unfold borrowExpr at hclean ⊢
    dsimp only at hclean ⊢
    rw [henter]
    cases hs : enterStatement region pos s with
    | error v =>
      rw [hs] at hclean
      exact absurd hclean (report_found c v s)
    | ok u =>
      rw [hs] at hclean
      have hlookup : (unbarred u).scopes.lookup target = u.scopes.lookup target := rfl
      dsimp only [Except.map] at hclean ⊢
      rw [hlookup]
      cases hl : u.scopes.lookup target with
      | none => rfl
      | some e =>
        rw [hl] at hclean
        exact (unbars_borrowBinding c kind target e.1 region pos true).same hclean
  | _ => rfl

/-! ### Steps -/

/-- An action that finds nothing does the same without barriers. Only its move can meet one. -/
theorem unbars_act (a : Action) : Unbars (act c a) (act c a) := by
  have hstill : ∀ {F : State → State}, (∀ s, Grown s (F s)) → (∀ s, F (unbarred s) = unbarred (F s)) → Unbars F F :=
    fun hgrown hsame => ⟨hgrown, fun _ => hsame _⟩
  cases a with
  | consume name pos => exact unbars_settle c name pos _ _
  | read name reads pos => exact unbars_settle c name pos _ _
  | overwrite name pos => exact unbars_settle c name pos _ _
  | borrow kind target ty pos => exact unbars_borrowExpr c kind target ty pos
  | define name ty pos =>
    refine hstill (grown_act c _) fun s => ?_
    show define c name ty pos (unbarred s) = unbarred (define c name ty pos s)
    obtain ⟨⟨frames, barrier⟩, regions, events, found, escaped⟩ := s
    cases frames <;> rfl
  | live ty name pos => exact hstill (grown_act c _) fun s => reportEscapes_unbarred ..
  | outlive name ty pos =>
    refine hstill (grown_act c _) fun s => ?_
    show requireOutlives c name ty pos (unbarred s) = unbarred (requireOutlives c name ty pos s)
    have hlookup : (unbarred s).scopes.lookup name = s.scopes.lookup name := rfl
    unfold requireOutlives
    rw [hlookup]
    cases s.scopes.lookup name with
    | none => rfl
    | some e => exact reportEscapes_unbarred ..
  | outlast region ty name pos =>
    refine hstill (grown_act c _) fun s => ?_
    show requireOutlasts c region ty name pos (unbarred s) = unbarred (requireOutlasts c region ty name pos s)
    have hposition : (unbarred s).regions.position? region = s.regions.position? region := rfl
    unfold requireOutlasts
    rw [hposition]
    cases s.regions.position? region with
    | none => rfl
    | some limit => exact reportEscapes_unbarred ..
  | ownRegions ty name pos => exact hstill (grown_act c _) fun s => reportEscapes_unbarred ..
  | allConsumed pos => exact hstill (grown_act c _) fun s => reportAll_unbarred ..
  | forbid ty v h =>
    refine hstill (grown_act c _) fun s => ?_
    show forbidLinear c ty v (unbarred s) = unbarred (forbidLinear c ty v s)
    unfold forbidLinear
    cases isLinear c ty
    · rfl
    · exact report_unbarred c v s
  | refuse v h => exact hstill (grown_act c _) fun s => report_unbarred c v s

/-- Actions that find nothing do the same without barriers. -/
theorem unbars_perform (acts : List Action) : Unbars (perform c acts) (perform c acts) := by
  induction acts with
  | nil => exact .skip
  | cons a acts ih => exact ((unbars_act c a).seq ih :)

theorem thawAll_unbarred (ids : List BindingId) (scopes : Scopes) :
    Scopes.thawAll {scopes with barrier := none} ids = {scopes.thawAll ids with barrier := none} := by
  induction ids generalizing scopes with
  | nil => rfl
  | cons id ids ih => exact ih (scopes.thaw id)

theorem release_unbarred (pos : Span) (s : State) (r : Region) :
    release pos (unbarred s) r = unbarred (release pos s r) := by
  rw [release_eq, release_eq, show (unbarred s).scopes = {s.scopes with barrier := none} from rfl, thawAll_unbarred]
  rfl

/-- Regions close without a look at the barrier. -/
theorem closeStatements_unbarred (base : Nat) (pos : Span) (s : State) :
    closeStatements base pos (unbarred s) = unbarred (closeStatements base pos s) := by
  have hfold : ∀ (rs : List Region) (u : State),
      rs.foldl (release pos) (unbarred u) = unbarred (rs.foldl (release pos) u) := by
    intro rs
    induction rs with
    | nil => exact fun u => rfl
    | cons r rs ih =>
      intro u
      rw [List.foldl_cons, List.foldl_cons, release_unbarred, ih]
  exact hfold _ {s with regions := (s.regions.closeStatements base).2}

theorem unbars_closing (pos : Span) (acts : List Action) : Unbars (closing c pos acts) (closing c pos acts) := by
  refine ⟨grown_closing c pos acts, fun {s} hclean => ?_⟩
  unfold closing at hclean ⊢
  rw [closeStatements_found] at hclean
  rw [(unbars_perform c acts).same hclean]
  exact closeStatements_unbarred ..

/-- A scope is left without a look at the barrier. -/
theorem leaveScope_unbarred (pos : Span) (s : State) :
    leaveScope c .continues pos (unbarred s) = unbarred (leaveScope c .continues pos s) := by
  have hpop : popScope (unbarred s) = unbarred (popScope s) ∧ (unbarred s).scopes.pop.1 = s.scopes.pop.1 := by
    unfold popScope Scopes.pop
    rw [show (unbarred s).scopes.frames = s.scopes.frames from rfl]
    cases s.scopes.frames <;> exact ⟨rfl, rfl⟩
  unfold leaveScope
  rw [hpop.1, hpop.2, show halted c (unbarred s) = halted c s from rfl]
  split
  · exact reportAll_unbarred ..
  · rfl

theorem leaveBorrow_unbarred (opened : Bool) (pos : Span) (s : State) :
    leaveBorrow opened pos (unbarred s) = unbarred (leaveBorrow opened pos s) := by
  unfold leaveBorrow
  cases opened with
  | false => rfl
  | true =>
    cases hregions : s.regions with
    | nil =>
      show closeRegion pos (unbarred s) = unbarred (closeRegion pos s)
      unfold closeRegion
      rw [show (unbarred s).regions = s.regions from rfl, hregions]
    | cons r outer =>
      show closeRegion pos (unbarred s) = unbarred (closeRegion pos s)
      rw [closeRegion_eq hregions, closeRegion_eq (s := unbarred s) hregions]
      exact release_unbarred pos {s with regions := outer} r

section BorrowBlocks
variable (kind : RefKind) (source name region : Ident Span)

theorem openBorrow_unbarred (s : State) : openBorrow c region (unbarred s) =
    ((openBorrow c region s).1, unbarred (openBorrow c region s).2) := by
  unfold openBorrow
  rw [show (unbarred s).regions = s.regions from rfl]
  cases s.regions.enter region.name .explicit region.pos with
  | ok regions => rfl
  | error v => exact congrArg (Prod.mk false) (report_unbarred c v s)

/-- What a borrow block lends is the same without barriers, if nothing is found. -/
theorem unbars_lend : Unbars (lend c kind source region) (lend c kind source region) := by
  refine ⟨(faithful_lend c kind source region).grown, fun {s} hclean => ?_⟩
  unfold lend at hclean ⊢
  rw [openBorrow_unbarred]
  dsimp only at hclean ⊢
  split
  · rename_i hopened
    rw [if_pos hopened] at hclean
    unfold takeBorrow at hclean ⊢
    rw [show (unbarred (openBorrow c region s).2).scopes.lookup source.name =
      (openBorrow c region s).2.scopes.lookup source.name from rfl]
    cases hl : (openBorrow c region s).2.scopes.lookup source.name with
    | none => rfl
    | some e =>
      rw [hl] at hclean
      exact (unbars_borrowBinding c kind source.name e.1 region.name source.pos false).same hclean
  · rfl

theorem unbars_enterBorrow : Unbars (fun s => (enterBorrow c kind source name region s).2)
    fun s => (enterBorrow c kind source name region s).2 := by
  refine ⟨(faithful_enterBorrow c kind source name region).grown, fun {s} hclean => ?_⟩
  rw [enterBorrow_state] at hclean ⊢
  rw [enterBorrow_state, (unbars_lend c kind source region).same hclean]
  exact (unbars_act c (.define name.name (aliasTy kind source region s.scopes) name.pos)).same hclean

end BorrowBlocks

/-! ### Runs -/

namespace Unbars
variable {c} {F G : State → State}

theorem onward {F' G' : State → State} (h : Unbars F G) (h' : Unbars F' G') : ∀ r : Reach,
    Unbars (fun s => onward r F' (F s)) fun s => onward r G' (G s)
  | .continues => h.seq h'
  | .diverges => h

theorem inScope (h : Unbars F G) (r : Reach) (pos : Span) : Unbars (inScope c r pos F) (inScope c r pos G) := by
  have hpush : Unbars pushScope pushScope := ⟨faithful_pushScope.grown, fun _ => rfl⟩
  have hleave : Unbars (leaveScope c .continues pos) (leaveScope c .continues pos) :=
    ⟨grown_leaveScope c .continues pos, fun _ => leaveScope_unbarred c pos _⟩
  exact ((hpush.seq h).onward hleave r :)

/-- The body of a borrow block, with its region and scope around it. -/
theorem lent (h : Unbars F G) (r : Reach) (pos : Span) (kind : RefKind) (source name region : Ident Span) :
    Unbars (lent c r pos kind source name region F) (lent c r pos kind source name region G) := by
  have hbody := (unbars_enterBorrow c kind source name region).seq h
  cases r with
  | diverges => exact hbody
  | continues =>
    refine ⟨fun s => ((hbody.grown s).trans (grown_leaveScope ..)).trans (grown_leaveBorrow ..), fun {s} hclean => ?_⟩
    have hleft : (leaveScope c .continues pos (F (enterBorrow c kind source name region s).2)).found = [] :=
      (grown_leaveBorrow (enterBorrow c kind source name region s).1 pos _).eq_nil hclean
    have hsame := hbody.same ((grown_leaveScope c .continues pos _).eq_nil hleft)
    show leaveBorrow (enterBorrow c kind source name region (unbarred s)).1 pos (leaveScope c .continues pos
      (G (enterBorrow c kind source name region (unbarred s)).2)) = _
    rw [hsame, enterBorrow_flag, openBorrow_unbarred, leaveScope_unbarred, leaveBorrow_unbarred,
      ← enterBorrow_flag c kind source name region]
    rfl

/-- The body of a loop: one side raises the barrier, the other does not. -/
theorem fenced (h : Unbars F G) : ∀ r : Reach, Unbars (fenced true r F) (fenced false r G)
  | .diverges => ⟨fun s => .trans (t := enterLoop s) (.of_same rfl rfl) (h.grown _), fun {s} hclean =>
      h.same (s := enterLoop s) hclean⟩
  | .continues => ⟨fun s => .trans (t := enterLoop s) (.of_same rfl rfl) ((h.grown _).trans (.of_same rfl rfl)),
      fun {s} hclean => h.same (s := enterLoop s) hclean⟩

theorem secluded (h : Unbars F G) : Unbars (secluded F) (secluded G) := by
  refine ⟨fun s => .of_escaped (h.grown {s with escaped := []}).found rfl, fun {s} hclean => ?_⟩
  have hsame := h.same (s := {s with escaped := []}) hclean
  exact congrArg (fun u => {u with escaped := s.escaped}) hsame

end Unbars

/-- Barriers add nothing but reports, at every step of a path. -/
theorem unbars_law : PathLaw c c true false fun _ F G => Unbars F G where
  skip := .skip
  seq h h' := h.seq h'
  perform _ := unbars_perform c _
  closing pos _ _ := unbars_closing c pos _
  ret _ _ _ := unbars_perform c _
  inScope pos h := h.inScope _ pos
  lent pos kind source name region h := h.lent _ pos kind source name region
  fenced h := h.fenced _
  secluded h := h.secluded

/-- Where a path finds nothing, it goes the same way without barriers. -/
theorem run_unbarred {code : Code} {r : Reach} (path : Path code r) {s : State}
    (h : (path.run c true s).found = []) : path.run c false (unbarred s) = unbarred (path.run c true s) :=
  ((unbars_law c).run path).same h

end Linearity.Check
