import Linearity.Check.Program
import Linearity.Proofs.Regions
import Linearity.Proofs.Scopes

/-! The steps of a check, one by one.

A report touches nothing but the list of violations, which only ever gets longer.
The other steps change the scopes or the regions in one of a few ways, listed here
by one predicate for each step: `Scopes.Attempted` for a move, `Borrowed` for a
borrow. -/
namespace Linearity.Check
variable (c : Context)

/-! ### Reports -/

@[simp] theorem report_scopes (v : Violation) (s : State) : (report c v s).scopes = s.scopes := by
  unfold report
  split <;> rfl

@[simp] theorem report_regions (v : Violation) (s : State) : (report c v s).regions = s.regions := by
  unfold report
  split <;> rfl

@[simp] theorem report_events (v : Violation) (s : State) : (report c v s).events = s.events := by
  unfold report
  split <;> rfl

@[simp] theorem report_escaped (v : Violation) (s : State) : (report c v s).escaped = s.escaped := by
  unfold report
  split <;> rfl

/-- A check that has found nothing is still going. -/
theorem halted_of_clean {c : Context} {s : State} (h : s.found = []) : halted c s = false := by
  unfold halted
  rw [h]
  exact Bool.and_false _

/-- A report keeps what was found before it. -/
theorem report_grows (v : Violation) (s : State) : s.found <+: (report c v s).found := by
  unfold report
  split
  · exact List.prefix_rfl
  · exact List.prefix_append ..

/-- After a report something is found, even if there is nothing more to report. -/
theorem report_found (v : Violation) (s : State) : (report c v s).found ≠ [] := by
  unfold report
  split
  · rename_i hhalted
    intro hnil
    rw [halted_of_clean hnil] at hhalted
    cases hhalted
  · simp

/-- A report adds its own violation and no other. -/
theorem mem_report {v w : Violation} {s : State} (h : w ∈ (report c v s).found) :
    w ∈ s.found ∨ w = v := by
  unfold report at h
  split at h
  · exact .inl h
  · simpa using h

/-- A list of reports is one report after the other. -/
theorem reportAll_cons (v : Violation) (vs : List Violation) (s : State) :
    reportAll c (v :: vs) s = reportAll c vs (report c v s) := rfl

@[simp] theorem reportAll_scopes (vs : List Violation) (s : State) :
    (reportAll c vs s).scopes = s.scopes := by
  induction vs generalizing s with
  | nil => rfl
  | cons v vs ih => rw [reportAll_cons, ih, report_scopes]

@[simp] theorem reportAll_regions (vs : List Violation) (s : State) :
    (reportAll c vs s).regions = s.regions := by
  induction vs generalizing s with
  | nil => rfl
  | cons v vs ih => rw [reportAll_cons, ih, report_regions]

@[simp] theorem reportAll_events (vs : List Violation) (s : State) :
    (reportAll c vs s).events = s.events := by
  induction vs generalizing s with
  | nil => rfl
  | cons v vs ih => rw [reportAll_cons, ih, report_events]

@[simp] theorem reportAll_escaped (vs : List Violation) (s : State) :
    (reportAll c vs s).escaped = s.escaped := by
  induction vs generalizing s with
  | nil => rfl
  | cons v vs ih => rw [reportAll_cons, ih, report_escaped]

/-- Reports keep what was found before them. -/
theorem reportAll_grows (vs : List Violation) (s : State) : s.found <+: (reportAll c vs s).found := by
  induction vs generalizing s with
  | nil => exact List.prefix_rfl
  | cons v vs ih => exact (report_grows c v s).trans (ih _)

theorem ne_nil_of_prefix {α : Type} {l l' : List α} (h : l <+: l') (hl : l ≠ []) : l' ≠ [] := by
  rintro rfl
  exact hl (List.prefix_nil.mp h)

/-- Something is found after a list of reports that is not empty. -/
theorem reportAll_found {vs : List Violation} (hvs : vs ≠ []) (s : State) :
    (reportAll c vs s).found ≠ [] := by
  cases vs with
  | nil => exact absurd rfl hvs
  | cons v vs => exact ne_nil_of_prefix (reportAll_grows c vs _) (report_found c v s)

/-- What is found after a list of reports was found before it or is in the list. -/
theorem mem_reportAll {vs : List Violation} {w : Violation} {s : State}
    (h : w ∈ (reportAll c vs s).found) : w ∈ s.found ∨ w ∈ vs := by
  induction vs generalizing s with
  | nil => exact .inl h
  | cons v vs ih =>
    rcases ih h with h | h
    · rcases mem_report c h with h | rfl
      · exact .inl h
      · exact .inr (List.mem_cons_self ..)
    · exact .inr (List.mem_cons_of_mem _ h)

/-! ### Reports of regions -/

@[simp] theorem reportEscape_scopes (name : Option String) (pos : Span) (s : State) (r : String) :
    (reportEscape c name pos s r).scopes = s.scopes := by
  unfold reportEscape
  split
  · rfl
  · exact report_scopes ..

@[simp] theorem reportEscape_regions (name : Option String) (pos : Span) (s : State) (r : String) :
    (reportEscape c name pos s r).regions = s.regions := by
  unfold reportEscape
  split
  · rfl
  · exact report_regions ..

@[simp] theorem reportEscape_events (name : Option String) (pos : Span) (s : State) (r : String) :
    (reportEscape c name pos s r).events = s.events := by
  unfold reportEscape
  split
  · rfl
  · exact report_events ..

theorem reportEscape_grows (name : Option String) (pos : Span) (s : State) (r : String) :
    s.found <+: (reportEscape c name pos s r).found := by
  unfold reportEscape
  split
  · exact List.prefix_rfl
  · exact report_grows c _ {s with escaped := r :: s.escaped}

section Escapes
variable (rs : List String) (name : Option String) (pos : Span) (s : State)

@[simp] theorem reportEscapes_scopes : (reportEscapes c rs name pos s).scopes = s.scopes := by
  unfold reportEscapes
  induction rs generalizing s with
  | nil => rfl
  | cons r rs ih => rw [List.foldl_cons, ih, reportEscape_scopes]

@[simp] theorem reportEscapes_regions : (reportEscapes c rs name pos s).regions = s.regions := by
  unfold reportEscapes
  induction rs generalizing s with
  | nil => rfl
  | cons r rs ih => rw [List.foldl_cons, ih, reportEscape_regions]

@[simp] theorem reportEscapes_events : (reportEscapes c rs name pos s).events = s.events := by
  unfold reportEscapes
  induction rs generalizing s with
  | nil => rfl
  | cons r rs ih => rw [List.foldl_cons, ih, reportEscape_events]

/-- Reporting regions keeps what was found before. -/
theorem reportEscapes_grows : s.found <+: (reportEscapes c rs name pos s).found := by
  unfold reportEscapes
  induction rs generalizing s with
  | nil => exact List.prefix_rfl
  | cons r rs ih => exact (reportEscape_grows c name pos s r).trans (ih _)

end Escapes

/-- Regions are marked as reported only where something is reported. -/
def Honest (s : State) : Prop := s.escaped ≠ [] → s.found ≠ []

/-- After a report something is found, so whatever is marked is accounted for. -/
theorem honest_report (s : State) (v : Violation) : Honest (report c v s) :=
  fun _ => report_found c v s

/-- A region is marked only together with a report. -/
theorem honest_reportEscape {s : State} (h : Honest s) (name : Option String) (pos : Span) (r : String) :
    Honest (reportEscape c name pos s r) := by
  unfold reportEscape
  split
  · exact h
  · exact fun _ => report_found c _ _

/-- A region that escapes leaves something found, even where it was reported before. -/
theorem reportEscape_found {s : State} (h : Honest s) (name : Option String) (pos : Span) (r : String) :
    (reportEscape c name pos s r).found ≠ [] := by
  unfold reportEscape
  split
  · rename_i hmem
    exact h (List.ne_nil_of_mem hmem)
  · exact report_found c _ _

/-- Reporting several regions marks none of them without a report. -/
theorem honest_reportEscapes {s : State} (h : Honest s) (rs : List String) (name : Option String)
    (pos : Span) : Honest (reportEscapes c rs name pos s) := by
  unfold reportEscapes
  induction rs generalizing s with
  | nil => exact h
  | cons r rs ih => exact ih (honest_reportEscape c h name pos r)

/-- If some region escapes, something is found. -/
theorem reportEscapes_found {s : State} (h : Honest s) {rs : List String} (hrs : rs ≠ [])
    (name : Option String) (pos : Span) : (reportEscapes c rs name pos s).found ≠ [] := by
  cases rs with
  | nil => exact absurd rfl hrs
  | cons r rs =>
    exact ne_nil_of_prefix (reportEscapes_grows c rs name pos _) (reportEscape_found c h name pos r)

/-- What is found after regions are reported is one of them escaping, or was found before. -/
theorem mem_reportEscapes {rs : List String} {name : Option String} {pos : Span} {s : State}
    {w : Violation} (h : w ∈ (reportEscapes c rs name pos s).found) :
    w ∈ s.found ∨ ∃ r ∈ rs, w = .regionEscapes name r pos := by
  unfold reportEscapes at h
  induction rs generalizing s with
  | nil => exact .inl h
  | cons r rs ih =>
    rcases ih h with h | ⟨q, hq, rfl⟩
    · unfold reportEscape at h
      split at h
      · exact .inl h
      · rcases mem_report c h with h | rfl
        · exact .inl h
        · exact .inr ⟨r, List.mem_cons_self .., rfl⟩
    · exact .inr ⟨q, List.mem_cons_of_mem _ hq, rfl⟩

section Types
variable (ty : Ty) (name : Option String) (pos : Span) (s : State)

@[simp] theorem requireLive_scopes : (requireLive c ty name pos s).scopes = s.scopes :=
  reportEscapes_scopes ..

@[simp] theorem requireLive_regions : (requireLive c ty name pos s).regions = s.regions :=
  reportEscapes_regions ..

@[simp] theorem requireLive_events : (requireLive c ty name pos s).events = s.events :=
  reportEscapes_events ..

@[simp] theorem requireBelow_scopes (limit : Nat) :
    (requireBelow c ty limit name pos s).scopes = s.scopes :=
  reportEscapes_scopes ..

@[simp] theorem requireBelow_regions (limit : Nat) :
    (requireBelow c ty limit name pos s).regions = s.regions :=
  reportEscapes_regions ..

@[simp] theorem requireBelow_events (limit : Nat) :
    (requireBelow c ty limit name pos s).events = s.events :=
  reportEscapes_events ..

@[simp] theorem requireOutlives_scopes (x : String) :
    (requireOutlives c x ty pos s).scopes = s.scopes := by
  unfold requireOutlives
  split
  · exact requireBelow_scopes ..
  · rfl

@[simp] theorem requireOutlives_regions (x : String) :
    (requireOutlives c x ty pos s).regions = s.regions := by
  unfold requireOutlives
  split
  · exact requireBelow_regions ..
  · rfl

@[simp] theorem requireOutlives_events (x : String) :
    (requireOutlives c x ty pos s).events = s.events := by
  unfold requireOutlives
  split
  · exact requireBelow_events ..
  · rfl

@[simp] theorem forbidLinear_scopes (v : Violation) : (forbidLinear c ty v s).scopes = s.scopes := by
  unfold forbidLinear
  split
  · exact report_scopes ..
  · rfl

@[simp] theorem forbidLinear_regions (v : Violation) : (forbidLinear c ty v s).regions = s.regions := by
  unfold forbidLinear
  split
  · exact report_regions ..
  · rfl

@[simp] theorem forbidLinear_events (v : Violation) : (forbidLinear c ty v s).events = s.events := by
  unfold forbidLinear
  split
  · exact report_events ..
  · rfl

end Types

/-! ### Moves -/

/-- What is left after a move: the state with a report, or the move made. -/
theorem settle_cases {name : String} {pos : Span} {move : Binding → Except Violation BindingState}
    (event : Event) (s : State) :
    let after := settle c (s.scopes.attempt name pos move) event s
    (after = s ∧ ∀ id b, s.scopes.lookup name = some (id, b) → b.isLinear = false) ∨
    (∃ v, after = report c v s ∧ s.scopes.attempt name pos move = (.error v, s.scopes)) ∨
    (∃ id b state, s.scopes.lookup name = some (id, b) ∧ b.isLinear = true ∧
      s.scopes.outsideLoop id = false ∧ move b = .ok state ∧
      after = {log event s with scopes := s.scopes.setState id state}) := by
  intro after
  have hspec := Scopes.attempt_spec s.scopes name pos move
  have hafter : after = settle c (s.scopes.attempt name pos move) event s := rfl
  generalize s.scopes.attempt name pos move = outcome at hspec hafter ⊢
  cases hspec with
  | untracked h => exact .inl ⟨hafter, h⟩
  | barred h hlin hout => exact .inr (.inl ⟨_, hafter, rfl⟩)
  | wrong h hlin hin hmove => exact .inr (.inl ⟨_, hafter, rfl⟩)
  | made h hlin hin hmove => exact .inr (.inr ⟨_, _, _, h, hlin, hin, hmove, hafter⟩)

/-- A move leaves the regions as they are. -/
@[simp] theorem settle_regions (outcome : Except Violation (Option BindingId) × Scopes) (event : Event)
    (s : State) : (settle c outcome event s).regions = s.regions := by
  unfold settle
  split
  · rfl
  · rfl
  · exact report_regions ..

/-! ### Borrows -/

/-- The four ways a borrow of a binding can go. -/
inductive Borrowed (kind : RefKind) (name : String) (id : BindingId) (region : String) (pos : Span)
    (shareable : Bool) (s : State) : State → Prop where
  /-- An earlier reference excludes this one. -/
  | conflict {holder : Region} {prior : Reference} (h : s.regions.referenceTo id = some (holder, prior))
    (hshare : mayShare kind ((s.scopes.get? id).any Binding.isLinear) shareable holder prior = false) :
    Borrowed kind name id region pos shareable s (report c (.borrowConflict name prior.pos pos) s)
  | shared {holder : Region} {prior : Reference} (h : s.regions.referenceTo id = some (holder, prior))
    (hshare : mayShare kind ((s.scopes.get? id).any Binding.isLinear) shareable holder prior = true) :
    Borrowed kind name id region pos shareable s (attach kind name id region pos false s)
  /-- The binding cannot be frozen. -/
  | refused {v : Violation} (h : s.regions.referenceTo id = none)
    (hfreeze : s.scopes.freeze name kind pos = (.error v, s.scopes)) :
    Borrowed kind name id region pos shareable s (report c v s)
  | taken {frozen : Option BindingId} {scopes : Scopes} (h : s.regions.referenceTo id = none)
    (hfreeze : s.scopes.freeze name kind pos = (.ok frozen, scopes)) :
    Borrowed kind name id region pos shareable s
      (attach kind name id region pos frozen.isSome {s with scopes})

/-- A borrow of a binding goes in one of the four ways. -/
theorem borrowBinding_spec (kind : RefKind) (name : String) (id : BindingId) (region : String)
    (pos : Span) (shareable : Bool) (s : State) :
    Borrowed c kind name id region pos shareable s
      (borrowBinding c kind name id region pos shareable s) := by
  unfold borrowBinding
  split
  · rename_i holder prior h
    split
    · rename_i hshare
      exact .shared h hshare
    · rename_i hshare
      exact .conflict h (by simpa using hshare)
  · rename_i h
    split
    · rename_i frozen scopes hfreeze
      exact .taken h hfreeze
    · rename_i v scopes hfreeze
      have hspec := Scopes.attempt_spec s.scopes name pos fun b => b.freeze kind pos
      change Scopes.Attempted _ _ _ _ (s.scopes.freeze name kind pos) at hspec
      rw [hfreeze] at hspec
      refine .refused h ?_
      rw [hfreeze]
      cases hspec <;> rfl

/-- Entering a statement region leaves it on top, or finds it among the open ones. -/
theorem enterStatement_ok {region : String} {pos : Span} {s t : State}
    (h : enterStatement region pos s = .ok t) :
    (t = s ∧ ∃ r, s.regions.get? region = some r ∧ r.kind = .statement) ∨
    (s.regions.get? region = none ∧ t = {s with regions := ⟨region, .statement, pos, []⟩ :: s.regions}) := by
  unfold enterStatement at h
  cases hget : s.regions.get? region with
  | none =>
    simp only [hget, Option.any_none, Bool.false_eq_true, if_false, Regions.enter, Except.map] at h
    exact .inr ⟨rfl, (Except.ok.inj h).symm⟩
  | some r =>
    by_cases hkind : r.kind = .statement
    · simp only [hget, Option.any_some, hkind, beq_self_eq_true, if_true] at h
      exact .inl ⟨(Except.ok.inj h).symm, r, rfl, hkind⟩
    · have hkind' : (r.kind == .statement) = false := by simpa using hkind
      simp only [hget, Option.any_some, hkind', Bool.false_eq_true, if_false, Regions.enter,
        Except.map] at h
      cases h

/-! ### Closing regions -/

/-- Releasing a region thaws what its references froze and logs that it is closed. -/
theorem release_eq (pos : Span) (s : State) (r : Region) : release pos s r =
    {log (.close r.name pos) s with scopes := s.scopes.thawAll r.frozen} :=
  congrArg (fun scopes => ({log (.close r.name pos) s with scopes} : State)) (List.foldl_map ..).symm

@[simp] theorem release_scopes (pos : Span) (s : State) (r : Region) :
    (release pos s r).scopes = s.scopes.thawAll r.frozen := by
  rw [release_eq]

section Release
variable (pos : Span) (rs : List Region) (s : State)

/-- Releasing regions one by one thaws what any of them froze. -/
theorem foldl_release_scopes :
    (rs.foldl (release pos) s).scopes = s.scopes.thawAll (rs.flatMap Region.frozen) := by
  induction rs generalizing s with
  | nil => rfl
  | cons r rs ih =>
    rw [List.foldl_cons, ih, release_scopes, List.flatMap_cons]
    exact (List.foldl_append ..).symm

theorem foldl_release_regions : (rs.foldl (release pos) s).regions = s.regions := by
  induction rs generalizing s with
  | nil => rfl
  | cons r rs ih => exact ih (release pos s r)

theorem foldl_release_found : (rs.foldl (release pos) s).found = s.found := by
  induction rs generalizing s with
  | nil => rfl
  | cons r rs ih => exact ih (release pos s r)

theorem foldl_release_escaped : (rs.foldl (release pos) s).escaped = s.escaped := by
  induction rs generalizing s with
  | nil => rfl
  | cons r rs ih => exact ih (release pos s r)

end Release

/-- Closing regions reports nothing. -/
@[simp] theorem closeStatements_found (base : Nat) (pos : Span) (s : State) :
    (closeStatements base pos s).found = s.found :=
  foldl_release_found ..

@[simp] theorem closeStatements_escaped (base : Nat) (pos : Span) (s : State) :
    (closeStatements base pos s).escaped = s.escaped :=
  foldl_release_escaped ..

@[simp] theorem closeStatements_regions (base : Nat) (pos : Span) (s : State) :
    (closeStatements base pos s).regions = (s.regions.closeStatements base).2 :=
  foldl_release_regions ..

/-- What the closed regions froze is thawed. -/
@[simp] theorem closeStatements_scopes (base : Nat) (pos : Span) (s : State) :
    (closeStatements base pos s).scopes =
      s.scopes.thawAll ((s.regions.closeStatements base).1.flatMap Region.frozen) :=
  foldl_release_scopes ..

/-- The region that closes is the one on top. -/
theorem closeRegion_eq {s : State} {r : Region} {outer : Regions} (h : s.regions = r :: outer) (pos : Span) :
    closeRegion pos s = release pos {s with regions := outer} r := by
  unfold closeRegion
  rw [h]

@[simp] theorem closeRegion_found (pos : Span) (s : State) : (closeRegion pos s).found = s.found := by
  unfold closeRegion
  split <;> rfl

@[simp] theorem leaveBorrow_found (opened : Bool) (pos : Span) (s : State) :
    (leaveBorrow opened pos s).found = s.found := by
  unfold leaveBorrow
  split
  · exact closeRegion_found ..
  · rfl

/-! ### Leaving scopes -/

/-- Leaving a scope takes the innermost one away, whatever is reported of it. -/
@[simp] theorem leaveScope_scopes (reach : Reach) (scopeEnd : Span) (s : State) :
    (leaveScope c reach scopeEnd s).scopes = s.scopes.pop.2 := by
  unfold leaveScope
  split
  · exact reportAll_scopes ..
  · rfl

/-- Leaving a scope is not logged. -/
theorem leaveScope_events (reach : Reach) (scopeEnd : Span) (s : State) :
    (leaveScope c reach scopeEnd s).events = s.events := by
  unfold leaveScope
  split
  · exact reportAll_events ..
  · rfl

@[simp] theorem leaveScope_regions (reach : Reach) (scopeEnd : Span) (s : State) :
    (leaveScope c reach scopeEnd s).regions = s.regions := by
  unfold leaveScope
  split
  · exact reportAll_regions ..
  · rfl

/-! ### Borrow blocks -/

/-- Open the region of a borrow block. -/
def openBorrow (region : Ident Span) (s : State) : Bool × State :=
  match s.regions.enter region.name .explicit region.pos with
  | .ok regions => (true, {s with regions})
  | .error v => (false, report c v s)

/-- The region of a borrow block is new and goes on top, or its name is taken and that is reported. -/
theorem openBorrow_cases (region : Ident Span) (s : State) :
    (∃ v, openBorrow c region s = (false, report c v s)) ∨
    (s.regions.get? region.name = none ∧
      openBorrow c region s = (true, {s with regions := ⟨region.name, .explicit, region.pos, []⟩ :: s.regions})) := by
  unfold openBorrow Regions.enter
  cases s.regions.get? region.name with
  | some prior => exact .inl ⟨_, rfl⟩
  | none => exact .inr ⟨rfl, rfl⟩

/-- Take the reference of a borrow block whose region is open. -/
def takeBorrow (kind : RefKind) (source region : Ident Span) (s : State) : State :=
  match s.scopes.lookup source.name with
  | some (id, _) => borrowBinding c kind source.name id region.name source.pos false s
  | none => s

/-- The type of a borrow block's own binding. -/
def aliasTy (kind : RefKind) (source region : Ident Span) (scopes : Scopes) : Ty :=
  .ref kind region.name (((scopes.lookup source.name).map fun e => e.2.ty).getD .unit)

/-- Entering a borrow block: the region is opened, the reference taken if it could be, and the
binding of the block defined in a scope of its own. -/
theorem enterBorrow_eq (kind : RefKind) (source name region : Ident Span) (s : State) :
    enterBorrow c kind source name region s =
      let entered := openBorrow c region s
      let taken := if entered.1 then takeBorrow c kind source region entered.2 else entered.2
      (entered.1, define c name.name (aliasTy kind source region s.scopes) name.pos (pushScope taken)) := by
  unfold enterBorrow openBorrow takeBorrow aliasTy
  cases s.regions.enter region.name .explicit region.pos with
  | ok regions =>
    dsimp only
    cases s.scopes.lookup source.name <;> rfl
  | error v =>
    dsimp only
    rw [report_scopes]
    cases s.scopes.lookup source.name <;> rfl

/-- The region of a borrow block and the reference in it. -/
def lend (kind : RefKind) (source region : Ident Span) (s : State) : State :=
  let entered := openBorrow c region s
  if entered.1 then takeBorrow c kind source region entered.2 else entered.2

/-- The state after entering a borrow block, in terms of `lend`. -/
theorem enterBorrow_state (kind : RefKind) (source name region : Ident Span) (s : State) :
    (enterBorrow c kind source name region s).2 =
      define c name.name (aliasTy kind source region s.scopes) name.pos (pushScope (lend c kind source region s)) := by
  rw [enterBorrow_eq]
  rfl

end Linearity.Check
