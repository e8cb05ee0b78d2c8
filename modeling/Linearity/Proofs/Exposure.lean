import Linearity.Proofs.Conflict
import Linearity.Proofs.Track

/-! Whatever the walk finds, a path finds.

`Exposed c code s v`: on some path through the code something is found where the walk
from `s` has found `v`. If `v` is a disagreement of branches, it is a misuse of the binding
that is found, after one of the two branches is left; or else there are two paths
through the two branches that end in a conflict, so that what follows the code decides.

Code is exposed from the inside out: a path through a part is a path through the whole once
something leads to the part and something follows it (`Embeds`). -/
namespace Linearity.Check
variable {c : Context} {s s' t : State} {inner code : Code} {v : Violation}

/-! ### Exits -/

/-- What has been found when a branch is left stays found to the end. -/
theorem found_of_exit {code : Code} {r : Reach} {path : Path code r} {s : State} {exit : Span × State}
    (h : exit ∈ path.exits c true s) : exit.2.found <+: (path.run c true s).found := by
  have hrun : ∀ {code r} (path : Path code r) (s : State), s.found <+: (path.run c true s).found :=
    fun path s => ((faithful_run c true path).grown s).found
  have honward : ∀ (r : Reach) (pos : Span) (s : State),
      s.found <+: (onward r (leaveScope c .continues pos) s).found := fun r pos s => by
    cases r
    · exact (grown_leaveScope ..).found
    · exact List.prefix_rfl
  induction path generalizing s with
  | bind | unpack | assign | discard | ret | nil | done => cases h
  | choose path ih => exact ih h
  | select pos scrutinee path ih => exact ih h
  | @loop pos cond body r path ih =>
    cases r <;> exact ih h
  | @count pos var first last body r path ih =>
    have hinner := (ih h).trans (honward r pos _)
    cases r <;> exact hinner
  | @borrow pos kind source name region body r path ih =>
    cases r
    · exact (ih h).trans ((grown_leaveScope ..).trans (grown_leaveBorrow ..)).found
    · exact ih h
  | nested path ih => exact ih h
  | block pos path ih => exact (ih h).trans (honward _ pos _)
  | next first path ihfirst ih =>
    rcases List.mem_append.mp h with h | h
    · exact (ihfirst h).trans (hrun path (secluded (first.run c true) s))
    · exact ih h
  | stop rest first ih => exact ih h
  | taken pos cond rest at₀ otherwise path ih =>
    rcases List.mem_cons.mp h with rfl | h
    · exact List.prefix_rfl
    · exact ih h
  | passed branch path ih => exact ih h
  | otherwise at₀ path ih =>
    rcases List.mem_cons.mp h with rfl | h
    · exact List.prefix_rfl
    · exact ih h
  | skipped at₀ =>
    rw [List.mem_singleton.mp h]
    exact List.prefix_rfl
  | arm pos variant parts rest path ih =>
    rcases List.mem_cons.mp h with rfl | h
    · exact List.prefix_rfl
    · exact (ih h).trans (honward _ pos _)
  | passedArm arm path ih => exact ih h
  | @again cond body r round path ihround ih =>
    rcases List.mem_append.mp h with h | h
    · exact (ihround h).trans (hrun path _)
    · exact ih h
  | left cond round ih => exact ih h

/-! ### Exposure -/

/-- Something is found on a path. -/
def Shows (c : Context) (code : Code) (p : State) : Prop :=
  ∃ r, ∃ path : Path code r, (path.run c true p).found ≠ []

/-- On a path through one of two branches, a misuse is found after that branch is left. -/
def Told (c : Context) (code : Code) (name : String) (one other : Span) (p : State) : Prop :=
  ∃ r, ∃ path : Path code r, ∃ exit ∈ path.exits c true p,
    (exit.1 = one ∨ exit.1 = other) ∧ Misuse name exit.2 (path.run c true p)

/-- A path through each of two branches, and a conflict between their ends. -/
def Split (c : Context) (code : Code) (id : BindingId) (name : String) (one other : Span) (p : State) : Prop :=
  ∃ first second : Path code .continues, (∃ u, (one, u) ∈ first.exits c true p) ∧
    (∃ u, (other, u) ∈ second.exits c true p) ∧
    Conflict id name (second.run c true p) (first.run c true p)

def Exposed (c : Context) (code : Code) (s : State) : Violation → Prop
  | .branchesDisagree name consuming keeping => (consuming ≠ [] ∧ keeping ≠ []) ∧
    ∀ one ∈ consuming, ∀ other ∈ keeping, ∃ id, ∀ p, Honest p → s.view id = p.view id →
      Told c code name one other p ∨ Split c code id name one other p
  | _ => ∃ id, ∀ p, Honest p → s.view id = p.view id → Shows c code p

/-- What is found from `s` to `t` is exposed by paths through the code. -/
def Exposes (c : Context) (code : Code) (s t : State) : Prop :=
  ∀ v ∈ t.found, v ∈ s.found ∨ Exposed c code s v

theorem exposed_of_shows (hproper : v.isDisagreement = false)
    (h : ∃ id, ∀ p, Honest p → s.view id = p.view id → Shows c code p) : Exposed c code s v := by
  cases v with
  | branchesDisagree => cases hproper
  | _ => exact h

/-- A path through `inner` becomes one through `code`: something leads from `s` to `s'`, and
something follows that does not keep a conflict from coming to light. -/
def Embeds (c : Context) (inner : Code) (s' : State) (code : Code) (s : State) : Prop :=
  ∀ id p, Honest p → s.view id = p.view id → ∃ p', Honest p' ∧ s'.view id = p'.view id ∧
    ∀ r, ∃ r' H, (∀ t, t.found <+: (H t).found) ∧ (r = .continues → Tells r' H) ∧
      ∀ path : Path inner r, ∃ path' : Path code r', path.exits c true p' ⊆ path'.exits c true p ∧
        path'.run c true p = H (path.run c true p')

theorem Exposed.embed (h : Embeds c inner s' code s) (hv : Exposed c inner s' v) : Exposed c code s v := by
  cases v with
  | branchesDisagree name consuming keeping =>
    refine ⟨hv.1, fun one hone other hother => ?_⟩
    obtain ⟨id, hall⟩ := hv.2 one hone other hother
    refine ⟨id, fun p hp hview => ?_⟩
    obtain ⟨p', hp', hview', hembed⟩ := h id p hp hview
    rcases hall p' hp' hview' with ⟨r, path, exit, hexit, hwhich, hmis⟩ | ⟨first, second, ⟨u, hu⟩, ⟨u', hu'⟩, hconflict⟩
    · obtain ⟨r', H, hgrows, _, hlift⟩ := hembed r
      obtain ⟨path', hexits, hrun⟩ := hlift path
      exact .inl ⟨r', path', exit, hexits hexit, hwhich, hrun ▸ hmis.mono List.prefix_rfl (hgrows _)⟩
    · obtain ⟨r', H, _, htells, hlift⟩ := hembed .continues
      obtain ⟨first', hexits, hrun⟩ := hlift first
      obtain ⟨second', hexits', hrun'⟩ := hlift second
      -- The conflict is kept by what follows, or one side of it comes to a misuse there.
      rcases (htells rfl).tells hconflict with hmis | hmis | ⟨rfl, hkept⟩
      · exact .inl ⟨r', second', _, hexits' hu', .inr rfl, hrun' ▸ hmis.mono (found_of_exit hu') List.prefix_rfl⟩
      · exact .inl ⟨r', first', _, hexits hu, .inl rfl, hrun ▸ hmis.mono (found_of_exit hu) List.prefix_rfl⟩
      · exact .inr ⟨first', second', ⟨u, hexits hu⟩, ⟨u', hexits' hu'⟩, hrun ▸ hrun' ▸ hkept⟩
  | _ =>
    obtain ⟨id, hall⟩ := hv
    refine ⟨id, fun p hp hview => ?_⟩
    obtain ⟨p', hp', hview', hembed⟩ := h id p hp hview
    obtain ⟨r, path, hfound⟩ := hall p' hp' hview'
    obtain ⟨r', H, hgrows, _, hlift⟩ := hembed r
    obtain ⟨path', _, hrun⟩ := hlift path
    exact ⟨r', path', hrun ▸ ne_nil_of_prefix (hgrows _) hfound⟩

/-! ### Brackets -/

/-- Code that is `inner` with a step before it and a step after it. -/
structure Brackets (c : Context) (inner code : Code) (F : State → State) (H : State → State → State) : Prop where
  enters : Faithful F
  leaves : ∀ p, Tells .continues (H p)
  lifts : ∀ {r} (path : Path inner r), ∃ path' : Path code r, ∀ p,
    path.exits c true (F p) ⊆ path'.exits c true p ∧
      path'.run c true p = onward r (H p) (path.run c true (F p))

namespace Brackets
variable {F : State → State} {H : State → State → State}

/-- Nothing comes after. -/
theorem plain (hF : Faithful F) (h : ∀ {r} (path : Path inner r), ∃ path' : Path code r, ∀ p,
    path.exits c true (F p) ⊆ path'.exits c true p ∧ path'.run c true p = path.run c true (F p)) :
    Brackets c inner code F fun _ t => t := by
  refine ⟨hF, fun _ => .skip, fun {r} path => ?_⟩
  cases r <;> exact h path

theorem grows (h : Brackets c inner code F H) (r : Reach) (p t : State) : t.found <+: (onward r (H p) t).found := by
  cases r
  · exact (h.leaves p).grows t
  · exact List.prefix_rfl

theorem embeds (h : Brackets c inner code F H) : Embeds c inner (F s) code s := by
  intro id p hp hview
  refine ⟨F p, (h.enters.grown p).honest hp, h.enters.view hview, fun r => ⟨r, onward r (H p), h.grows r p, ?_, ?_⟩⟩
  · rintro rfl
    exact h.leaves p
  · intro path
    obtain ⟨path', hpath⟩ := h.lifts path
    exact ⟨path', hpath p⟩

/-- What is found in the step before, and inside. -/
theorem inside (h : Brackets c inner code F H) (hpass : inner.Passable) (hinner : Exposes c inner (F s) t) :
    Exposes c code s t := by
  intro v hv
  rcases hinner v hv with hv | hv
  · rcases h.enters.found hv with hv | ⟨hproper, id, hall⟩
    · exact .inl hv
    · refine .inr (exposed_of_shows hproper ⟨id, fun p hp hview => ?_⟩)
      obtain ⟨r, ⟨path⟩⟩ := hpass
      obtain ⟨path', hpath⟩ := h.lifts path
      have hrun := ((faithful_run c true path).grown (F p)).found.trans (h.grows r p _)
      exact ⟨r, path', (hpath p).2 ▸ ne_nil_of_prefix hrun (hall p hp hview)⟩
  · exact .inr (hv.embed h.embeds)

/-- What is found where the scope around `inner` is left. -/
theorem leaving (h : Brackets c inner code F H) {pos : Span}
    (hleave : ∀ p t, (leaveScope c .continues pos t).found <+: (H p t).found) (hpass : inner.Passable)
    {reach : Reach} (htracked : reach = .continues → Tracked c inner [] (F s) t)
    (hinner : Exposes c inner (F s) t) : Exposes c code s (leaveScope c reach pos t) := by
  intro v hv
  cases reach with
  | diverges => exact h.inside hpass hinner v hv
  | continues =>
    rcases (faithful_leaveScope c pos).found hv with hv | ⟨hproper, id, hall⟩
    · exact h.inside hpass hinner v hv
    · refine .inr (exposed_of_shows hproper ⟨id, fun p hp hview => ?_⟩)
      obtain ⟨path, _, hend⟩ := htracked rfl id (F p) (h.enters.view hview)
      obtain ⟨path', hpath⟩ := h.lifts path
      have hhonest := ((faithful_run c true path).grown _).honest ((h.enters.grown p).honest hp)
      exact ⟨_, path', (hpath p).2 ▸ ne_nil_of_prefix (hleave p _) (hall _ hhonest hend)⟩

end Brackets

section Instances
variable {at₀ pos : Span} {branches : List (Branch Span)} {otherwise : Option (Block Span)} {arms : List (Arm Span)}
  {body : Block Span}

theorem brackets_choose :
    Brackets c (.branches pos branches otherwise) (.stmt (.choose pos branches otherwise)) (fun s => s) fun _ t => t :=
  .plain .skip fun path => ⟨.choose path, fun _ => ⟨List.Subset.refl _, rfl⟩⟩

theorem brackets_select {scrutinee : Expr Span} :
    Brackets c (.arms arms) (.stmt (.select pos scrutinee arms)) (evalClosed c scrutinee) fun _ t => t :=
  .plain (faithful_evalClosed c scrutinee) fun path =>
    ⟨.select pos scrutinee path, fun _ => ⟨List.Subset.refl _, rfl⟩⟩

theorem brackets_nested : Brackets c (.block body) (.stmt (.block body)) (fun s => s) fun _ t => t :=
  .plain .skip fun path => ⟨.nested path, fun _ => ⟨List.Subset.refl _, rfl⟩⟩

theorem brackets_taken {branch : Branch Span} : Brackets c (.block branch.body)
    (.branches at₀ (branch :: branches) otherwise) (evalClosed c branch.cond) fun _ t => t := by
  obtain ⟨pos, cond, body⟩ := branch
  exact .plain (faithful_evalClosed c cond) fun path =>
    ⟨.taken pos cond branches at₀ otherwise path, fun _ => ⟨List.subset_cons_self .., rfl⟩⟩

theorem brackets_passed {branch : Branch Span} : Brackets c (.branches at₀ branches otherwise)
    (.branches at₀ (branch :: branches) otherwise) (evalClosed c branch.cond) fun _ t => t :=
  .plain (faithful_evalClosed c branch.cond) fun path =>
    ⟨.passed branch path, fun _ => ⟨List.Subset.refl _, rfl⟩⟩

theorem brackets_otherwise :
    Brackets c (.block body) (.branches at₀ [] (some body)) (fun s => s) fun _ t => t :=
  .plain .skip fun path => ⟨.otherwise at₀ path, fun _ => ⟨List.subset_cons_self .., rfl⟩⟩

theorem brackets_passedArm {arm : Arm Span} :
    Brackets c (.arms arms) (.arms (arm :: arms)) (fun s => s) fun _ t => t :=
  .plain .skip fun path => ⟨.passedArm arm path, fun _ => ⟨List.Subset.refl _, rfl⟩⟩

theorem brackets_loop {cond : Expr Span} :
    Brackets c (.rounds (some cond) body) (.stmt (.loop pos cond body)) enterLoop exitLoop := by
  refine ⟨.of_silent (fun _ => rfl) (fun _ => rfl) view_enterLoop, fun p => ?_, fun path =>
    ⟨.loop pos path, fun _ => ⟨List.Subset.refl _, rfl⟩⟩⟩
  exact .of_kept (fun _ => List.prefix_rfl) fun h => h.exitLoop rfl

variable (hc : c.Thorough)

include hc

theorem brackets_block {stmts : List (Stmt Span)} : Brackets c (.stmts stmts) (.block ⟨pos, stmts⟩) pushScope
    fun _ => leaveScope c .continues pos :=
  ⟨faithful_pushScope, fun _ => tells_leaveScope hc pos, fun path =>
    ⟨.block pos path, fun _ => ⟨List.Subset.refl _, rfl⟩⟩⟩

theorem brackets_arm {arm : Arm Span} : Brackets c (.block arm.body) (.arms (arm :: arms))
    (fun s => unpack c arm.parts (pushScope s)) fun _ => leaveScope c .continues arm.pos := by
  obtain ⟨pos, variant, parts, body⟩ := arm
  exact ⟨faithful_pushScope.seq (faithful_unpack c parts), fun _ => tells_leaveScope hc pos, fun path =>
    ⟨.arm pos variant parts arms path, fun _ => ⟨List.subset_cons_self .., rfl⟩⟩⟩

theorem brackets_borrow {kind : RefKind} {source name region : Ident Span} :
    Brackets c (.block body) (.stmt (.borrow pos kind source name region body))
      (fun s => (enterBorrow c kind source name region s).2)
      fun p t => leaveBorrow (enterBorrow c kind source name region p).1 pos (leaveScope c .continues pos t) := by
  refine ⟨faithful_enterBorrow c kind source name region, fun p => (tells_leaveScope hc pos).seq ?_, fun path =>
    ⟨.borrow pos kind source name region path, fun _ => ⟨List.Subset.refl _, rfl⟩⟩⟩
  exact .of_kept (fun t => (grown_leaveBorrow ..).found) fun h => h.leaveBorrow _ pos

theorem brackets_count {var : Ident Span} {first last : Expr Span} :
    Brackets c (.rounds none body) (.stmt (.count pos var first last body))
      (fun s => define c var.name .int var.pos (pushScope (evalClosed c last (evalClosed c first (enterLoop s)))))
      fun p t => exitLoop p (leaveScope c .continues pos t) := by
  have henter : Faithful enterLoop := .of_silent (fun _ => rfl) (fun _ => rfl) view_enterLoop
  have hvar : Faithful fun s => define c var.name .int var.pos (pushScope s) :=
    faithful_pushScope.seq (faithful_act c (.define var.name .int var.pos))
  refine ⟨?_, fun p => (tells_leaveScope hc pos).seq ?_, fun {r} path =>
    ⟨.count pos var first last path, fun _ => ⟨List.Subset.refl _, ?_⟩⟩⟩
  · exact (henter.seq (faithful_evalClosed c first)).seq ((faithful_evalClosed c last).seq hvar)
  · exact .of_kept (fun _ => List.prefix_rfl) fun h => h.exitLoop rfl
  · cases r <;> rfl

end Instances

/-! ### Statements one after the other -/

section Sequence
variable {stmt : Stmt Span} {rest : List (Stmt Span)}

/-- Only how the start looks is of account. -/
theorem Exposed.of_start (h : Exposed c code s' v) (hscopes : s'.scopes = s.scopes) (hregions : s'.regions = s.regions) :
    Exposed c code s v := by
  have hsame : ∀ id, s'.view id = s.view id := fun _ => view_of_same hscopes hregions
  cases v <;> simpa only [Exposed, hsame] using h

/-- After the first statement, any way through the rest will do. -/
theorem embeds_first (hc : c.Thorough) (hrest : Code.Passable (.stmts rest)) :
    Embeds c (.stmt stmt) {s with escaped := []} (.stmts (stmt :: rest)) s := by
  intro id p hp hview
  obtain ⟨r', ⟨ahead⟩⟩ := hrest
  have hback : Tells .continues fun t => {t with escaped := p.escaped} :=
    .of_kept (fun _ => List.prefix_rfl) fun h => h.of_same rfl rfl rfl rfl
  refine ⟨{p with escaped := []}, fun he => absurd rfl he, hview, fun r => ?_⟩
  cases r with
  | continues =>
    have hahead := hback.seq (tells_run hc ahead)
    exact ⟨r', _, hahead.grows, fun _ => hahead, fun path =>
      ⟨.next path ahead, List.subset_append_left .., rfl⟩⟩
  | diverges =>
    exact ⟨.diverges, _, hback.grows, nofun, fun path => ⟨.stop rest path, List.Subset.refl _, rfl⟩⟩

/-- Some path leads to the rest, as any one binding sees it. -/
theorem embeds_rest (hfirst : Tracked c (.stmt stmt) [] {s with escaped := []} t) :
    Embeds c (.stmts rest) {t with escaped := s.escaped} (.stmts (stmt :: rest)) s := by
  intro id p hp hview
  obtain ⟨first, _, hend⟩ := hfirst id {p with escaped := []} hview
  refine ⟨secluded (first.run c true) p, ?_, hend, fun r => ⟨r, _, fun t => List.prefix_rfl, ?_, fun path =>
    ⟨.next first path, List.subset_append_right .., rfl⟩⟩⟩
  · exact ((faithful_run c true first).secluded.grown p).honest hp
  · rintro rfl
    exact .skip

theorem exposes_first (hc : c.Thorough) (hrest : Code.Passable (.stmts rest))
    (h : Exposes c (.stmt stmt) {s with escaped := []} t) :
    Exposes c (.stmts (stmt :: rest)) s {t with escaped := s.escaped} := by
  intro v hv
  rcases h v hv with hv | hv
  · exact .inl hv
  · exact .inr (hv.embed (embeds_first hc hrest))

end Sequence

/-! ### Rounds -/

section Rounds
variable {cond : Option (Expr Span)} {body : Block Span}

/-- A round is followed by the condition and no other round. -/
theorem embeds_round (hc : c.Thorough) : Embeds c (.block body) (evalGuard c cond s) (.rounds cond body) s := by
  have hguard := (faithful_law c true).evalGuard cond
  intro id p hp hview
  refine ⟨evalGuard c cond p, (hguard.grown p).honest hp, hguard.view hview, fun r => ?_⟩
  cases r with
  | continues =>
    have htells := (tells_law hc).evalGuard cond
    exact ⟨_, _, htells.grows, fun _ => htells, fun path =>
      ⟨.again path (.done cond body), List.subset_append_left .., rfl⟩⟩
  | diverges =>
    exact ⟨_, _, fun _ => List.prefix_rfl, nofun, fun path => ⟨.left cond path, List.Subset.refl _, rfl⟩⟩

theorem exposes_rounds (hc : c.Thorough) (cond : Option (Expr Span))
    (h : Exposes c (.block body) (evalGuard c cond s) t) : Exposes c (.rounds cond body) s t := by
  intro v hv
  rcases h v hv with hv | hv
  · rcases ((faithful_law c true).evalGuard cond).found hv with hv | ⟨hproper, id, hall⟩
    · exact .inl hv
    · exact .inr (exposed_of_shows hproper ⟨id, fun p hp hview => ⟨_, .done cond body, hall p hp hview⟩⟩)
  · exact .inr (hv.embed (embeds_round hc))

end Rounds

/-! ### Joins -/

/-- Of branches that disagree about a binding, the ends of two that do are in conflict. -/
theorem conflict_of_exits {outcomes : List Outcome} (h : Branched s outcomes t) {id : BindingId} {b : Binding}
    (hb : t.scopes.get? id = some b) (hlin : b.isLinear = true) {e e' : Span × Scopes} (he : e ∈ reached outcomes)
    (he' : e' ∈ reached outcomes) (hsome : (consumedAt id e.2).isSome = true)
    (hnone : (consumedAt id e'.2).isSome = false) :
    Conflict id b.name {t with scopes := e'.2} {t with scopes := e.2} := by
  have hexit := h.exits he
  have hexit' := h.exits he'
  obtain ⟨b₁, hb₁, hblank₁⟩ := Scopes.get?_of_skeleton (hexit.skeleton_eq.trans h.kept.skeleton_eq.symm) hb
  obtain ⟨b₂, hb₂, hblank₂⟩ := Scopes.get?_of_skeleton (hexit'.skeleton_eq.trans h.kept.skeleton_eq.symm) hb
  have hlin₁ : b₁.isLinear = true := (Binding.isLinear_of_blank hblank₁).trans hlin
  have hlin₂ : b₂.isLinear = true := (Binding.isLinear_of_blank hblank₂).trans hlin
  rw [consumedAt_of_get? hb₁] at hsome
  rw [consumedAt_of_get? hb₂] at hnone
  -- Consumed on one side, the binding is borrowed on neither.
  have hfree : t.regions.refsTo id = [] := by
    refine (hexit.coherent.accounted hb₁).idle hlin₁ fun kind pos hstate => ?_
    rw [hstate] at hsome
    cases hsome
  refine ⟨hexit.skeleton_eq.trans hexit'.skeleton_eq.symm, hexit.barrier.trans hexit'.barrier.symm, rfl, hfree,
    ⟨b₂, hb₂, hlin₂, ?_, ?_⟩, b₁, hb₁, hsome⟩
  · rw [← Binding.blank_name, hblank₂, Binding.blank_name]
  · cases hstate : b₂.state with
    | unconsumed => rfl
    | consumed pos =>
      rw [hstate] at hnone
      cases hnone
    | frozen kind pos =>
      have hone := (hexit'.coherent.accounted hb₂).frozen hlin₂ hstate
      rw [hfree] at hone
      cases hone

/-- A disagreement is exposed by a path through each of two branches that disagree. -/
theorem exposes_join {outcomes : List Outcome} (hbranched : Branched s outcomes t)
    (htracked : BranchesTracked c code s (outcomes, t)) (h : Exposes c code s t) :
    Exposes c code s (join c outcomes t).2 := by
  intro v hv
  rcases mem_join c hv with hv | ⟨id, b, hb, hlin, ⟨⟨e₁, he₁, hsome₁⟩, ⟨e₂, he₂, hnone₂⟩⟩, rfl⟩
  · exact h v hv
  · have hconsuming : e₁.1 ∈ ((reached outcomes).filter fun e => (consumedAt id e.2).isSome).map Prod.fst :=
      List.mem_map_of_mem (List.mem_filter.mpr ⟨he₁, hsome₁⟩)
    have hkeeping : e₂.1 ∈ ((reached outcomes).filter fun e => (consumedAt id e.2).isNone).map Prod.fst :=
      List.mem_map_of_mem (List.mem_filter.mpr ⟨he₂, by simpa using hnone₂⟩)
    refine .inr ⟨⟨List.ne_nil_of_mem hconsuming, List.ne_nil_of_mem hkeeping⟩, ?_⟩
    rintro one hone other hother
    obtain ⟨e, he, rfl⟩ := List.mem_map.mp hone
    obtain ⟨e', he', rfl⟩ := List.mem_map.mp hother
    obtain ⟨he, hsome⟩ := List.mem_filter.mp he
    obtain ⟨he', hnone⟩ := List.mem_filter.mp he'
    have hconflict := conflict_of_exits hbranched hb hlin he he' hsome (by simpa using hnone)
    refine ⟨id, fun p _ hview => .inr ?_⟩
    obtain ⟨first, hexit, hend⟩ := htracked e he id p hview
    obtain ⟨second, hexit', hend'⟩ := htracked e' he' id p hview
    exact ⟨first, second, hexit _ (List.mem_singleton_self _), hexit' _ (List.mem_singleton_self _),
      hconflict.of_view hend'.symm hend.symm⟩

/-! ### The walk -/

/-- A statement without choices is its own path. -/
theorem exposes_simple {stmt : Stmt Span} {r : Reach} (path : Path (.stmt stmt) r)
    (h : (visit c stmt s).2 = path.run c true s) : Exposes c (.stmt stmt) s (visit c stmt s).2 := by
  intro v hv
  rw [h] at hv
  rcases (faithful_run c true path).found hv with hv | ⟨hproper, id, hall⟩
  · exact .inl hv
  · exact .inr (exposed_of_shows hproper ⟨id, fun p hp hview => ⟨r, path, hall p hp hview⟩⟩)

theorem exposes_branch {pos : Span} {branch : Branch Span} {rest : List (Branch Span)}
    {otherwise : Option (Block Span)} (hs : Ready s) (hpass : Code.Passable (.block branch.body))
    (hbody : Exposes c (.block branch.body) (evalClosed c branch.cond s)
      (checkBlock c branch.body (evalClosed c branch.cond s)).2)
    (hrest : Exposes c (.branches pos rest otherwise) (checkBranch c branch s).2
      (checkChoice c pos rest otherwise (checkBranch c branch s).2).2) :
    Exposes c (.branches pos (branch :: rest) otherwise) s (checkChoice c pos (branch :: rest) otherwise s).2 := by
  intro v hv
  rw [checkChoice_cons] at hv
  rcases hrest v hv with hv | hv
  · exact brackets_taken.inside hpass hbody v hv
  · have hentry := (kept_evalClosed c hs branch.cond).ready hs
    have hstart := hv.of_start (s := evalClosed c branch.cond s) rfl (kept_checkBlock c branch.body hentry).regions
    exact .inr (hstart.embed brackets_passed.embeds)

theorem exposes_arm (hc : c.Thorough) {arm : Arm Span} {rest : List (Arm Span)} (hs : Ready s)
    (hpass : Code.Passable (.block arm.body))
    (hbody : Exposes c (.block arm.body) (unpack c arm.parts (pushScope s))
      (checkBlock c arm.body (unpack c arm.parts (pushScope s))).2)
    (hrest : Exposes c (.arms rest) (checkArm c arm s).2 (checkArms c rest (checkArm c arm s).2).2) :
    Exposes c (.arms (arm :: rest)) s (checkArms c (arm :: rest) s).2 := by
  intro v hv
  rw [checkArms_cons] at hv
  rcases hrest v hv with hv | hv
  · have htracked := tracked_checkBlock hc arm.body (ready_unpack (c := c) hs arm.parts)
    exact (brackets_arm hc).leaving (fun _ _ => List.prefix_rfl) hpass htracked hbody v hv
  · have hstart := hv.of_start (s := s) rfl (kept_checkArm hs arm).regions
    exact .inr (hstart.embed brackets_passedArm.embeds)

theorem exposes_choose (hc : c.Thorough) {pos : Span} {branches : List (Branch Span)}
    {otherwise : Option (Block Span)} (hs : Ready s) (hpass : Code.Passable (.branches pos branches otherwise))
    (h : Exposes c (.branches pos branches otherwise) s (checkChoice c pos branches otherwise s).2) :
    Exposes c (.stmt (.choose pos branches otherwise)) s (visit c (.choose pos branches otherwise) s).2 := by
  have htracked := tracked_branches hc pos branches otherwise (fun block _ _ hs => tracked_checkBlock hc block hs) hs
  rw [visit_choose]
  exact brackets_choose.inside hpass (exposes_join (branched_checkChoice hs ..) htracked h)

theorem exposes_borrow (hc : c.Thorough) {pos : Span} {kind : RefKind} {source name region : Ident Span}
    {body : Block Span} (hs : Ready s) (hpass : Code.Passable (.block body))
    (hbody : Exposes c (.block body) (enterBorrow c kind source name region s).2
      (checkBlock c body (enterBorrow c kind source name region s).2).2) :
    Exposes c (.stmt (.borrow pos kind source name region body)) s
      (visit c (.borrow pos kind source name region body) s).2 := by
  intro v hv
  have htracked := tracked_checkBlock hc body (ready_enterBorrow (c := c) hs kind source name region)
  have hleave (p t : State) : (leaveScope c .continues pos t).found
      <+: (leaveBorrow (enterBorrow c kind source name region p).1 pos (leaveScope c .continues pos t)).found :=
    (leaveBorrow_found ..).symm ▸ List.prefix_rfl
  refine (brackets_borrow hc).leaving hleave hpass htracked hbody v ?_
  exact leaveBorrow_found (enterBorrow c kind source name region s).1 pos _ ▸ hv

mutual

/-- Whatever is found in a statement is exposed by paths through it. -/
theorem exposes_visit (hc : c.Thorough) : ∀ (stmt : Stmt Span) {s : State}, stmt.armed = true → Ready s →
    Exposes c (.stmt stmt) s (visit c stmt s).2
  | .bind pos name ty value, _, _, _ => exposes_simple (.bind pos name ty value) rfl
  | .unpack pos parts value, _, _, _ => exposes_simple (.unpack pos parts value) rfl
  | .assign pos target value, _, _, _ => exposes_simple (.assign pos target value) rfl
  | .discard pos value, _, _, _ => exposes_simple (.discard pos value) rfl
  | .ret pos value, _, _, _ => exposes_simple (.ret pos value) rfl
  | .choose pos branches none, s, h, hs =>
    exposes_choose hc hs (passable_branches pos branches none h nofun) (exposes_branches hc pos branches none h nofun hs)
  | .choose pos branches (some block), s, h, hs => by
    simp only [Stmt.armed, Bool.and_eq_true] at h
    have hpass : ∀ b ∈ some block, Code.Passable (.block b) := fun _ hb => by
      cases hb
      exact passable_block block h.2
    exact exposes_choose hc hs (passable_branches pos branches (some block) h.1 hpass)
      (exposes_branches hc pos branches (some block) h.1 (fun b hb => ⟨hpass b hb, fun _ hs => by
        cases hb
        exact exposes_checkBlock hc block h.2 hs⟩) hs)
  | .select pos scrutinee arms, s, h, hs => by
    simp only [Stmt.armed, Bool.and_eq_true] at h
    have hready := (kept_evalClosed c hs scrutinee).ready hs
    exact brackets_select.inside (passable_arms arms h.1 h.2)
      (exposes_join (branched_checkArms c arms hready) (tracked_arms hc arms hready) (exposes_arms hc arms h.2 hready))
  | .loop pos cond body, s, h, hs => by
    have hready := (kept_evalClosed c hs.enterLoop cond).ready hs.enterLoop
    have hrounds := exposes_rounds hc (some cond) (exposes_checkBlock hc body h hready)
    exact brackets_loop.inside ⟨_, ⟨.done (some cond) body⟩⟩ hrounds
  | .count pos var first last body, s, h, hs => by
    have hfirst := (kept_evalClosed c hs.enterLoop first).ready hs.enterLoop
    have hlast := (kept_evalClosed c hfirst last).ready hfirst
    obtain ⟨new, hvar⟩ := kept_define c hlast.pushScope var.name .int var.pos
    have hrounds := exposes_rounds hc none (exposes_checkBlock hc body h (hvar.ready hlast.pushScope))
    exact (brackets_count hc).inside ⟨_, ⟨.done none body⟩⟩ hrounds
  | .borrow pos kind source name region body, s, h, hs =>
    exposes_borrow hc hs (passable_block body h)
      (exposes_checkBlock hc body h (ready_enterBorrow hs kind source name region))
  | .block body, s, h, hs => brackets_nested.inside (passable_block body h) (exposes_checkBlock hc body h hs)

theorem exposes_checkBlock (hc : c.Thorough) : ∀ (block : Block Span) {s : State}, block.armed = true → Ready s →
    Exposes c (.block block) s (checkBlock c block s).2
  | ⟨_, stmts⟩, _, h, hs =>
    (brackets_block hc).leaving (fun _ _ => List.prefix_rfl) (passable_stmts stmts h)
      (tracked_checkStmts hc stmts hs.pushScope) (exposes_checkStmts hc stmts h hs.pushScope)

theorem exposes_checkStmts (hc : c.Thorough) : ∀ (stmts : List (Stmt Span)) {s : State},
    Stmt.allArmed stmts = true → Ready s → Exposes c (.stmts stmts) s (checkStmts c stmts s).2
  | [], _, _, _ => fun _ hv => .inl hv
  | stmt :: rest, s, h, hs => by
    simp only [Stmt.allArmed, Bool.and_eq_true] at h
    have hready : Ready {s with escaped := []} := hs.of_same rfl rfl
    have hfirst := exposes_first hc (passable_stmts rest h.2) (exposes_visit hc stmt h.1 hready)
    cases hreach : (visit c stmt {s with escaped := []}).1 with
    | diverges =>
      rw [checkStmts_of_diverges (hc.halted s) hreach]
      exact hfirst
    | continues =>
      rw [checkStmts_of_continues (hc.halted s) hreach]
      intro v hv
      rcases exposes_checkStmts hc rest h.2 (ready_checkStmt hs stmt) v hv with hv | hv
      · exact hfirst v hv
      · exact .inr (hv.embed (embeds_rest (tracked_visit hc stmt hready hreach)))

theorem exposes_branches (hc : c.Thorough) (pos : Span) :
    ∀ (branches : List (Branch Span)) (otherwise : Option (Block Span)), Branch.allArmed branches = true →
    (∀ block ∈ otherwise, Code.Passable (.block block) ∧
      ∀ s : State, Ready s → Exposes c (.block block) s (checkBlock c block s).2) →
    ∀ {s : State}, Ready s →
    Exposes c (.branches pos branches otherwise) s (checkChoice c pos branches otherwise s).2
  | [], none, _, _, _, _ => fun _ hv => .inl hv
  | [], some block, _, hlast, s, hs =>
    brackets_otherwise.inside (hlast block rfl).1 ((hlast block rfl).2 s hs)
  | ⟨at₀, cond, body⟩ :: rest, otherwise, h, hlast, s, hs => by
    simp only [Branch.allArmed, Bool.and_eq_true] at h
    exact exposes_branch hs (passable_block body h.1)
      (exposes_checkBlock hc body h.1 ((kept_evalClosed c hs cond).ready hs))
      (exposes_branches hc pos rest otherwise h.2 hlast (ready_checkBranch hs ⟨at₀, cond, body⟩))

theorem exposes_arms (hc : c.Thorough) : ∀ (arms : List (Arm Span)) {s : State}, Arm.allArmed arms = true → Ready s →
    Exposes c (.arms arms) s (checkArms c arms s).2
  | [], _, _, _ => fun _ hv => .inl hv
  | ⟨pos, variant, parts, body⟩ :: rest, s, h, hs => by
    simp only [Arm.allArmed, Bool.and_eq_true] at h
    exact exposes_arm hc hs (passable_block body h.1) (exposes_checkBlock hc body h.1 (ready_unpack hs parts))
      (exposes_arms hc rest h.2 (ready_checkArm hs ⟨pos, variant, parts, body⟩))

end

end Linearity.Check
