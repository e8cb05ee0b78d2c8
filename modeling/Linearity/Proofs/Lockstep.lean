import Linearity.Proofs.Faithful
import Linearity.Proofs.Mirror

/-! Checking a program and its retyped copy in lockstep.

As long as the check of the program reports nothing, each of its steps is mirrored by the
step of the copy, which reports nothing either. A step that the program makes on a binding
that is free in the copy leaves the copy as it is. -/
namespace Linearity

theorem TypeTable.isLinear_classify (T : TypeTable) (K : Kinds) (t : Ty) :
    (T.classify K t).isLinear = T.isLinear K t := by
  rw [classify]
  cases T.isLinear K t <;> rfl

namespace Check
variable {σ : Ty → Ty} {c c' : Context} {g i : State}

/-! ### Reports -/

theorem reportEscapes_silent {rs : List String} {name : Option String} {pos : Span} (hg : Honest g)
    (hfound : (reportEscapes c rs name pos g).found = []) : rs = [] := by
  by_contra hrs
  exact reportEscapes_found c hg hrs name pos hfound

theorem reportAll_silent {vs : List Violation} (hfound : (reportAll c vs g).found = []) : vs = [] := by
  by_contra hvs
  exact reportAll_found c hvs g hfound

/-- Regions that are not reported in the program are not reported in the copy. -/
theorem mirrors_reportEscapes (h : Mirrors σ c' g i) (hg : Honest g) {rs rs' : List String} (hrs : rs' = rs)
    (name : Option String) (pos : Span) (hfound : (reportEscapes c rs name pos g).found = []) :
    Mirrors σ c' (reportEscapes c rs name pos g) (reportEscapes c' rs' name pos i) := by
  rw [hrs, reportEscapes_silent hg hfound]
  exact h

theorem Mirrors.length (h : Mirrors σ c' g i) : i.regions.length = g.regions.length := by
  rw [h.regions, List.length_map]

theorem Mirrors.get? (h : Mirrors σ c' g i) (name : String) :
    i.regions.get? name = (g.regions.get? name).map (Region.restrict (followed i.scopes)) := by
  rw [h.regions]
  exact Regions.get?_map fun _ => rfl

theorem Mirrors.isLive (h : Mirrors σ c' g i) (name : String) : i.regions.isLive name = g.regions.isLive name := by
  rw [h.regions]
  exact Regions.isLive_map fun _ => rfl

theorem Mirrors.position? (h : Mirrors σ c' g i) (name : String) :
    i.regions.position? name = g.regions.position? name := by
  rw [h.regions]
  exact Regions.position?_map (g := Region.restrict _) fun _ => rfl

theorem Mirrors.isFunctionRegion (h : Mirrors σ c' g i) (name : String) :
    i.regions.isFunctionRegion name = g.regions.isFunctionRegion name := by
  rw [h.regions]
  exact Regions.isFunctionRegion_map (fun _ => rfl) fun _ => rfl

section Types
variable (hσ : Specialises σ c c') (h : Mirrors σ c' g i) (hg : Honest g) (ty : Ty) (pos : Span)

include hσ h hg

theorem mirrors_requireLive (name : Option String) (hfound : (requireLive c ty name pos g).found = []) :
    Mirrors σ c' (requireLive c ty name pos g) (requireLive c' (σ ty) name pos i) := by
  apply mirrors_reportEscapes h hg _ name pos hfound
  simp only [hσ.regions, h.isLive]

theorem mirrors_requireBelow (limit : Nat) (name : Option String)
    (hfound : (requireBelow c ty limit name pos g).found = []) :
    Mirrors σ c' (requireBelow c ty limit name pos g) (requireBelow c' (σ ty) limit name pos i) := by
  apply mirrors_reportEscapes h hg _ name pos hfound
  simp only [hσ.regions, h.position?]

theorem mirrors_requireOutlives (name : String) (hfound : (requireOutlives c name ty pos g).found = []) :
    Mirrors σ c' (requireOutlives c name ty pos g) (requireOutlives c' name (σ ty) pos i) := by
  cases hlookup : g.scopes.lookup name with
  | none =>
    simp only [requireOutlives, hlookup, h.scopes.lookup_none hlookup]
    exact h
  | some e =>
    obtain ⟨id, b⟩ := e
    obtain ⟨b', hlookup', hblank⟩ := h.scopes.lookup hlookup
    have hdepth : b'.regionDepth = b.regionDepth := (congrArg Binding.regionDepth hblank :)
    simp only [requireOutlives, hlookup, hlookup', hdepth] at hfound ⊢
    exact mirrors_requireBelow hσ h hg ty pos _ _ hfound

theorem mirrors_requireOutlasts (region : String) (name : Option String)
    (hfound : (requireOutlasts c region ty name pos g).found = []) :
    Mirrors σ c' (requireOutlasts c region ty name pos g) (requireOutlasts c' region (σ ty) name pos i) := by
  simp only [requireOutlasts, h.position?] at hfound ⊢
  cases hposition : g.regions.position? region with
  | none => exact h
  | some limit =>
    simp only [hposition] at hfound
    exact mirrors_requireBelow hσ h hg ty pos limit name hfound

end Types

theorem mirrors_forbidLinear (hσ : Specialises σ c c') (h : Mirrors σ c' g i) (ty : Ty) (v v' : Violation)
    (hfound : (forbidLinear c ty v g).found = []) :
    Mirrors σ c' (forbidLinear c ty v g) (forbidLinear c' (σ ty) v' i) := by
  have hfree : isLinear c ty = false := by
    by_contra hlin
    rw [forbidLinear, if_pos (by simpa using hlin)] at hfound
    exact report_found c v g hfound
  have hfree' : isLinear c' (σ ty) = false := by
    by_contra hlin
    rw [hσ.linear (by simpa using hlin)] at hfree
    cases hfree
  simpa [forbidLinear, hfree, hfree'] using h

/-- What is live in the copy is live in the program. -/
theorem Mirrored.isLive {s t : Scopes} (h : Mirrored σ c' s t) {id : BindingId} {b' : Binding}
    (hb' : t.get? id = some b') (hlive : b'.isLive = true) : ∃ b, s.get? id = some b ∧ b.isLive = true := by
  simp only [Binding.isLive, Bool.and_eq_true] at hlive
  obtain ⟨b, hb, hlin, hstate⟩ := h.source hb' hlive.1
  refine ⟨b, hb, ?_⟩
  simp only [Binding.isLive, hlin, ← hstate, hlive.2, Bool.and_self]

theorem mirrors_allConsumed (h : Mirrors σ c' g i) (pos : Span) (hfound : (act c (.allConsumed pos) g).found = []) :
    Mirrors σ c' (act c (.allConsumed pos) g) (act c' (.allConsumed pos) i) := by
  have hnone : g.scopes.live = [] := List.map_eq_nil_iff.mp (reportAll_silent hfound)
  have hnone' : i.scopes.live = [] := by
    rw [List.eq_nil_iff_forall_not_mem]
    intro b' hb'
    obtain ⟨id, hget, hlive⟩ := Scopes.mem_live.mp hb'
    obtain ⟨b, hb, hlive⟩ := h.scopes.isLive hget hlive
    have hmem : b ∈ g.scopes.live := Scopes.mem_live.mpr ⟨id, hb, hlive⟩
    rw [hnone] at hmem
    cases hmem
  simpa only [act, hnone, hnone', List.map_nil, reportAll, List.foldl_nil] using h

/-! ### Moves -/

/-- A move whose outcome depends on the binding's state only. -/
def ByState (move : Binding → Except Violation BindingState) : Prop :=
  ∀ {b b' state}, b'.state = b.state → move b = .ok state → move b' = .ok state

theorem byState_consume (pos : Span) : ByState fun b => b.consume pos := by
  intro b b' state hstate hmove
  simp only [Binding.consume, hstate] at hmove ⊢
  cases hb : b.state <;> simp_all

theorem byState_read (reads : LeafReads) (pos : Span) : ByState fun b => b.read reads pos := by
  intro b b' state hstate hmove
  simp only [Binding.read, hstate] at hmove ⊢
  cases hb : b.state with
  | frozen kind prior => by_cases hread : kind = .read ∧ reads = .any <;> simp_all
  | _ => simp_all

theorem byState_overwrite (pos : Span) : ByState fun b => b.overwrite pos := by
  intro b b' state hstate hmove
  simp only [Binding.overwrite, hstate] at hmove ⊢
  cases hb : b.state <;> simp_all

theorem byState_freeze (kind : RefKind) (pos : Span) : ByState fun b => b.freeze kind pos := by
  intro b b' state hstate hmove
  simp only [Binding.freeze, hstate] at hmove ⊢
  cases hb : b.state <;> simp_all

/-- What the program does not follow, the copy does not follow. -/
theorem attempt_untracked {s t : Scopes} (h : Mirrored σ c' s t) {name : String}
    (hfree : ∀ id b, s.lookup name = some (id, b) → b.isLinear = false) {pos : Span}
    {move : Binding → Except Violation BindingState} : t.attempt name pos move = (.ok none, t) := by
  cases hlookup : s.lookup name with
  | none => exact Scopes.attempt_of_lookup_none (h.lookup_none hlookup) pos move
  | some e =>
    obtain ⟨id, b⟩ := e
    obtain ⟨b', hlookup', _⟩ := h.lookup hlookup
    have hfree' : b'.isLinear = false := by
      by_contra hlin
      have hbound := h.bound (Scopes.get?_of_lookup hlookup).1 (Scopes.get?_of_lookup hlookup').1
        (by simpa using hlin)
      rw [hfree id b hlookup] at hbound
      cases hbound.1
    rw [Scopes.attempt_of_lookup hlookup', hfree']
    rfl

/-- A move of a binding, in the program and the copy: the copy makes it if it follows the
binding, and else stays as it is. -/
theorem attempt_cases {s t : Scopes} (h : Mirrored σ c' s t) {name : String} {id : BindingId} {b : Binding}
    {pos : Span} {move : Binding → Except Violation BindingState} (hmove : ByState move)
    (hlookup : s.lookup name = some (id, b)) {state : BindingState} (hin : s.outsideLoop id = false)
    (hmade : move b = .ok state) :
    (followed t id = true ∧ t.attempt name pos move = (.ok (some id), t.setState id state) ∧
      Mirrored σ c' (s.setState id state) (t.setState id state)) ∨
    (followed t id = false ∧ t.attempt name pos move = (.ok none, t) ∧ Mirrored σ c' (s.setState id state) t) := by
  obtain ⟨b', hlookup', _⟩ := h.lookup hlookup
  have hb := (Scopes.get?_of_lookup hlookup).1
  have hb' := (Scopes.get?_of_lookup hlookup').1
  rw [Scopes.attempt_of_lookup hlookup', followed, hb', Option.any_some]
  cases hlin : b'.isLinear with
  | true =>
    have hmade' := hmove (h.bound hb hb' hlin).2 hmade
    rw [if_pos rfl, h.outsideLoop, hin, hmade']
    exact .inl ⟨rfl, rfl, h.setState id state⟩
  | false => exact .inr ⟨rfl, rfl, h.setState_free hb' hlin state⟩

theorem mirrors_settle (h : Mirrors σ c' g i) {name : String} {pos : Span}
    {move : Binding → Except Violation BindingState} (hmove : ByState move) (event : Event)
    (hfound : (settle c (g.scopes.attempt name pos move) event g).found = []) :
    Mirrors σ c' (settle c (g.scopes.attempt name pos move) event g)
      (settle c' (i.scopes.attempt name pos move) event i) := by
  rcases settle_cases c event g with ⟨heq, hfree⟩ | ⟨v, heq, _⟩ | ⟨id, b, state, hlookup, _, hin, hmade, heq⟩
  · rw [heq, attempt_untracked h.scopes hfree]
    exact h
  · rw [heq] at hfound
    exact absurd hfound (report_found c v g)
  · rw [heq]
    rcases attempt_cases h.scopes hmove hlookup hin hmade with ⟨_, hattempt, hscopes⟩ | ⟨_, hattempt, hscopes⟩
    · rw [hattempt]
      refine ⟨hscopes, ?_, h.clean⟩
      show i.regions = g.regions.map (Region.restrict (followed (i.scopes.setState id state)))
      rw [followed_of_skeleton (Scopes.skeleton_setState ..)]
      exact h.regions
    · rw [hattempt]
      exact ⟨hscopes, h.regions, h.clean⟩

/-! ### Borrows -/

theorem mayShare_mono {kind : RefKind} {linear linear' shareable : Bool} {r : Region} {ref : Reference}
    (hlinear : linear' = true → linear = true) (L : BindingId → Bool)
    (h : mayShare kind linear shareable r ref = true) :
    mayShare kind linear' shareable (r.restrict L) (ref.restrict L) = true := by
  cases linear <;> cases linear' <;> simp_all [mayShare, Region.restrict, Reference.restrict]

/-- A reference is recorded in both. It freezes in the copy what the copy follows. -/
theorem Mirrors.attach (h : Mirrors σ c' g i) {s t : Scopes} (hscopes : Mirrored σ c' s t)
    (hskel : t.skeleton = i.scopes.skeleton) (kind : RefKind) (name : String) (id : BindingId) (region : String)
    (pos : Span) {froze froze' : Bool} (hfroze : froze' = (froze && followed i.scopes id)) :
    Mirrors σ c' (attach kind name id region pos froze {g with scopes := s})
      (attach kind name id region pos froze' {i with scopes := t}) := by
  refine ⟨hscopes, ?_, h.clean⟩
  show i.regions.attach region _ = (g.regions.attach region _).map (Region.restrict (followed t))
  rw [followed_of_skeleton hskel, Regions.attach_restrict, ← h.regions, Reference.restrict, hfroze]

theorem mirrors_borrowNamed (h : Mirrors σ c' g i) (kind : RefKind) (name region : String) (pos : Span)
    (shareable : Bool) (hfound : (borrowNamed c kind name region pos shareable g).found = []) :
    Mirrors σ c' (borrowNamed c kind name region pos shareable g)
      (borrowNamed c' kind name region pos shareable i) := by
  cases hlookup : g.scopes.lookup name with
  | none =>
    simp only [borrowNamed, hlookup, h.scopes.lookup_none hlookup]
    exact h
  | some e =>
    obtain ⟨id, b⟩ := e
    obtain ⟨b', hlookup', _⟩ := h.scopes.lookup hlookup
    have hb := (Scopes.get?_of_lookup hlookup).1
    have hb' := (Scopes.get?_of_lookup hlookup').1
    have href' : i.regions.referenceTo id = (g.regions.referenceTo id).map fun e =>
        (e.1.restrict (followed i.scopes), e.2.restrict (followed i.scopes)) := by
      rw [h.regions]
      exact Regions.referenceTo_restrict
    rw [borrowNamed_of_lookup c hlookup] at hfound ⊢
    rw [borrowNamed_of_lookup c' hlookup']
    have hspec := borrowBinding_spec c kind name id region pos shareable g
    generalize borrowBinding c kind name id region pos shareable g = after at hspec hfound ⊢
    cases hspec with
    | conflict => exact absurd hfound (report_found c _ g)
    | refused => exact absurd hfound (report_found c _ g)
    | shared href hshare =>
      have hlinear : (i.scopes.get? id).any Binding.isLinear = true →
          (g.scopes.get? id).any Binding.isLinear = true := by
        rw [hb, hb']
        exact fun hlin => (h.scopes.bound hb hb' hlin).1
      simp only [borrowBinding, href', href, Option.map_some, mayShare_mono hlinear _ hshare, if_true]
      exact h.attach h.scopes rfl kind name id region pos rfl
    | taken href hfreeze =>
      simp only [borrowBinding, href', href, Option.map_none, Scopes.freeze]
      rcases Scopes.freeze_ok hlookup hfreeze with ⟨rfl, rfl, hfree⟩ | ⟨rfl, rfl, _, hin, hold⟩
      · rw [attempt_untracked h.scopes fun _ _ hlookup₁ => by rw [hlookup] at hlookup₁; cases hlookup₁; exact hfree]
        exact h.attach h.scopes rfl kind name id region pos rfl
      · have hmade : b.freeze kind pos = .ok (.frozen kind pos) := by simp only [Binding.freeze, hold]
        rcases attempt_cases h.scopes (byState_freeze kind pos) hlookup hin hmade with
          ⟨hfollowed, hattempt, hscopes⟩ | ⟨hfollowed, hattempt, hscopes⟩
        · rw [hattempt]
          exact h.attach hscopes (Scopes.skeleton_setState ..) kind name id region pos (by rw [hfollowed]; rfl)
        · rw [hattempt]
          exact h.attach hscopes rfl kind name id region pos (by rw [hfollowed]; rfl)

/-- A region is opened in both. -/
theorem Mirrors.opened (h : Mirrors σ c' g i) (name : String) (kind : RegionKind) (pos : Span) :
    Mirrors σ c' {g with regions := ⟨name, kind, pos, []⟩ :: g.regions}
      {i with regions := ⟨name, kind, pos, []⟩ :: i.regions} := by
  refine ⟨h.scopes, ?_, h.clean⟩
  show _ :: i.regions = _ :: g.regions.map _
  rw [← h.regions]
  rfl

theorem borrowExpr_of_plain {ty : Ty} (h : ty.isRef = false) (kind : RefKind) (target : String) (pos : Span)
    (s : State) : borrowExpr c kind target ty pos s = s := by
  cases ty with
  | ref => cases h
  | _ => rfl

theorem mirrors_borrowExpr (hσ : Specialises σ c c') (h : Mirrors σ c' g i) (kind : RefKind) (target : String)
    (ty : Ty) (pos : Span) (hfound : (borrowExpr c kind target ty pos g).found = []) :
    Mirrors σ c' (borrowExpr c kind target ty pos g) (borrowExpr c' kind target (σ ty) pos i) := by
  by_cases href : ty.isRef = true
  · obtain ⟨k, region, referent, rfl⟩ := Ty.eq_ref_of_isRef href
    rw [hσ.ref, borrowExpr_ref, borrowExpr_ref] at *
    cases henter : enterStatement region pos g with
    | error v =>
      rw [henter] at hfound
      exact absurd hfound (report_found c v g)
    | ok t =>
      rw [henter] at hfound
      have hget := h.get? region
      rcases enterStatement_ok henter with ⟨rfl, r, hr, hkind⟩ | ⟨hnone, rfl⟩
      · have henter' : enterStatement region pos i = .ok i := by
          simp only [enterStatement, hget, hr, Option.map_some, Option.any_some, Region.restrict, hkind,
            beq_self_eq_true, if_true]
        rw [henter']
        exact mirrors_borrowNamed h kind target region pos true hfound
      · have henter' : enterStatement region pos i =
            .ok {i with regions := ⟨region, .statement, pos, []⟩ :: i.regions} := by
          simp [enterStatement, Regions.enter, hget, hnone, Except.map]
        rw [henter']
        exact mirrors_borrowNamed (h.opened region .statement pos) kind target region pos true hfound
  · have hplain : ty.isRef = false := by simpa using href
    rw [borrowExpr_of_plain hplain, borrowExpr_of_plain ((hσ.isRef ty).trans hplain)]
    exact h

/-! ### Actions -/

theorem mirrors_act (hσ : Specialises σ c c') (h : Mirrors σ c' g i) (hg : Honest g) {a a' : Action}
    (ha : Translated (.retyping σ) a a') (hfound : (act c a g).found = []) : Mirrors σ c' (act c a g) (act c' a' i) := by
  cases ha with
  | consume name pos => exact mirrors_settle h (byState_consume pos) _ hfound
  | read name reads pos =>
    simp only [act, hσ.settings] at hfound ⊢
    exact mirrors_settle h (byState_read _ pos) _ hfound
  | overwrite name pos => exact mirrors_settle h (byState_overwrite pos) _ hfound
  | borrow kind target ty pos => exact mirrors_borrowExpr hσ h kind target ty pos hfound
  | live ty name pos => exact mirrors_requireLive hσ h hg ty pos name hfound
  | outlive name ty pos => exact mirrors_requireOutlives hσ h hg ty pos name hfound
  | outlast region ty name pos => exact mirrors_requireOutlasts hσ h hg ty pos region name hfound
  | ownRegions ty name pos =>
    apply mirrors_reportEscapes h hg _ name pos hfound
    simp only [hσ.regions, h.isFunctionRegion]
  | allConsumed pos => exact mirrors_allConsumed h pos hfound
  | forbid ty => exact mirrors_forbidLinear hσ h ty _ _ hfound
  | refuse => exact absurd hfound (report_found c _ g)

theorem mirrors_perform (hσ : Specialises σ c c') {acts acts' : List Action}
    (hacts : List.Forall₂ (Translated (.retyping σ)) acts acts') (h : Mirrors σ c' g i) (hg : Honest g)
    (hfound : (perform c acts g).found = []) : Mirrors σ c' (perform c acts g) (perform c' acts' i) := by
  induction hacts generalizing g i with
  | nil => exact h
  | @cons a a' acts acts' ha _ ih =>
    have hfirst : (act c a g).found = [] := (grown_perform c acts (act c a g)).eq_nil hfound
    exact ih (mirrors_act hσ h hg ha hfirst) ((grown_act c a g).honest hg) hfound

/-! ### Closing regions -/

/-- The borrows of regions that are no longer open end in both. -/
theorem Mirrors.released (h : Mirrors σ c' g i) (closed rest : List Region) {g₁ i₁ : State}
    (hg : g₁.scopes = g.scopes.thawAll (closed.flatMap Region.frozen)) (hgr : g₁.regions = rest)
    (hi : i₁.scopes = i.scopes.thawAll ((closed.map (Region.restrict (followed i.scopes))).flatMap Region.frozen))
    (hir : i₁.regions = rest.map (Region.restrict (followed i.scopes))) (hclean : i₁.found = i.found) :
    Mirrors σ c' g₁ i₁ := by
  refine ⟨?_, ?_, hclean.trans h.clean⟩
  · rw [hg, hi]
    apply h.scopes.thawAll
    exact fun id => Regions.mem_frozen_restrict
  · have hskel : i₁.scopes.skeleton = i.scopes.skeleton := by rw [hi, Scopes.skeleton_thawAll]
    rw [hgr, hir, followed_of_skeleton hskel]

theorem mirrors_closeStatements (h : Mirrors σ c' g i) (base : Nat) (pos : Span) :
    Mirrors σ c' (closeStatements base pos g) (closeStatements base pos i) := by
  have hclose : i.regions.closeStatements base =
      ((g.regions.closeStatements base).1.map (Region.restrict (followed i.scopes)),
        (g.regions.closeStatements base).2.map (Region.restrict (followed i.scopes))) := by
    rw [h.regions]
    exact Regions.closeStatements_map (g := Region.restrict _) (fun _ => rfl) base g.regions
  apply h.released _ _ (closeStatements_scopes ..) (closeStatements_regions ..)
  · rw [closeStatements_scopes, hclose]
  · rw [closeStatements_regions, hclose]
  · exact closeStatements_found ..

theorem mirrors_closeRegion (h : Mirrors σ c' g i) (pos : Span) :
    Mirrors σ c' (closeRegion pos g) (closeRegion pos i) := by
  cases hr : g.regions with
  | nil =>
    have hr' : i.regions = [] := by rw [h.regions, hr]; rfl
    simp only [closeRegion, hr, hr']
    exact h
  | cons r outer =>
    have hr' : i.regions = r.restrict (followed i.scopes) :: outer.map (Region.restrict (followed i.scopes)) := by
      rw [h.regions, hr]
      rfl
    rw [closeRegion_eq hr, closeRegion_eq hr']
    apply h.released [r] outer <;> simp [release_eq, log]

theorem mirrors_closing (hσ : Specialises σ c c') {acts acts' : List Action}
    (hacts : List.Forall₂ (Translated (.retyping σ)) acts acts') (h : Mirrors σ c' g i) (hg : Honest g) (pos : Span)
    (hfound : (closing c pos acts g).found = []) :
    Mirrors σ c' (closing c pos acts g) (closing c' pos acts' i) := by
  have hacted : (perform c acts g).found = [] := by rwa [closing, closeStatements_found] at hfound
  rw [closing, closing, h.length]
  exact mirrors_closeStatements (mirrors_perform hσ hacts h hg hacted) _ pos

/-! ### Scopes -/

/-- What is defined where references lead to bindings in scope. -/
theorem mirrors_define (hσ : Specialises σ c c') (h : Mirrors σ c' g i)
    (hvalid : ∀ ref ∈ g.regions.refs, ∃ b, g.scopes.get? ref.binding = some b) (name : String) (ty : Ty)
    (pos : Span) : Mirrors σ c' (define c name ty pos g) (define c' name (σ ty) pos i) := by
  refine ⟨?_, ?_, h.clean⟩
  · apply h.scopes.define
    · simp only [Binding.blank, retyped, h.length]
    · simp only [Binding.isLinear, TypeTable.isLinear_classify]
      exact hσ.linear
    · rfl
  · show i.regions = g.regions.map _
    rw [h.regions]
    apply Regions.restrict_congr
    intro ref href
    obtain ⟨b, hb⟩ := hvalid ref href
    obtain ⟨b', hb', _⟩ := h.scopes.get? hb
    show followed i.scopes ref.binding = followed (i.scopes.define _).2 ref.binding
    rw [followed, followed, Scopes.get?_define, if_neg]
    intro hid
    rw [hid, Scopes.get?_define_fresh] at hb'
    cases hb'

theorem mirrors_pushScope (h : Mirrors σ c' g i) : Mirrors σ c' (pushScope g) (pushScope i) := by
  refine ⟨h.scopes.push, ?_, h.clean⟩
  have hsame : followed i.scopes.push = followed i.scopes := by
    funext id
    simp only [followed, Scopes.get?_push]
  show i.regions = g.regions.map (Region.restrict (followed i.scopes.push))
  rw [hsame]
  exact h.regions

/-- A scope is closed where no reference leads into it. -/
theorem mirrors_popScope (h : Mirrors σ c' g i)
    (hvalid : ∀ ref ∈ g.regions.refs, ∃ b, g.scopes.pop.2.get? ref.binding = some b) :
    Mirrors σ c' (popScope g) (popScope i) := by
  refine ⟨h.scopes.pop, ?_, h.clean⟩
  show i.regions = g.regions.map (Region.restrict (followed i.scopes.pop.2))
  rw [h.regions]
  apply Regions.restrict_congr
  intro ref href
  obtain ⟨b, hb⟩ := hvalid ref href
  obtain ⟨b', hb', _⟩ := h.scopes.pop.get? hb
  rw [Scopes.get?_pop] at hb'
  rw [followed, followed, Scopes.get?_pop]
  split at hb'
  · rename_i hid
    rw [if_pos hid]
  · cases hb'

/-- What is not left behind by the program is not left behind by the copy. -/
theorem Mirrored.exitViolations {s t : Scopes} (h : Mirrored σ c' s t) {pos : Span}
    (hnone : s.pop.1.exitViolations pos = []) : t.pop.1.exitViolations pos = [] := by
  simp only [Frame.exitViolations, Frame.bindings, List.map_eq_nil_iff, List.filter_eq_nil_iff,
    List.mem_reverse] at hnone ⊢
  intro b' hb' hlive
  obtain ⟨id, hget, hframe⟩ := Scopes.mem_pop.mp hb'
  obtain ⟨b, hb, hlive⟩ := h.isLive hget hlive
  exact hnone b (Scopes.mem_pop.mpr ⟨id, hb, hframe.trans h.length⟩) hlive

theorem mirrors_leaveScope (h : Mirrors σ c' g i)
    (hvalid : ∀ ref ∈ g.regions.refs, ∃ b, g.scopes.pop.2.get? ref.binding = some b) (reach : Reach) (pos : Span)
    (hfound : (leaveScope c reach pos g).found = []) :
    Mirrors σ c' (leaveScope c reach pos g) (leaveScope c' reach pos i) := by
  have hclean : g.found = [] := (grown_leaveScope c reach pos g).eq_nil hfound
  have hpop := mirrors_popScope h hvalid
  by_cases hreach : reach = .continues
  · simp only [leaveScope, hreach, halted_of_clean hclean, halted_of_clean h.clean, and_self, if_true] at hfound ⊢
    have hnone := reportAll_silent hfound
    rw [hnone, h.scopes.exitViolations hnone]
    exact hpop
  · simp only [leaveScope, hreach, false_and, if_false]
    exact hpop

/-! ### Borrow blocks -/

theorem takeBorrow_eq (kind : RefKind) (source region : Ident Span) (s : State) :
    takeBorrow c kind source region s = borrowNamed c kind source.name region.name source.pos false s := rfl

theorem mirrors_lend (h : Mirrors σ c' g i) (kind : RefKind) (source region : Ident Span)
    (hfound : (lend c kind source region g).found = []) :
    Mirrors σ c' (lend c kind source region g) (lend c' kind source region i) ∧
      (openBorrow c region g).1 = true ∧ (openBorrow c' region i).1 = true := by
  rcases openBorrow_cases c region g with ⟨v, hopen⟩ | ⟨hnone, hopen⟩
  · rw [lend, hopen] at hfound
    exact absurd hfound (report_found c v g)
  · have hnone' : i.regions.get? region.name = none := by rw [h.get?, hnone]; rfl
    have hopen' : openBorrow c' region i =
        (true, {i with regions := ⟨region.name, .explicit, region.pos, []⟩ :: i.regions}) := by
      simp only [openBorrow, Regions.enter, hnone']
    refine ⟨?_, by rw [hopen], by rw [hopen']⟩
    simp only [lend, hopen, hopen', if_true, takeBorrow_eq] at hfound ⊢
    exact mirrors_borrowNamed (h.opened ..) kind source.name region.name source.pos false hfound

theorem Mirrored.aliasTy (hσ : Specialises σ c c') {s t : Scopes} (h : Mirrored σ c' s t) (kind : RefKind)
    (source region : Ident Span) : aliasTy kind source region t = σ (aliasTy kind source region s) := by
  unfold Check.aliasTy
  rw [hσ.ref]
  cases hlookup : s.lookup source.name with
  | none =>
    rw [h.lookup_none hlookup]
    simp only [Option.map_none, Option.getD_none, Ty.unit, hσ.prim]
  | some e =>
    obtain ⟨id, b⟩ := e
    obtain ⟨b', hlookup', hblank⟩ := h.lookup hlookup
    have hty : b'.ty = σ b.ty := (congrArg Binding.ty hblank :)
    simp only [hlookup', Option.map_some, Option.getD_some, hty]

/-! ### Joins -/

section Join
variable {outcomes outcomes' : List Outcome}

/-- The same ends are reached, and at each the copy mirrors the program. -/
def MirroredEnds (σ : Ty → Ty) (c' : Context) : List Outcome → List Outcome → Prop :=
  List.Forall₂ fun o o' => Option.Rel (Mirrored σ c') o.exit o'.exit

theorem MirroredEnds.reached (h : MirroredEnds σ c' outcomes outcomes') :
    List.Forall₂ (fun e e' => Mirrored σ c' e.2 e'.2) (reached outcomes) (reached outcomes') := by
  induction h with
  | nil => exact .nil
  | @cons o o' outcomes outcomes' ho _ ih =>
    obtain ⟨pos, exit⟩ := o
    obtain ⟨pos', exit'⟩ := o'
    cases ho with
    | none => exact ih
    | some ho => exact .cons ho ih

/-- A binding that the copy follows is consumed at the same ends. -/
theorem consumedAt_reached (h : Mirrored σ c' g.scopes i.scopes) (hends : MirroredEnds σ c' outcomes outcomes')
    (hskel : ∀ e ∈ Check.reached outcomes, e.2.skeleton = g.scopes.skeleton) {id : BindingId} {b' : Binding}
    (hb' : i.scopes.get? id = some b') (hlin : b'.isLinear = true) :
    (Check.reached outcomes').map (fun e => consumedAt id e.2) =
      (Check.reached outcomes).map fun e => consumedAt id e.2 := by
  have hreached := hends.reached
  generalize Check.reached outcomes = exits at hreached hskel ⊢
  generalize Check.reached outcomes' = exits' at hreached ⊢
  induction hreached with
  | nil => rfl
  | @cons e e' exits exits' he _ ih =>
    have hrest := ih fun e he => hskel e (List.mem_cons_of_mem _ he)
    rw [List.map_cons, List.map_cons, hrest]
    have hskel' : e'.2.skeleton = i.scopes.skeleton := by
      rw [he.skeleton, hskel e List.mem_cons_self, h.skeleton]
    obtain ⟨a', ha', hblank⟩ := Scopes.get?_of_skeleton hskel' hb'
    obtain ⟨a, ha, _, hstate⟩ := he.source ha' ((Binding.isLinear_of_blank hblank).trans hlin)
    simp only [consumedAt, ha, ha', Option.map_some, hstate]

theorem merged_congr {exits exits' : List (Span × Scopes)} {id : BindingId}
    (h : exits'.map (fun e => consumedAt id e.2) = exits.map fun e => consumedAt id e.2) (state : BindingState) :
    merged exits' id state = merged exits id state := by
  have hfind : ∀ l : List (Span × Scopes), l.findSome? (fun e => consumedAt id e.2) =
      (l.map fun e => consumedAt id e.2).findSome? fun pos => pos := by
    intro l
    rw [List.findSome?_map]
    rfl
  rw [merged, merged, hfind, hfind, h]

theorem disagree_congr {exits exits' : List (Span × Scopes)} {id : BindingId}
    (h : exits'.map (fun e => consumedAt id e.2) = exits.map fun e => consumedAt id e.2)
    (hdis : Disagree exits' id) : Disagree exits id := by
  have hmem : ∀ (l : List (Span × Scopes)) (p : Option Span → Prop),
      (∃ e ∈ l, p (consumedAt id e.2)) ↔ ∃ pos ∈ l.map fun e => consumedAt id e.2, p pos := by
    intro l p
    simp
  obtain ⟨hsome, hnone⟩ := hdis
  constructor
  · rw [hmem exits fun pos => pos.isSome = true, ← h, ← hmem]
    exact hsome
  · rw [hmem exits fun pos => pos.isSome = false, ← h, ← hmem]
    exact hnone

/-- The same control flow, and states that mirror each other. -/
structure Parallel (σ : Ty → Ty) (c' : Context) (run run' : Reach × State) : Prop where
  reach : run'.1 = run.1
  mirrors : Mirrors σ c' run.2 run'.2

theorem parallel_join (h : Mirrors σ c' g i) (hends : MirroredEnds σ c' outcomes outcomes')
    (hskel : ∀ e ∈ Check.reached outcomes, e.2.skeleton = g.scopes.skeleton)
    (hfound : (join c outcomes g).2.found = []) : Parallel σ c' (join c outcomes g) (join c' outcomes' i) := by
  have hnil : Check.reached outcomes' = [] ↔ Check.reached outcomes = [] := by
    rw [← List.length_eq_zero_iff, ← List.length_eq_zero_iff, hends.reached.length_eq]
  by_cases hr : Check.reached outcomes = []
  · rw [join_of_none c g hr, join_of_none c' i (hnil.mpr hr)]
    exact ⟨rfl, h⟩
  · have hr' : Check.reached outcomes' ≠ [] := fun hr' => hr (hnil.mp hr')
    refine ⟨by rw [join_of_some c g hr, join_of_some c' i hr'], ?_, ?_, ?_⟩
    · obtain ⟨hgskel, hgbar, _⟩ := @join_frame c outcomes g
      obtain ⟨hiskel, hibar, _⟩ := @join_frame c' outcomes' i
      apply h.scopes.of_states hgskel hgbar hiskel hibar
      intro id b b' hb hb' hlin
      rw [get?_join c g hr] at hb
      rw [get?_join c' i hr'] at hb'
      obtain ⟨a, ha, rfl⟩ := Option.map_eq_some_iff.mp hb
      obtain ⟨a', ha', rfl⟩ := Option.map_eq_some_iff.mp hb'
      have hlin' : a'.isLinear = true := by
        by_contra hfree
        rw [if_neg hfree] at hlin
        exact hfree hlin
      obtain ⟨hlina, hstate⟩ := h.scopes.bound ha ha' hlin'
      rw [if_pos hlin', if_pos hlina]
      show merged _ id a'.state = merged _ id a.state
      rw [hstate, merged_congr (consumedAt_reached h.scopes hends hskel ha' hlin')]
    · obtain ⟨_, _, hgregions, _⟩ := @join_frame c outcomes g
      obtain ⟨hiskel, _, hiregions, _⟩ := @join_frame c' outcomes' i
      rw [hgregions, hiregions, followed_of_skeleton hiskel]
      exact h.regions
    · rw [List.eq_nil_iff_forall_not_mem]
      intro v hv
      rcases mem_join c' hv with hv | ⟨id, b', hb', hlin, hdis, _⟩
      · rw [h.clean] at hv
        cases hv
      · obtain ⟨b, hb, hlinb, _⟩ := h.scopes.source hb' hlin
        exact agree_of_join c hfound hb hlinb (disagree_congr (consumedAt_reached h.scopes hends hskel hb' hlin) hdis)

end Join

end Check

end Linearity
