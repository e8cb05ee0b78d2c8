import Linearity.Proofs.Path
import Linearity.Proofs.View

/-! Steps that treat a binding by what is seen of it.

`Faithful F` says of a step `F` that what it does to a binding depends on the view of
that binding alone, and that whatever `F` reports it reports, in some form, in every
state that looks the same to some binding. It holds of all that a path is made of, and
so of its run (`faithful_run`). -/
namespace Linearity
namespace Check

/-- A step that treats each binding by its view, and reports nothing that it would not
also report in any state that looks the same to some binding. -/
structure Faithful (F : State → State) : Prop where
  grown : ∀ s, Grown s (F s)
  view : ∀ {id s p}, s.view id = p.view id → (F s).view id = (F p).view id
  found : ∀ {s v}, v ∈ (F s).found → v ∈ s.found ∨ v.isDisagreement = false ∧
    ∃ id, ∀ p, Honest p → s.view id = p.view id → (F p).found ≠ []

namespace Faithful
variable {F G : State → State}

theorem skip : Faithful fun s => s := ⟨fun s => .refl s, fun h => h, .inl⟩

theorem seq (hF : Faithful F) (hG : Faithful G) : Faithful fun s => G (F s) := by
  refine ⟨fun s => (hF.grown s).trans (hG.grown _), fun h => hG.view (hF.view h), fun {s v} hv => ?_⟩
  rcases hG.found hv with hv | ⟨hproper, id, hall⟩
  · rcases hF.found hv with hv | ⟨hproper, id, hall⟩
    · exact .inl hv
    · exact .inr ⟨hproper, id, fun p hp h => (hG.grown _).ne_nil (hall p hp h)⟩
  · exact .inr ⟨hproper, id, fun p hp h => hall _ ((hF.grown p).honest hp) (hF.view h)⟩

/-- A step that reports nothing. -/
theorem of_silent (hfound : ∀ s, (F s).found = s.found) (hescaped : ∀ s, (F s).escaped = s.escaped)
    (hview : ∀ {id s p}, s.view id = p.view id → (F s).view id = (F p).view id) : Faithful F :=
  ⟨fun s => .of_same (hfound s) (hescaped s), hview, fun {s _} hv => .inl (hfound s ▸ hv)⟩

/-- A step that does nothing but report. -/
theorem of_still (hgrown : ∀ s, Grown s (F s)) (hscopes : ∀ s, (F s).scopes = s.scopes)
    (hregions : ∀ s, (F s).regions = s.regions)
    (hfound : ∀ {s v}, v ∈ (F s).found → v ∈ s.found ∨ v.isDisagreement = false ∧
      ∃ id, ∀ p, Honest p → s.view id = p.view id → (F p).found ≠ []) : Faithful F := by
  refine ⟨hgrown, fun {id s p} h => ?_, hfound⟩
  rw [view_of_same (hscopes s) (hregions s), view_of_same (hscopes p) (hregions p), h]

end Faithful

variable (c : Context)

/-! ### Moves -/

/-- A move that depends on the binding's state only, and is not wrong by a join. -/
structure Regular (move : Binding → Except Violation BindingState) : Prop where
  uniform : ∀ {b b'}, b.state.faded = b'.state.faded →
    (move b).toOption.map BindingState.faded = (move b').toOption.map BindingState.faded
  proper : ∀ {b v}, move b = .error v → v.isDisagreement = false

theorem regular_consume (pos : Span) : Regular fun b => b.consume pos := by
  constructor
  · intro b b' h
    unfold Binding.consume
    cases hb : b.state <;> cases hb' : b'.state <;> simp_all [BindingState.faded, Except.toOption]
  · intro b v h
    unfold Binding.consume at h
    split at h <;> cases h <;> rfl

theorem regular_read (reads : LeafReads) (pos : Span) : Regular fun b => b.read reads pos := by
  constructor
  · intro b b' h
    unfold Binding.read
    cases hb : b.state <;> cases hb' : b'.state <;> simp_all [BindingState.faded, Except.toOption]
    grind
  · intro b v h
    unfold Binding.read at h
    split at h
    · cases h
    · split at h <;> cases h
      rfl
    · cases h
      rfl

theorem regular_freeze (kind : RefKind) (pos : Span) : Regular fun b => b.freeze kind pos := by
  constructor
  · intro b b' h
    unfold Binding.freeze
    cases hb : b.state <;> cases hb' : b'.state <;> simp_all [BindingState.faded, Except.toOption]
  · intro b v h
    unfold Binding.freeze at h
    split at h <;> cases h <;> rfl

theorem regular_overwrite (pos : Span) : Regular fun b => b.overwrite pos := by
  constructor
  · intro b b' h
    unfold Binding.overwrite
    cases hb : b.state <;> cases hb' : b'.state <;> simp_all [BindingState.faded, Except.toOption]
  · intro b v h
    unfold Binding.overwrite at h
    split at h <;> cases h <;> rfl

section Moves
variable {id : BindingId} {s p : State} {name : String} {pos : Span}
  {move : Binding → Except Violation BindingState}

theorem view_setState_ne {i : BindingId} (hne : i ≠ id) (state : BindingState) (s : State) :
    State.view id {s with scopes := s.scopes.setState i state} = s.view id := by
  refine view_ext (Scopes.skeleton_setState ..) (Scopes.barrier_setState ..) rfl ?_
  dsimp only
  rw [Scopes.get?_setState, if_neg hne]

theorem view_setState {b b' : Binding} (h : s.view id = p.view id) (hb : s.scopes.get? id = some b)
    (hb' : p.scopes.get? id = some b') {state state' : BindingState} (hstate : state.faded = state'.faded) :
    State.view id {s with scopes := s.scopes.setState id state} =
      State.view id {p with scopes := p.scopes.setState id state'} := by
  have hskel := skeleton_of_view h
  have hbar := barrier_of_view h
  have hregions := regions_of_view h
  refine view_ext ?_ hbar hregions ?_ <;> dsimp only
  · rw [Scopes.skeleton_setState, Scopes.skeleton_setState, hskel]
  · rw [Scopes.get?_setState, Scopes.get?_setState, if_pos rfl, if_pos rfl, hb, hb']
    exact congrArg some hstate

/-- A move of another binding is not seen. -/
theorem view_settle_elsewhere {i : BindingId} {b : Binding} (hlookup : s.scopes.lookup name = some (i, b))
    (hne : i ≠ id) (event : Event) :
    (settle c (s.scopes.attempt name pos move) event s).view id = s.view id := by
  have hspec := Scopes.attempt_spec s.scopes name pos move
  generalize s.scopes.attempt name pos move = outcome at hspec
  cases hspec with
  | untracked => rfl
  | barred => exact view_of_same (report_scopes ..) (report_regions ..)
  | wrong => exact view_of_same (report_scopes ..) (report_regions ..)
  | made hlookup' =>
    rw [hlookup] at hlookup'
    cases hlookup'
    exact view_setState_ne hne _ s

/-- What the move of a linear binding inside the loop comes to, in two states that look the
same to it. -/
theorem attempt_of_view (pos : Span) (hmove : Regular move) (h : s.view id = p.view id) {b b' : Binding}
    (hb : s.scopes.lookup name = some (id, b)) (hb' : p.scopes.lookup name = some (id, b'))
    (hlin : b.isLinear = true) (hin : s.scopes.outsideLoop id = false) :
    (∃ v v', s.scopes.attempt name pos move = (.error v, s.scopes) ∧
      p.scopes.attempt name pos move = (.error v', p.scopes)) ∨
    ∃ state state', state.faded = state'.faded ∧
      s.scopes.attempt name pos move = (.ok (some id), s.scopes.setState id state) ∧
      p.scopes.attempt name pos move = (.ok (some id), p.scopes.setState id state') := by
  obtain ⟨b₁, hget, hblank, hfaded⟩ := get?_of_view h (Scopes.get?_of_lookup hb).1
  rw [(Scopes.get?_of_lookup hb').1] at hget
  cases hget
  have hlin' : b'.isLinear = true := (Binding.isLinear_of_blank hblank).trans hlin
  have hin' : p.scopes.outsideLoop id = false := outsideLoop_of_view h id ▸ hin
  have huniform := hmove.uniform hfaded
  rw [Scopes.attempt_of_lookup hb, Scopes.attempt_of_lookup hb', if_pos hlin, if_pos hlin', hin, hin']
  cases hs : move b with
  | error v =>
    cases hp : move b' with
    | error v' => exact .inl ⟨v, v', rfl, rfl⟩
    | ok state' => simp [hs, hp, Except.toOption] at huniform
  | ok state =>
    cases hp : move b' with
    | error v' => simp [hs, hp, Except.toOption] at huniform
    | ok state' =>
      simp only [hs, hp, Except.toOption, Option.map_some, Option.some.injEq] at huniform
      exact .inr ⟨state, state', huniform.symm, rfl, rfl⟩

theorem view_settle (hmove : Regular move) (h : s.view id = p.view id) (event : Event) :
    (settle c (s.scopes.attempt name pos move) event s).view id =
      (settle c (p.scopes.attempt name pos move) event p).view id := by
  cases hb : s.scopes.lookup name with
  | none =>
    rw [Scopes.attempt_of_lookup_none hb, Scopes.attempt_of_lookup_none (lookup_none_of_view h hb)]
    exact h
  | some e =>
    obtain ⟨i, b⟩ := e
    obtain ⟨b', hb', hblank⟩ := lookup_of_view h hb
    by_cases hi : i = id
    · subst hi
      have hlin : b'.isLinear = b.isLinear := Binding.isLinear_of_blank hblank
      have hout := outsideLoop_of_view h i
      cases hl : b.isLinear with
      | false =>
        rw [Scopes.attempt_of_lookup hb, Scopes.attempt_of_lookup hb', hlin, hl]
        exact h
      | true =>
        cases ho : s.scopes.outsideLoop i with
        | true =>
          rw [Scopes.attempt_of_lookup hb, Scopes.attempt_of_lookup hb', hlin, hl, ← hout, ho]
          exact (view_of_same (report_scopes ..) (report_regions ..)).trans
            (h.trans (view_of_same (report_scopes ..) (report_regions ..)).symm)
        | false =>
          rcases attempt_of_view pos hmove h hb hb' hl ho with
            ⟨v, v', hs, hp⟩ | ⟨state, state', hstate, hs, hp⟩ <;> rw [hs, hp]
          · exact (view_of_same (report_scopes ..) (report_regions ..)).trans
              (h.trans (view_of_same (report_scopes ..) (report_regions ..)).symm)
          · exact view_setState h (Scopes.get?_of_lookup hb).1 (Scopes.get?_of_lookup hb').1 hstate
    · rw [view_settle_elsewhere c hb hi, view_settle_elsewhere c hb' hi, h]

theorem faithful_settle (hmove : Regular move) (event : Event) :
    Faithful fun s => settle c (s.scopes.attempt name pos move) event s := by
  refine ⟨fun s => grown_settle .., fun h => view_settle c hmove h event, fun {s v} hv => ?_⟩
  have hspec := Scopes.attempt_spec s.scopes name pos move
  generalize houtcome : s.scopes.attempt name pos move = outcome at hspec
  rw [houtcome] at hv
  cases hspec with
  | untracked => exact .inl hv
  | made => exact .inl hv
  | @barred i b hlookup hlin hout =>
    rcases mem_report c hv with hv | rfl
    · exact .inl hv
    · refine .inr ⟨rfl, i, fun p _ h => ?_⟩
      obtain ⟨b', hb', hblank⟩ := lookup_of_view h hlookup
      have hlin' : b'.isLinear = true := (Binding.isLinear_of_blank hblank).trans hlin
      rw [Scopes.attempt_of_lookup hb', if_pos hlin', if_pos (outsideLoop_of_view h i ▸ hout)]
      exact report_found c _ _
  | @wrong i b w hlookup hlin hin hwrong =>
    rcases mem_report c hv with hv | rfl
    · exact .inl hv
    · refine .inr ⟨hmove.proper hwrong, i, fun p _ h => ?_⟩
      obtain ⟨b', hb', hblank⟩ := lookup_of_view h hlookup
      rcases attempt_of_view pos hmove h hlookup hb' hlin hin with
        ⟨v, v', _, hp⟩ | ⟨state, state', _, hs, _⟩
      · rw [hp]
        exact report_found c _ _
      · rw [hs] at houtcome
        cases houtcome

end Moves

/-! ### Borrows -/

section Borrows
variable {id : BindingId} {s p : State}

theorem view_attach (h : s.view id = p.view id) (kind : RefKind) (name : String) (i : BindingId)
    (region : String) (pos : Span) (froze : Bool) :
    (attach kind name i region pos froze s).view id = (attach kind name i region pos froze p).view id := by
  have hskel := skeleton_of_view h
  have hbar := barrier_of_view h
  have hstate := state_of_view h
  refine view_ext hskel hbar ?_ hstate
  show Regions.about id (Regions.attach region _ s.regions) = Regions.about id (Regions.attach region _ p.regions)
  rw [Regions.about_attach, Regions.about_attach, regions_of_view h]

theorem view_attach_ne {i : BindingId} (hne : i ≠ id) (kind : RefKind) (name region : String) (pos : Span)
    (froze : Bool) (s : State) : (attach kind name i region pos froze s).view id = s.view id := by
  refine view_ext rfl rfl ?_ rfl
  show Regions.about id (Regions.attach region ⟨kind, i, pos, froze⟩ s.regions) = _
  rw [Regions.about_attach, if_neg hne]

/-- A borrow of another binding is not seen. -/
theorem view_borrowBinding_elsewhere {i : BindingId} {b : Binding} {name : String}
    (hlookup : s.scopes.lookup name = some (i, b)) (hne : i ≠ id) (kind : RefKind) (region : String)
    (pos : Span) (shareable : Bool) :
    (borrowBinding c kind name i region pos shareable s).view id = s.view id := by
  have hspec := borrowBinding_spec c kind name i region pos shareable s
  generalize borrowBinding c kind name i region pos shareable s = t at hspec ⊢
  cases hspec with
  | conflict => exact view_of_same (report_scopes ..) (report_regions ..)
  | refused => exact view_of_same (report_scopes ..) (report_regions ..)
  | shared => exact view_attach_ne hne ..
  | taken _ hfreeze =>
    rw [view_attach_ne hne]
    rcases Scopes.freeze_ok hlookup hfreeze with ⟨_, rfl, _⟩ | ⟨_, rfl, _⟩
    · rfl
    · exact view_setState_ne hne ..

theorem referenceTo_of_view (h : s.view id = p.view id) {holder : Region} {prior : Reference}
    (href : s.regions.referenceTo id = some (holder, prior)) :
    ∃ holder', p.regions.referenceTo id = some (holder', prior) ∧ holder'.kind = holder.kind := by
  have hmap : (p.regions.referenceTo id).map (fun e => (e.1.about id, e.2)) =
      some (holder.about id, prior) := by
    rw [← Regions.referenceTo_about, ← regions_of_view h, Regions.referenceTo_about, href]
    rfl
  obtain ⟨⟨holder', prior'⟩, href', heq⟩ := Option.map_eq_some_iff.mp hmap
  simp only [Prod.mk.injEq] at heq
  obtain ⟨habout, rfl⟩ := heq
  have hkind : (holder'.about id).kind = (holder.about id).kind := by rw [habout]
  exact ⟨holder', href', hkind⟩

theorem referenceTo_none_of_view (h : s.view id = p.view id) (href : s.regions.referenceTo id = none) :
    p.regions.referenceTo id = none := by
  have hmap : (p.regions.referenceTo id).map (fun e => (e.1.about id, e.2)) = none := by
    rw [← Regions.referenceTo_about, ← regions_of_view h, Regions.referenceTo_about, href]
    rfl
  exact Option.map_eq_none_iff.mp hmap

/-- What a borrow comes to in two states that look the same to the binding: both times it is
refused, or both times it is taken, to the same effect. -/
theorem borrowBinding_of_view (h : s.view id = p.view id) {name : String} {b b' : Binding}
    (hb : s.scopes.lookup name = some (id, b)) (hb' : p.scopes.lookup name = some (id, b'))
    (kind : RefKind) (region : String) (pos : Span) (shareable : Bool) :
    (∃ v v', v.isDisagreement = false ∧
      borrowBinding c kind name id region pos shareable s = report c v s ∧
      borrowBinding c kind name id region pos shareable p = report c v' p) ∨
    ∃ froze scopes scopes', State.view id {s with scopes} = State.view id {p with scopes := scopes'} ∧
      borrowBinding c kind name id region pos shareable s =
        attach kind name id region pos froze {s with scopes} ∧
      borrowBinding c kind name id region pos shareable p =
        attach kind name id region pos froze {p with scopes := scopes'} := by
  have hget := (Scopes.get?_of_lookup hb).1
  have hget' := (Scopes.get?_of_lookup hb').1
  have hlin : b'.isLinear = b.isLinear := by
    obtain ⟨b₁, hb₁, hblank, _⟩ := get?_of_view h hget
    rw [hget'] at hb₁
    cases hb₁
    exact Binding.isLinear_of_blank hblank
  unfold borrowBinding
  cases href : s.regions.referenceTo id with
  | some e =>
    obtain ⟨holder, prior⟩ := e
    obtain ⟨holder', href', hkind⟩ := referenceTo_of_view h href
    rw [href', hget, hget']
    have hshare : mayShare kind b'.isLinear shareable holder' prior =
        mayShare kind b.isLinear shareable holder prior := by
      unfold mayShare
      rw [hlin, hkind]
    simp only [Option.any_some, hshare]
    by_cases hmay : mayShare kind b.isLinear shareable holder prior = true
    · rw [if_pos hmay, if_pos hmay]
      exact .inr ⟨false, s.scopes, p.scopes, h, rfl, rfl⟩
    · rw [if_neg hmay, if_neg hmay]
      exact .inl ⟨.borrowConflict name prior.pos pos, _, rfl, rfl, rfl⟩
  | none =>
    rw [referenceTo_none_of_view h href]
    unfold Scopes.freeze
    cases hl : b.isLinear with
    | false =>
      rw [Scopes.attempt_of_lookup hb, Scopes.attempt_of_lookup hb', hlin, hl]
      exact .inr ⟨false, s.scopes, p.scopes, h, rfl, rfl⟩
    | true =>
      cases ho : s.scopes.outsideLoop id with
      | true =>
        rw [Scopes.attempt_of_lookup hb, Scopes.attempt_of_lookup hb', hlin, hl, ← outsideLoop_of_view h id, ho]
        exact .inl ⟨.usedInLoop name pos b.definedAt, _, rfl, rfl, rfl⟩
      | false =>
        rcases attempt_of_view pos (regular_freeze kind pos) h hb hb' hl ho with
          ⟨v, v', hs, hp⟩ | ⟨state, state', hstate, hs, hp⟩
        · have hproper : v.isDisagreement = false := by
            rw [Scopes.attempt_of_lookup hb, hl, ho] at hs
            cases hmove : b.freeze kind pos with
            | error w =>
              simp only [hmove] at hs
              cases hs
              exact (regular_freeze kind pos).proper hmove
            | ok state =>
              simp only [hmove] at hs
              cases hs
          rw [hs, hp]
          exact .inl ⟨v, v', hproper, rfl, rfl⟩
        · rw [hs, hp]
          exact .inr ⟨true, _, _, view_setState h hget hget' hstate, rfl, rfl⟩

/-- A borrow of whatever the name leads to. -/
def borrowNamed (kind : RefKind) (name region : String) (pos : Span) (shareable : Bool) (s : State) : State :=
  match s.scopes.lookup name with
  | some (id, _) => borrowBinding c kind name id region pos shareable s
  | none => s

theorem borrowNamed_of_lookup {i : BindingId} {b : Binding} {name : String}
    (hb : s.scopes.lookup name = some (i, b)) (kind : RefKind) (region : String) (pos : Span) (shareable : Bool) :
    borrowNamed c kind name region pos shareable s = borrowBinding c kind name i region pos shareable s := by
  unfold borrowNamed
  rw [hb]

theorem grown_borrowNamed (kind : RefKind) (name region : String) (pos : Span) (shareable : Bool) (s : State) :
    Grown s (borrowNamed c kind name region pos shareable s) := by
  unfold borrowNamed
  split
  · exact grown_borrowBinding ..
  · exact .refl s

theorem faithful_borrowNamed (kind : RefKind) (name region : String) (pos : Span) (shareable : Bool) :
    Faithful (borrowNamed c kind name region pos shareable) := by
  refine ⟨grown_borrowNamed c kind name region pos shareable, fun {id s p} h => ?_, fun {s v} hv => ?_⟩
  · cases hb : s.scopes.lookup name with
    | none =>
      unfold borrowNamed
      rw [hb, lookup_none_of_view h hb]
      exact h
    | some e =>
      obtain ⟨i, b⟩ := e
      obtain ⟨b', hb', _⟩ := lookup_of_view h hb
      rw [borrowNamed_of_lookup c hb, borrowNamed_of_lookup c hb']
      by_cases hi : i = id
      · subst hi
        rcases borrowBinding_of_view c h hb hb' kind region pos shareable with
          ⟨v, v', _, hs, hp⟩ | ⟨froze, scopes, scopes', hview, hs, hp⟩ <;> rw [hs, hp]
        · exact (view_of_same (report_scopes ..) (report_regions ..)).trans
            (h.trans (view_of_same (report_scopes ..) (report_regions ..)).symm)
        · exact view_attach hview ..
      · rw [view_borrowBinding_elsewhere c hb hi, view_borrowBinding_elsewhere c hb' hi, h]
  · cases hb : s.scopes.lookup name with
    | none =>
      unfold borrowNamed at hv
      rw [hb] at hv
      exact .inl hv
    | some e =>
      obtain ⟨i, b⟩ := e
      rw [borrowNamed_of_lookup c hb] at hv
      rcases borrowBinding_of_view c rfl hb hb kind region pos shareable with
        ⟨w, _, hproper, hs, _⟩ | ⟨froze, scopes, _, _, hs, _⟩
      · rw [hs] at hv
        rcases mem_report c hv with hv | rfl
        · exact .inl hv
        · refine .inr ⟨hproper, i, fun p _ h => ?_⟩
          obtain ⟨b', hb', _⟩ := lookup_of_view h hb
          rw [borrowNamed_of_lookup c hb']
          rcases borrowBinding_of_view c h hb hb' kind region pos shareable with
            ⟨_, v', _, _, hp⟩ | ⟨froze, scopes, _, _, hs', _⟩
          · rw [hp]
            exact report_found c _ _
          · -- A borrow that is taken is logged, and a report is not.
            have hevents := congrArg (fun t => t.events.length) (hs.symm.trans hs')
            simp [attach, log] at hevents
      · rw [hs] at hv
        exact .inl hv

theorem get?_region_of_view (h : s.view id = p.view id) (name : String) :
    (s.regions.get? name).map (Region.about id) = (p.regions.get? name).map (Region.about id) := by
  rw [← Regions.get?_about, regions_of_view h, Regions.get?_about]

/-- A region can be opened in both of two states that look the same, or in neither. -/
theorem enter_of_view (h : s.view id = p.view id) (name : String) (kind : RegionKind) (pos : Span) :
    (∃ v v', v.isDisagreement = false ∧ s.regions.enter name kind pos = .error v ∧
      p.regions.enter name kind pos = .error v') ∨
    ∃ rs rs', State.view id {s with regions := rs} = State.view id {p with regions := rs'} ∧
      s.regions.enter name kind pos = .ok rs ∧ p.regions.enter name kind pos = .ok rs' := by
  have hget := get?_region_of_view h name
  unfold Regions.enter
  cases hs : s.regions.get? name with
  | none =>
    rw [hs] at hget
    rw [Option.map_eq_none_iff.mp hget.symm]
    refine .inr ⟨_, _, ?_, rfl, rfl⟩
    refine view_ext (skeleton_of_view h :) (barrier_of_view h :) ?_ (state_of_view h :)
    exact congrArg (List.cons _) (regions_of_view h)
  | some r =>
    rw [hs] at hget
    obtain ⟨r', hr', _⟩ := Option.map_eq_some_iff.mp hget.symm
    rw [hr']
    exact .inl ⟨.borrowConflict name r.openedAt pos, _, rfl, rfl, rfl⟩

theorem enterStatement_of_view (h : s.view id = p.view id) (region : String) (pos : Span) :
    (∃ v v', v.isDisagreement = false ∧ enterStatement region pos s = .error v ∧
      enterStatement region pos p = .error v') ∨
    ∃ rs rs', State.view id {s with regions := rs} = State.view id {p with regions := rs'} ∧
      enterStatement region pos s = .ok {s with regions := rs} ∧
      enterStatement region pos p = .ok {p with regions := rs'} := by
  have hopen : ((p.regions.get? region).any fun r => r.kind == .statement) =
      (s.regions.get? region).any fun r => r.kind == .statement := by
    have hget := congrArg (fun r => r.any fun r : Region => r.kind == .statement) (get?_region_of_view h region)
    simpa [Option.any_map, Function.comp_def, Region.about] using hget.symm
  unfold enterStatement
  rw [hopen]
  split
  · exact .inr ⟨s.regions, p.regions, h, rfl, rfl⟩
  · rcases enter_of_view h region .statement pos with ⟨v, v', hproper, hs, hp⟩ | ⟨rs, rs', hview, hs, hp⟩ <;>
      rw [hs, hp]
    · exact .inl ⟨v, v', hproper, rfl, rfl⟩
    · exact .inr ⟨rs, rs', hview, rfl, rfl⟩

theorem borrowExpr_ref (kind k : RefKind) (target region : String) (referent : Ty) (pos : Span) (s : State) :
    borrowExpr c kind target (.ref k region referent) pos s =
      match enterStatement region pos s with
      | .error v => report c v s
      | .ok t => borrowNamed c kind target region pos true t :=
  rfl

theorem faithful_borrowExpr (kind : RefKind) (target : String) (ty : Ty) (pos : Span) :
    Faithful (borrowExpr c kind target ty pos) := by
  cases ty with
  | ref k region referent =>
    have hnamed := faithful_borrowNamed c kind target region pos true
    refine ⟨grown_borrowExpr c kind target _ pos, fun {id s p} h => ?_, fun {s v} hv => ?_⟩
    · rw [borrowExpr_ref, borrowExpr_ref]
      rcases enterStatement_of_view h region pos with
        ⟨v, v', _, hs, hp⟩ | ⟨rs, rs', hview, hs, hp⟩ <;> rw [hs, hp]
      · exact (view_of_same (report_scopes ..) (report_regions ..)).trans
          (h.trans (view_of_same (report_scopes ..) (report_regions ..)).symm)
      · exact hnamed.view hview
    · rw [borrowExpr_ref] at hv
      have hall : ∀ (id : BindingId) (p : State), s.view id = p.view id → _ :=
        fun id p h => enterStatement_of_view h region pos
      rcases hall ⟨0, 0⟩ s rfl with ⟨w, _, hproper, hs, _⟩ | ⟨rs, _, _, hs, _⟩ <;> rw [hs] at hv
      · rcases mem_report c hv with hv | rfl
        · exact .inl hv
        · refine .inr ⟨hproper, ⟨0, 0⟩, fun p _ h => ?_⟩
          rw [borrowExpr_ref]
          rcases hall _ p h with ⟨_, v', _, _, hp⟩ | ⟨_, _, _, hs', _⟩
          · rw [hp]
            exact report_found c _ _
          · rw [hs] at hs'
            cases hs'
      · rcases hnamed.found hv with hv | ⟨hproper, id, hshow⟩
        · exact .inl hv
        · refine .inr ⟨hproper, id, fun p hp h => ?_⟩
          rw [borrowExpr_ref]
          rcases hall id p h with ⟨_, _, _, hs', _⟩ | ⟨rs₁, rs', hview, hs', hp'⟩
          · rw [hs] at hs'
            cases hs'
          · rw [hp']
            rw [hs] at hs'
            cases hs'
            exact hshow _ hp hview
  | _ => exact .skip

end Borrows

/-! ### Actions -/

theorem faithful_report {v : Violation} (hproper : v.isDisagreement = false) : Faithful (report c v) := by
  refine .of_still (grown_report c v) (report_scopes c v) (report_regions c v) fun {s w} hw => ?_
  rcases mem_report c hw with hw | rfl
  · exact .inl hw
  · exact .inr ⟨hproper, ⟨0, 0⟩, fun p _ _ => report_found c _ p⟩

theorem faithful_reportEscapes {regions : State → List String}
    (hregions : ∀ {id s p}, State.view id s = State.view id p → regions s = regions p)
    (name : Option String) (pos : Span) : Faithful fun s => reportEscapes c (regions s) name pos s := by
  refine .of_still (fun s => grown_reportEscapes ..) (fun s => reportEscapes_scopes ..)
    (fun s => reportEscapes_regions ..) fun {s v} hv => ?_
  rcases mem_reportEscapes c hv with hv | ⟨r, hr, rfl⟩
  · exact .inl hv
  · refine .inr ⟨rfl, ⟨0, 0⟩, fun p hp h => ?_⟩
    exact reportEscapes_found c hp (hregions h ▸ List.ne_nil_of_mem hr) name pos

/-- The open regions of a type from a position on. -/
theorem below_of_view {id : BindingId} {s p : State} (h : s.view id = p.view id) (ty : Ty) (limit : Nat) :
    (ty.regions.filter fun r => (s.regions.position? r).any fun q => limit ≤ q) =
      ty.regions.filter fun r => (p.regions.position? r).any fun q => limit ≤ q := by
  simp only [position?_of_view h]

theorem faithful_requireOutlives (name : String) (ty : Ty) (pos : Span) :
    Faithful (requireOutlives c name ty pos) := by
  have heq : requireOutlives c name ty pos = fun s => reportEscapes c (match s.scopes.lookup name with
      | some (_, b) => ty.regions.filter fun r => (s.regions.position? r).any fun q => b.regionDepth ≤ q
      | none => []) (some name) pos s := by
    funext s
    unfold requireOutlives
    cases s.scopes.lookup name <;> rfl
  rw [heq]
  refine faithful_reportEscapes c (fun {id s p} h => ?_) (some name) pos
  cases hb : s.scopes.lookup name with
  | none => rw [lookup_none_of_view h hb]
  | some e =>
    obtain ⟨b', hb', hblank⟩ := lookup_of_view h hb
    have hdepth : b'.regionDepth = e.2.regionDepth := by
      rw [← Binding.blank_regionDepth, hblank, Binding.blank_regionDepth]
    rw [hb']
    dsimp only
    rw [hdepth, below_of_view h]

theorem faithful_requireOutlasts (region : String) (ty : Ty) (name : Option String) (pos : Span) :
    Faithful (requireOutlasts c region ty name pos) := by
  have heq : requireOutlasts c region ty name pos = fun s => reportEscapes c
      ((s.regions.position? region).elim [] fun limit =>
        ty.regions.filter fun r => (s.regions.position? r).any fun q => limit ≤ q) name pos s := by
    funext s
    unfold requireOutlasts
    cases s.regions.position? region <;> rfl
  rw [heq]
  refine faithful_reportEscapes c (fun {id s p} h => ?_) name pos
  rw [position?_of_view h region]
  cases p.regions.position? region with
  | none => rfl
  | some limit => exact below_of_view h ty limit

/-- A new binding looks new to itself, and is not seen by others. -/
theorem view_define {id : BindingId} {s p : State} (h : s.view id = p.view id) (name : String) (ty : Ty)
    (pos : Span) : (define c name ty pos s).view id = (define c name ty pos p).view id := by
  have hskel := skeleton_of_view h
  have hid : ∀ b, (s.scopes.define b).1 = (p.scopes.define b).1 := fun b => by
    rw [Scopes.define_id, Scopes.define_id, hskel]
  unfold define
  rw [regions_length_of_view h]
  refine view_ext ?_ ?_ (regions_of_view h :) ?_ <;> dsimp only
  · rw [Scopes.skeleton_define_eq, Scopes.skeleton_define_eq, hskel]
  · rw [Scopes.barrier_define, Scopes.barrier_define, barrier_of_view h]
  · rw [Scopes.get?_define, Scopes.get?_define, hid]
    split
    · rfl
    · exact state_of_view h

theorem faithful_allConsumed (pos : Span) : Faithful (act c (.allConsumed pos)) := by
  refine .of_still (grown_act c _) (fun s => reportAll_scopes ..) (fun s => reportAll_regions ..)
    fun {s v} hv => ?_
  rcases mem_reportAll c hv with hv | hv
  · exact .inl hv
  · obtain ⟨b, hb, rfl⟩ := List.mem_map.mp hv
    obtain ⟨id, hget, hlive⟩ := Scopes.mem_live.mp hb
    refine .inr ⟨rfl, id, fun p _ h => ?_⟩
    obtain ⟨b', hget', hblank, hfaded⟩ := get?_of_view h hget
    have hlive' : b' ∈ p.scopes.live := Scopes.mem_live.mpr ⟨id, hget', Binding.isLive_of_faded hblank hfaded ▸ hlive⟩
    exact reportAll_found c (List.ne_nil_of_mem (List.mem_map_of_mem hlive')) p

theorem faithful_act (a : Action) : Faithful (act c a) := by
  cases a with
  | consume name pos => exact faithful_settle c (regular_consume pos) _
  | read name reads pos => exact faithful_settle c (regular_read _ pos) _
  | overwrite name pos => exact faithful_settle c (regular_overwrite pos) _
  | borrow kind target ty pos => exact faithful_borrowExpr c kind target ty pos
  | define name ty pos => exact .of_silent (fun _ => rfl) (fun _ => rfl) fun h => view_define c h name ty pos
  | live ty name pos =>
    refine faithful_reportEscapes c (fun {id s p} h => ?_) name pos
    simp only [isLive_of_view h]
  | outlive name ty pos => exact faithful_requireOutlives c name ty pos
  | outlast region ty name pos => exact faithful_requireOutlasts c region ty name pos
  | ownRegions ty name pos =>
    refine faithful_reportEscapes c (fun {id s p} h => ?_) name pos
    simp only [isFunctionRegion_of_view h]
  | allConsumed pos => exact faithful_allConsumed c pos
  | forbid ty v h =>
    show Faithful (forbidLinear c ty v)
    unfold forbidLinear
    cases isLinear c ty
    · exact .skip
    · exact faithful_report c h
  | refuse v h => exact faithful_report c h

theorem faithful_perform (acts : List Action) : Faithful (perform c acts) := by
  induction acts with
  | nil => exact .skip
  | cons a acts ih => exact ((faithful_act c a).seq ih :)

/-! ### Ends of borrows, scopes and loops -/

section Ends
variable {id : BindingId} {s p : State}

/-- The same borrows of the binding end in both states. -/
theorem view_thawAll (h : s.view id = p.view id) {ids ids' : List BindingId} (hids : id ∈ ids ↔ id ∈ ids')
    {rs rs' : Regions} (hregions : rs.about id = rs'.about id) {t u : State}
    (ht : t.scopes = s.scopes.thawAll ids) (hu : u.scopes = p.scopes.thawAll ids') (ht' : t.regions = rs)
    (hu' : u.regions = rs') : t.view id = u.view id := by
  refine view_ext ?_ ?_ (by rw [ht', hu', hregions]) ?_
  · rw [ht, hu, Scopes.skeleton_thawAll, Scopes.skeleton_thawAll, skeleton_of_view h]
  · rw [ht, hu, Scopes.barrier_thawAll, Scopes.barrier_thawAll, barrier_of_view h]
  · rw [ht, hu, Scopes.get?_thawAll, Scopes.get?_thawAll]
    by_cases hmem : id ∈ ids
    · rw [if_pos hmem, if_pos (hids.mp hmem)]
      cases hb : s.scopes.get? id with
      | none =>
        have hstate := state_of_view h
        rw [hb] at hstate
        rw [Option.map_eq_none_iff.mp hstate.symm]
      | some b =>
        obtain ⟨b', hb', _, hfaded⟩ := get?_of_view h hb
        rw [hb']
        exact congrArg some (Binding.thawed_of_faded hfaded).symm
    · rw [if_neg hmem, if_neg (fun hmem' => hmem (hids.mpr hmem'))]
      exact state_of_view h

theorem mem_flatMap_frozen {rs rs' : List Region} (h : rs.map (Region.about id) = rs'.map (Region.about id)) :
    id ∈ rs.flatMap Region.frozen ↔ id ∈ rs'.flatMap Region.frozen := by
  have hmem : ∀ l : List Region, id ∈ l.flatMap Region.frozen ↔
      id ∈ (l.map (Region.about id)).flatMap Region.frozen := fun l => by
    rw [List.flatMap_map]
    simp only [List.mem_flatMap, Region.mem_frozen_about]
  rw [hmem rs, h, ← hmem rs']

theorem view_closeStatements (h : s.view id = p.view id) (base : Nat) (pos : Span) :
    (closeStatements base pos s).view id = (closeStatements base pos p).view id := by
  have hclose := congrArg (Regions.closeStatements base) (regions_of_view h)
  rw [Regions.closeStatements_about, Regions.closeStatements_about, Prod.mk.injEq] at hclose
  exact view_thawAll h (mem_flatMap_frozen hclose.1) hclose.2 (closeStatements_scopes ..)
    (closeStatements_scopes ..) (closeStatements_regions ..) (closeStatements_regions ..)

theorem view_closeRegion (h : s.view id = p.view id) (pos : Span) :
    (closeRegion pos s).view id = (closeRegion pos p).view id := by
  have habout := regions_of_view h
  cases hs : s.regions with
  | nil =>
    rw [hs] at habout
    have hp : p.regions = [] := List.map_eq_nil_iff.mp habout.symm
    unfold closeRegion
    rw [hs, hp]
    exact h
  | cons r outer =>
    rw [hs] at habout
    obtain ⟨r', outer', hp, hr, houter⟩ := List.map_eq_cons_iff.mp habout.symm
    rw [closeRegion_eq hs, closeRegion_eq hp]
    refine view_thawAll h ?_ houter.symm (release_scopes ..) (release_scopes ..) rfl rfl
    rw [← Region.mem_frozen_about, ← hr, Region.mem_frozen_about]

theorem view_leaveBorrow (h : s.view id = p.view id) (opened : Bool) (pos : Span) :
    (leaveBorrow opened pos s).view id = (leaveBorrow opened pos p).view id := by
  cases opened
  · exact h
  · exact view_closeRegion h pos

theorem view_pushScope (h : s.view id = p.view id) : (pushScope s).view id = (pushScope p).view id := by
  refine view_ext ?_ (barrier_of_view h :) (regions_of_view h :) ?_
  · exact congrArg (List.cons []) (skeleton_of_view h)
  · show (s.scopes.push.get? id).map _ = (p.scopes.push.get? id).map _
    rw [Scopes.get?_push, Scopes.get?_push, state_of_view h]

theorem frames_length_of_view (h : s.view id = p.view id) :
    s.scopes.frames.length = p.scopes.frames.length := by
  rw [← Scopes.length_skeleton, skeleton_of_view h, Scopes.length_skeleton]

theorem view_leaveScope (h : s.view id = p.view id) (reach : Reach) (pos : Span) :
    (leaveScope c reach pos s).view id = (leaveScope c reach pos p).view id := by
  refine view_ext ?_ ?_ ?_ ?_
  · simp only [leaveScope_scopes, Scopes.skeleton_pop, skeleton_of_view h]
  · simp only [leaveScope_scopes, Scopes.barrier_pop, barrier_of_view h]
  · simp only [leaveScope_regions, regions_of_view h]
  · rw [leaveScope_scopes, leaveScope_scopes, Scopes.get?_pop, Scopes.get?_pop, frames_length_of_view h]
    split
    · exact state_of_view h
    · rfl

theorem view_enterLoop (h : s.view id = p.view id) : (enterLoop s).view id = (enterLoop p).view id :=
  view_ext (skeleton_of_view h :) (congrArg some (frames_length_of_view h)) (regions_of_view h :)
    (state_of_view h :)

theorem view_exitLoop {before before' : State} (hbefore : before.view id = before'.view id)
    (h : s.view id = p.view id) : (exitLoop before s).view id = (exitLoop before' p).view id :=
  view_ext (skeleton_of_view h :) (barrier_of_view hbefore :) (regions_of_view h :) (state_of_view h :)

end Ends

theorem faithful_closing (pos : Span) (acts : List Action) : Faithful (closing c pos acts) := by
  have hperform := faithful_perform c acts
  refine ⟨grown_closing c pos acts, fun {id s p} h => ?_, fun {s v} hv => ?_⟩
  · unfold closing
    rw [regions_length_of_view h]
    exact view_closeStatements (hperform.view h) ..
  · unfold closing at hv ⊢
    rw [closeStatements_found] at hv
    simp only [closeStatements_found]
    exact hperform.found hv

theorem faithful_evalClosed (e : Expr Span) : Faithful (evalClosed c e) := by
  rw [funext (evalClosed_eq c e)]
  exact faithful_closing c e.pos (actions e)

theorem faithful_unpack (parts : List (Unpacked Span)) : Faithful (unpack c parts) := by
  rw [funext (unpack_eq c parts)]
  exact faithful_perform c (unpackActions parts)

theorem faithful_pushScope : Faithful pushScope :=
  .of_silent (fun _ => rfl) (fun _ => rfl) view_pushScope

variable {c} in
/-- No binding is live at a return that finds nothing. -/
theorem live_of_clean {pos : Span} {s : State} (h : (act c (.allConsumed pos) s).found = []) :
    s.scopes.live = [] := by
  cases hlive : s.scopes.live with
  | nil => rfl
  | cons b rest =>
    have hstranded : s.scopes.live.map (fun b => b.stranded pos) ≠ [] := by
      rw [hlive]
      exact List.cons_ne_nil _ _
    exact absurd h (reportAll_found c hstranded s)

theorem leaveScope_ne_nil {b : Binding} {s : State} (hb : b ∈ s.scopes.pop.1) (hlive : b.isLive = true)
    (pos : Span) : (leaveScope c .continues pos s).found ≠ [] := by
  unfold leaveScope
  split
  · refine reportAll_found c (List.ne_nil_of_mem (a := b.stranded pos) ?_) _
    exact List.mem_map_of_mem (List.mem_filter.mpr ⟨List.mem_reverse.mpr hb, hlive⟩)
  · rename_i hhalted
    intro hnil
    exact hhalted ⟨rfl, halted_of_clean (s := s) hnil⟩

theorem faithful_leaveScope (pos : Span) : Faithful (leaveScope c .continues pos) := by
  refine ⟨grown_leaveScope c .continues pos, fun h => view_leaveScope c h .continues pos, fun {s v} hv => ?_⟩
  unfold leaveScope at hv
  split at hv
  · rcases mem_reportAll c hv with hv | hv
    · exact .inl hv
    · obtain ⟨b, hb, rfl⟩ := List.mem_map.mp hv
      obtain ⟨hb, hlive⟩ := List.mem_filter.mp hb
      obtain ⟨id, hget, hframe⟩ := Scopes.mem_pop.mp (List.mem_reverse.mp hb)
      refine .inr ⟨rfl, id, fun p _ h => ?_⟩
      obtain ⟨b', hget', hblank, hfaded⟩ := get?_of_view h hget
      refine leaveScope_ne_nil c (Scopes.mem_pop.mpr ⟨id, hget', frames_length_of_view h ▸ hframe⟩) ?_ pos
      exact Binding.isLive_of_faded hblank hfaded ▸ hlive
  · exact .inl hv

/-! ### Brackets -/

namespace Faithful
variable {c} {F : State → State}

theorem onward {G : State → State} (hF : Faithful F) (hG : Faithful G) : ∀ r : Reach,
    Faithful fun s => onward r G (F s)
  | .continues => hF.seq hG
  | .diverges => hF

theorem inScope (hF : Faithful F) (r : Reach) (pos : Span) : Faithful (inScope c r pos F) :=
  ((faithful_pushScope.seq hF).onward (faithful_leaveScope c pos) r :)

theorem secluded (hF : Faithful F) : Faithful (secluded F) := by
  refine ⟨fun s => .of_escaped (hF.grown {s with escaped := []}).found rfl, fun {id s p} h => ?_, fun {s v} hv => ?_⟩
  · exact (hF.view (s := {s with escaped := []}) (p := {p with escaped := []}) h :)
  · rcases hF.found hv with hv | ⟨hproper, id, hall⟩
    · exact .inl hv
    · exact .inr ⟨hproper, id, fun p _ h => hall {p with escaped := []} (fun he => absurd rfl he) h⟩

theorem fenced (hF : Faithful F) : ∀ (barred : Bool) (r : Reach), Faithful (fenced barred r F)
  | false, _ => hF
  | true, .diverges =>
    ((of_silent (F := enterLoop) (fun _ => rfl) (fun _ => rfl) view_enterLoop).seq hF :)
  | true, .continues => by
    have hentered := (of_silent (F := enterLoop) (fun _ => rfl) (fun _ => rfl) view_enterLoop).seq hF
    exact ⟨fun s => (hentered.grown s).trans (.of_same rfl rfl), fun h => view_exitLoop h (hentered.view h),
      hentered.found⟩

end Faithful

/-- Opening a borrow block's region, and whether it is opened. -/
theorem faithful_openBorrow (region : Ident Span) : Faithful (fun s => (openBorrow c region s).2) ∧
    ∀ {id : BindingId} {s p : State}, s.view id = p.view id →
      (openBorrow c region s).1 = (openBorrow c region p).1 := by
  refine ⟨⟨grown_openBorrow c region, fun {id s p} h => ?_, fun {s v} hv => ?_⟩, fun {id s p} h => ?_⟩
  · unfold openBorrow
    rcases enter_of_view h region.name .explicit region.pos with ⟨v, v', _, hs, hp⟩ | ⟨rs, rs', hview, hs, hp⟩ <;>
      rw [hs, hp]
    · exact (view_of_same (report_scopes ..) (report_regions ..)).trans
        (h.trans (view_of_same (report_scopes ..) (report_regions ..)).symm)
    · exact hview
  · have hall : ∀ p : State, s.view ⟨0, 0⟩ = p.view ⟨0, 0⟩ → _ :=
      fun p h => enter_of_view h region.name .explicit region.pos
    unfold openBorrow at hv ⊢
    rcases hall s rfl with ⟨w, _, hproper, hs, _⟩ | ⟨rs, _, _, hs, _⟩ <;> rw [hs] at hv
    · rcases mem_report c hv with hv | rfl
      · exact .inl hv
      · refine .inr ⟨hproper, ⟨0, 0⟩, fun p _ h => ?_⟩
        rcases hall p h with ⟨_, v', _, _, hp⟩ | ⟨_, _, _, hs', _⟩
        · rw [hp]
          exact report_found c _ _
        · rw [hs] at hs'
          cases hs'
    · exact .inl hv
  · unfold openBorrow
    rcases enter_of_view h region.name .explicit region.pos with ⟨v, v', _, hs, hp⟩ | ⟨rs, rs', _, hs, hp⟩ <;>
      rw [hs, hp]

theorem aliasTy_of_skeleton {scopes scopes' : Scopes} (h : scopes'.skeleton = scopes.skeleton) (kind : RefKind)
    (source region : Ident Span) : aliasTy kind source region scopes' = aliasTy kind source region scopes := by
  unfold aliasTy
  cases hb : scopes.lookup source.name with
  | none => rw [Scopes.lookup_none_of_skeleton h hb]
  | some e =>
    obtain ⟨b', hb', hblank⟩ := Scopes.lookup_of_skeleton h hb
    rw [hb']
    show Ty.ref kind region.name b'.ty = .ref kind region.name e.2.ty
    rw [← Binding.blank_ty, hblank, Binding.blank_ty]

section BorrowBlocks
variable (kind : RefKind) (source name region : Ident Span)

theorem faithful_lend : Faithful (lend c kind source region) := by
  obtain ⟨hopen, hflag⟩ := faithful_openBorrow c region
  have htake : Faithful (takeBorrow c kind source region) :=
    faithful_borrowNamed c kind source.name region.name source.pos false
  refine ⟨fun s => (hopen.grown s).trans ?_, fun {id s p} h => ?_, fun {s v} hv => ?_⟩
  · show Grown (openBorrow c region s).2 (if _ then _ else _)
    split
    · exact htake.grown _
    · exact .refl _
  · unfold lend
    dsimp only
    rw [hflag h]
    split
    · exact htake.view (hopen.view h)
    · exact hopen.view h
  · unfold lend at hv ⊢
    dsimp only at hv ⊢
    -- Whether the region is opened, every state that looks the same to a binding agrees.
    split at hv
    · rename_i hopened
      have hagree : ∀ {id p}, s.view id = State.view id p → (openBorrow c region p).1 = true :=
        fun h => hflag h ▸ hopened
      rcases (hopen.seq htake).found hv with hv | ⟨hproper, id, hall⟩
      · exact .inl hv
      · refine .inr ⟨hproper, id, fun p hp h => ?_⟩
        rw [if_pos (hagree h)]
        exact hall p hp h
    · rename_i hopened
      rcases hopen.found hv with hv | ⟨hproper, id, hall⟩
      · exact .inl hv
      · refine .inr ⟨hproper, id, fun p hp h => ?_⟩
        rw [if_neg (hflag h ▸ hopened)]
        exact hall p hp h

theorem enterBorrow_flag (s : State) :
    (enterBorrow c kind source name region s).1 = (openBorrow c region s).1 := by
  rw [enterBorrow_eq]

theorem enterBorrow_flag_of_view {id : BindingId} {s p : State} (h : s.view id = p.view id) :
    (enterBorrow c kind source name region s).1 = (enterBorrow c kind source name region p).1 := by
  rw [enterBorrow_flag, enterBorrow_flag, (faithful_openBorrow c region).2 h]

theorem faithful_enterBorrow : Faithful fun s => (enterBorrow c kind source name region s).2 := by
  have hlend := faithful_lend c kind source region
  simp only [enterBorrow_state]
  refine ⟨fun s => (hlend.grown s).trans (.of_same rfl rfl), fun {id s p} h => ?_, hlend.found⟩
  rw [aliasTy_of_skeleton (skeleton_of_view h)]
  exact view_define c (view_pushScope (hlend.view h)) ..

theorem Faithful.lent {F : State → State} (hF : Faithful F) (r : Reach) (pos : Span) :
    Faithful (lent c r pos kind source name region F) := by
  have hbody := (faithful_enterBorrow c kind source name region).seq hF
  cases r with
  | diverges => exact hbody
  | continues =>
    have hleave := hbody.seq (faithful_leaveScope c pos)
    refine ⟨fun s => (hleave.grown s).trans (grown_leaveBorrow ..), fun {id s p} h => ?_, fun {s v} hv => ?_⟩
    · show (leaveBorrow (enterBorrow c kind source name region s).1 pos _).view id =
        (leaveBorrow (enterBorrow c kind source name region p).1 pos _).view id
      rw [enterBorrow_flag_of_view c kind source name region h]
      exact view_leaveBorrow (hleave.view h) ..
    · have hfound : ∀ s, (Check.lent c .continues pos kind source name region F s).found =
          (leaveScope c .continues pos (F (enterBorrow c kind source name region s).2)).found :=
        fun s => leaveBorrow_found ..
      rw [hfound] at hv
      simp only [hfound]
      exact hleave.found hv

end BorrowBlocks

/-! ### Runs -/

theorem faithful_law (barred : Bool) : PathLaw c c barred barred fun _ F _ => Faithful F where
  skip := .skip
  seq hF hG := hF.seq hG
  perform _ := faithful_perform c _
  closing pos _ _ := faithful_closing c pos _
  ret _ _ _ := faithful_perform c _
  inScope pos hF := hF.inScope _ pos
  lent pos kind source name region hF := hF.lent c kind source name region _ pos
  fenced hF := hF.fenced barred _
  secluded hF := hF.secluded

theorem faithful_run (barred : Bool) {code : Code} {r : Reach} (path : Path code r) :
    Faithful (path.run c barred) :=
  (faithful_law c barred).run path

end Check

end Linearity
