import Linearity.Proofs.Steps

/-! What a join of branches does to each binding.

After a join a linear binding is consumed if it is in one of the branches that were
reached, and otherwise not; nothing else about the scopes changes (`get?_join`). A
join finds a violation exactly where two such branches disagree on a binding. -/
namespace Linearity.Check
variable (c : Context)

theorem consumedAt_eq_some {id : BindingId} {scopes : Scopes} {pos : Span} :
    consumedAt id scopes = some pos ↔ ∃ b, scopes.get? id = some b ∧ b.state = .consumed pos := by
  unfold consumedAt
  cases hb : scopes.get? id with
  | none => simp
  | some b => cases hs : b.state <;> simp [hs]

theorem consumedAt_of_get? {id : BindingId} {scopes : Scopes} {b : Binding}
    (hb : scopes.get? id = some b) : (consumedAt id scopes).isSome = b.state.isConsumed := by
  unfold consumedAt
  rw [hb]
  cases hs : b.state <;> simp [hs, BindingState.isConsumed]

/-- The state of a binding after branches, from its state where they are joined. -/
def merged (exits : List (Span × Scopes)) (id : BindingId) (state : BindingState) : BindingState :=
  match exits.findSome? fun e => consumedAt id e.2 with
  | some pos => .consumed pos
  | none => if state.isConsumed then .unconsumed else state

theorem merged_merged (exits : List (Span × Scopes)) (id : BindingId) (state : BindingState) :
    merged exits id (merged exits id state) = merged exits id state := by
  unfold merged
  cases exits.findSome? fun e => consumedAt id e.2 with
  | some pos => rfl
  | none => cases state <;> rfl

theorem merged_isConsumed (exits : List (Span × Scopes)) (id : BindingId) (state : BindingState) :
    (merged exits id state).isConsumed = exits.any fun e => (consumedAt id e.2).isSome := by
  unfold merged
  cases h : exits.findSome? fun e => consumedAt id e.2 with
  | some pos =>
    obtain ⟨e, he, hpos⟩ := List.exists_of_findSome?_eq_some h
    refine Eq.symm (List.any_eq_true.mpr ⟨e, he, ?_⟩)
    rw [hpos]
    rfl
  | none =>
    rw [List.findSome?_eq_none_iff] at h
    have hany : (exits.any fun e => (consumedAt id e.2).isSome) = false := by
      rw [List.any_eq_false]
      intro e he
      rw [h e he]
      simp
    rw [hany]
    cases hs : state.isConsumed
    · simpa using hs
    · rfl

/-- A binding whose state is the same in all branches keeps it. -/
theorem merged_of_same {exits : List (Span × Scopes)} {id : BindingId} {b : Binding} (hne : exits ≠ [])
    (h : ∀ e ∈ exits, e.2.get? id = some b) : merged exits id b.state = b.state := by
  unfold merged
  cases hs : exits.findSome? fun e => consumedAt id e.2 with
  | some pos =>
    obtain ⟨e, he, hpos⟩ := List.exists_of_findSome?_eq_some hs
    obtain ⟨b', hb', hstate⟩ := consumedAt_eq_some.mp hpos
    rw [h e he] at hb'
    cases hb'
    exact hstate.symm
  | none =>
    obtain ⟨e, he⟩ := List.exists_mem_of_ne_nil exits hne
    have hnone := List.findSome?_eq_none_iff.mp hs e he
    have hconsumed := consumedAt_of_get? (h e he)
    rw [hnone] at hconsumed
    exact if_neg (by rw [← hconsumed]; simp)

/-! ### One binding -/

section Binding
variable (exits : List (Span × Scopes)) (s : State) (entry : BindingId × Binding)

/-- The report on a binding that some of the branches consume and some do not. -/
def noteDisagreement (s : State) : State :=
  let consuming := exits.filter fun e => (consumedAt entry.1 e.2).isSome
  let keeping := exits.filter fun e => (consumedAt entry.1 e.2).isNone
  if consuming.isEmpty || keeping.isEmpty then s
  else report c (.branchesDisagree entry.2.name (consuming.map Prod.fst) (keeping.map Prod.fst)) s

theorem joinBinding_eq : joinBinding c exits s entry =
    let s' := noteDisagreement c exits entry s
    match exits.findSome? fun e => consumedAt entry.1 e.2 with
    | some pos => {s' with scopes := s'.scopes.setState entry.1 (.consumed pos)}
    | none =>
      if (consumedAt entry.1 s'.scopes).isSome then
        {s' with scopes := s'.scopes.setState entry.1 .unconsumed}
      else s' := rfl

theorem noteDisagreement_same :
    (noteDisagreement c exits entry s).scopes = s.scopes ∧
      (noteDisagreement c exits entry s).regions = s.regions ∧
      (noteDisagreement c exits entry s).events = s.events ∧
      (noteDisagreement c exits entry s).escaped = s.escaped := by
  unfold noteDisagreement
  dsimp only
  split
  · exact ⟨rfl, rfl, rfl, rfl⟩
  · exact ⟨report_scopes .., report_regions .., report_events .., report_escaped ..⟩

theorem get?_joinBinding (id : BindingId) :
    (joinBinding c exits s entry).scopes.get? id =
      if entry.1 = id then
        (s.scopes.get? id).map fun b => {b with state := merged exits id b.state}
      else s.scopes.get? id := by
  have hscopes := (noteDisagreement_same c exits s entry).1
  rw [joinBinding_eq]
  generalize noteDisagreement c exits entry s = s' at hscopes ⊢
  dsimp only
  by_cases hid : entry.1 = id
  · subst hid
    rw [if_pos rfl]
    unfold merged
    split
    · show (s'.scopes.setState _ _).get? _ = _
      rw [Scopes.get?_setState, if_pos rfl, hscopes]
    · cases hb : s.scopes.get? entry.1 with
      | none =>
        have hnone : consumedAt entry.1 s'.scopes = none := by
          rw [hscopes, consumedAt, hb]
          rfl
        rw [if_neg (by rw [hnone]; simp), hscopes, hb]
        rfl
      | some b =>
        have hb' : s'.scopes.get? entry.1 = some b := by rw [hscopes]; exact hb
        rw [consumedAt_of_get? hb']
        cases hs : b.state.isConsumed
        · simp only [Bool.false_eq_true, if_false, hscopes, hb, Option.map_some, hs]
        · simp only [if_true, hscopes, Scopes.get?_setState, hb, Option.map_some, hs]
  · rw [if_neg hid]
    split
    · show (s'.scopes.setState _ _).get? _ = _
      rw [Scopes.get?_setState, if_neg hid, hscopes]
    · split
      · show (s'.scopes.setState _ _).get? _ = _
        rw [Scopes.get?_setState, if_neg hid, hscopes]
      · rw [hscopes]

theorem joinBinding_frame :
    (joinBinding c exits s entry).scopes.skeleton = s.scopes.skeleton ∧
      (joinBinding c exits s entry).scopes.barrier = s.scopes.barrier ∧
      (joinBinding c exits s entry).regions = s.regions ∧
      (joinBinding c exits s entry).events = s.events ∧
      (joinBinding c exits s entry).escaped = s.escaped := by
  obtain ⟨hscopes, hregions, hevents, hescaped⟩ := noteDisagreement_same c exits s entry
  rw [joinBinding_eq]
  generalize noteDisagreement c exits entry s = s' at hscopes hregions hevents hescaped ⊢
  dsimp only
  split
  · refine ⟨?_, ?_, hregions, hevents, hescaped⟩
    · show (s'.scopes.setState _ _).skeleton = _
      rw [Scopes.skeleton_setState, hscopes]
    · show s'.scopes.barrier = _
      rw [hscopes]
  · split
    · refine ⟨?_, ?_, hregions, hevents, hescaped⟩
      · show (s'.scopes.setState _ _).skeleton = _
        rw [Scopes.skeleton_setState, hscopes]
      · show s'.scopes.barrier = _
        rw [hscopes]
    · exact ⟨by rw [hscopes], by rw [hscopes], hregions, hevents, hescaped⟩

end Binding

/-! ### All bindings -/

section Fold
variable (exits : List (Span × Scopes)) (entries : List (BindingId × Binding)) (s : State)

theorem get?_foldl_joinBinding (id : BindingId) :
    (entries.foldl (joinBinding c exits) s).scopes.get? id =
      if id ∈ entries.map Prod.fst then
        (s.scopes.get? id).map fun b => {b with state := merged exits id b.state}
      else s.scopes.get? id := by
  induction entries generalizing s with
  | nil => rfl
  | cons entry rest ih =>
    rw [List.foldl_cons, ih, get?_joinBinding]
    by_cases hid : entry.1 = id
    · subst hid
      have hmem : entry.1 ∈ (entry :: rest).map Prod.fst := List.mem_cons_self ..
      rw [if_pos rfl, if_pos hmem]
      split
      · cases s.scopes.get? entry.1 with
        | none => rfl
        | some b => simp only [Option.map_some, merged_merged]
      · rfl
    · rw [if_neg hid]
      simp only [List.map_cons, List.mem_cons, Ne.symm hid, false_or]

theorem foldl_joinBinding_frame :
    (entries.foldl (joinBinding c exits) s).scopes.skeleton = s.scopes.skeleton ∧
      (entries.foldl (joinBinding c exits) s).scopes.barrier = s.scopes.barrier ∧
      (entries.foldl (joinBinding c exits) s).regions = s.regions ∧
      (entries.foldl (joinBinding c exits) s).events = s.events ∧
      (entries.foldl (joinBinding c exits) s).escaped = s.escaped := by
  induction entries generalizing s with
  | nil => exact ⟨rfl, rfl, rfl, rfl, rfl⟩
  | cons entry rest ih =>
    obtain ⟨hskel, hbar, hregions, hevents, hescaped⟩ := joinBinding_frame c exits s entry
    obtain ⟨hskel', hbar', hregions', hevents', hescaped'⟩ := ih (joinBinding c exits s entry)
    exact ⟨hskel'.trans hskel, hbar'.trans hbar, hregions'.trans hregions, hevents'.trans hevents,
      hescaped'.trans hescaped⟩

/-- Only a disagreement is reported, and every disagreement is. -/
theorem joinBinding_found (entry : BindingId × Binding) :
    (joinBinding c exits s entry).found = (noteDisagreement c exits entry s).found := by
  rw [joinBinding_eq]
  dsimp only
  split
  · rfl
  · split <;> rfl

theorem noteDisagreement_grows (entry : BindingId × Binding) :
    s.found <+: (noteDisagreement c exits entry s).found := by
  unfold noteDisagreement
  dsimp only
  split
  · exact List.prefix_rfl
  · exact report_grows ..

theorem foldl_joinBinding_grows : s.found <+: (entries.foldl (joinBinding c exits) s).found := by
  induction entries generalizing s with
  | nil => exact List.prefix_rfl
  | cons entry rest ih =>
    have hgrows := noteDisagreement_grows c exits s entry
    rw [← joinBinding_found] at hgrows
    exact hgrows.trans (ih _)

end Fold

/-- Some branches consume the binding and some do not. -/
def Disagree (exits : List (Span × Scopes)) (id : BindingId) : Prop :=
  (∃ e ∈ exits, (consumedAt id e.2).isSome = true) ∧ ∃ e ∈ exits, (consumedAt id e.2).isSome = false

/-- The violation that it is for branches to disagree on a binding. -/
def disagreement (exits : List (Span × Scopes)) (entry : BindingId × Binding) : Violation :=
  .branchesDisagree entry.2.name
    ((exits.filter fun e => (consumedAt entry.1 e.2).isSome).map Prod.fst)
    ((exits.filter fun e => (consumedAt entry.1 e.2).isNone).map Prod.fst)

theorem noteDisagreement_of_disagree {exits : List (Span × Scopes)} {entry : BindingId × Binding}
    (h : Disagree exits entry.1) (s : State) :
    noteDisagreement c exits entry s = report c (disagreement exits entry) s := by
  obtain ⟨⟨e, he, hsome⟩, ⟨e', he', hnone⟩⟩ := h
  have hconsuming : (exits.filter fun e => (consumedAt entry.1 e.2).isSome) ≠ [] :=
    List.ne_nil_of_mem (List.mem_filter.mpr ⟨he, hsome⟩)
  have hkeeping : (exits.filter fun e => (consumedAt entry.1 e.2).isNone) ≠ [] :=
    List.ne_nil_of_mem (List.mem_filter.mpr ⟨he', by simpa using hnone⟩)
  unfold noteDisagreement disagreement
  simp [hconsuming, hkeeping]

theorem noteDisagreement_of_agree {exits : List (Span × Scopes)} {entry : BindingId × Binding}
    (h : ¬ Disagree exits entry.1) (s : State) : noteDisagreement c exits entry s = s := by
  unfold noteDisagreement
  dsimp only
  rw [if_pos]
  rw [Bool.or_eq_true, List.isEmpty_iff, List.isEmpty_iff, List.filter_eq_nil_iff,
    List.filter_eq_nil_iff]
  by_cases hsome : ∃ e ∈ exits, (consumedAt entry.1 e.2).isSome = true
  · refine .inr fun e he hnone => h ⟨hsome, e, he, ?_⟩
    simpa using hnone
  · exact .inl fun e he hsome' => hsome ⟨e, he, hsome'⟩

theorem mem_foldl_joinBinding {exits : List (Span × Scopes)} {entries : List (BindingId × Binding)}
    {s : State} {v : Violation} (h : v ∈ (entries.foldl (joinBinding c exits) s).found) :
    v ∈ s.found ∨ ∃ entry ∈ entries, Disagree exits entry.1 ∧ v = disagreement exits entry := by
  induction entries generalizing s with
  | nil => exact .inl h
  | cons entry rest ih =>
    rcases ih h with h | ⟨entry', hmem, hdis⟩
    · rw [joinBinding_found] at h
      by_cases hdis : Disagree exits entry.1
      · rw [noteDisagreement_of_disagree c hdis] at h
        rcases mem_report c h with h | rfl
        · exact .inl h
        · exact .inr ⟨entry, List.mem_cons_self .., hdis, rfl⟩
      · rw [noteDisagreement_of_agree c hdis] at h
        exact .inl h
    · exact .inr ⟨entry', List.mem_cons_of_mem _ hmem, hdis⟩

theorem foldl_joinBinding_found {exits : List (Span × Scopes)} {entries : List (BindingId × Binding)}
    {entry : BindingId × Binding} (hmem : entry ∈ entries) (hdis : Disagree exits entry.1) (s : State) :
    (entries.foldl (joinBinding c exits) s).found ≠ [] := by
  induction entries generalizing s with
  | nil => cases hmem
  | cons entry' rest ih =>
    rcases List.mem_cons.mp hmem with rfl | hmem
    · refine ne_nil_of_prefix (foldl_joinBinding_grows c exits rest _) ?_
      rw [joinBinding_found, noteDisagreement_of_disagree c hdis]
      exact report_found c _ s
    · exact ih hmem _

/-! ### The join -/

section Join
variable {outcomes : List Outcome} (s : State)

theorem mem_reached {e : Span × Scopes} :
    e ∈ reached outcomes ↔ ∃ o ∈ outcomes, o.pos = e.1 ∧ o.exit = some e.2 := by
  unfold reached
  simp only [List.mem_filterMap, Option.map_eq_some_iff]
  constructor
  · rintro ⟨o, ho, scopes, hexit, rfl⟩
    exact ⟨o, ho, rfl, hexit⟩
  · rintro ⟨o, ho, hpos, hexit⟩
    exact ⟨o, ho, e.2, hexit, by rw [hpos]⟩

theorem join_of_none (h : reached outcomes = []) : join c outcomes s = (.diverges, s) := by
  unfold join
  rw [if_pos (List.isEmpty_iff.mpr h)]

theorem join_of_some (h : reached outcomes ≠ []) : join c outcomes s =
    (.continues, s.scopes.linearBindings.foldl (joinBinding c (reached outcomes)) s) := by
  unfold join
  rw [if_neg (fun he => h (List.isEmpty_iff.mp he))]

theorem join_frame :
    (join c outcomes s).2.scopes.skeleton = s.scopes.skeleton ∧
      (join c outcomes s).2.scopes.barrier = s.scopes.barrier ∧
      (join c outcomes s).2.regions = s.regions ∧
      (join c outcomes s).2.events = s.events ∧
      (join c outcomes s).2.escaped = s.escaped := by
  by_cases h : reached outcomes = []
  · rw [join_of_none c s h]
    exact ⟨rfl, rfl, rfl, rfl, rfl⟩
  · rw [join_of_some c s h]
    exact foldl_joinBinding_frame ..

/-- After a join, linear bindings are merged and free ones are what they were. -/
theorem get?_join (h : reached outcomes ≠ []) (id : BindingId) :
    (join c outcomes s).2.scopes.get? id = (s.scopes.get? id).map fun b =>
      if b.isLinear then {b with state := merged (reached outcomes) id b.state} else b := by
  rw [join_of_some c s h]
  dsimp only
  rw [get?_foldl_joinBinding]
  cases hb : s.scopes.get? id with
  | none => simp
  | some b =>
    have hmem : id ∈ s.scopes.linearBindings.map Prod.fst ↔ b.isLinear = true := by
      simp only [List.mem_map, Prod.exists, exists_and_right, exists_eq_right, Scopes.mem_linearBindings,
        hb, Option.some.injEq]
      constructor
      · rintro ⟨b', rfl, hlin⟩
        exact hlin
      · intro hlin
        exact ⟨b, rfl, hlin⟩
    by_cases hlin : b.isLinear = true
    · rw [if_pos (hmem.mpr hlin)]
      simp [hlin]
    · rw [if_neg (fun h => hlin (hmem.mp h))]
      simp [hlin]

theorem join_grows : s.found <+: (join c outcomes s).2.found := by
  by_cases h : reached outcomes = []
  · exact (join_of_none c s h).symm ▸ List.prefix_rfl
  · rw [join_of_some c s h]
    exact foldl_joinBinding_grows ..

/-- What a join finds is a disagreement on a linear binding. -/
theorem mem_join {s : State} {v : Violation} (h : v ∈ (join c outcomes s).2.found) :
    v ∈ s.found ∨ ∃ id b, s.scopes.get? id = some b ∧ b.isLinear = true ∧
      Disagree (reached outcomes) id ∧ v = disagreement (reached outcomes) (id, b) := by
  by_cases hr : reached outcomes = []
  · rw [join_of_none c s hr] at h
    exact .inl h
  · rw [join_of_some c s hr] at h
    rcases mem_foldl_joinBinding c h with h | ⟨⟨id, b⟩, hmem, hdis, rfl⟩
    · exact .inl h
    · obtain ⟨hb, hlin⟩ := Scopes.mem_linearBindings.mp hmem
      exact .inr ⟨id, b, hb, hlin, hdis, rfl⟩

/-- A join that finds nothing has branches that agree on every linear binding. -/
theorem agree_of_join {s : State} (h : (join c outcomes s).2.found = []) {id : BindingId} {b : Binding}
    (hb : s.scopes.get? id = some b) (hlin : b.isLinear = true) : ¬ Disagree (reached outcomes) id := by
  intro hdis
  have hr : reached outcomes ≠ [] := by
    obtain ⟨⟨e, he, _⟩, _⟩ := hdis
    exact List.ne_nil_of_mem he
  rw [join_of_some c s hr] at h
  exact foldl_joinBinding_found c (Scopes.mem_linearBindings.mpr ⟨hb, hlin⟩) hdis s h

end Join

end Linearity.Check
