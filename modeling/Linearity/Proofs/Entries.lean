import Mathlib.Logic.Relation
import Linearity.Proofs.Faithful

/-! The log, entry by entry.

Whatever a check does without finding anything is a sequence of small steps (`Entries`),
and each step adds one event to the log or none. An `Entry` says what the step has to do
with its event: how many live bindings of a name there are before and after, who owns the
value that is used, and which regions are open for the borrows. What is to be proved of
the log is then proved of one entry. -/
namespace Linearity

namespace Event

/-- Whether the event gives a linear value to the name. -/
def gives (name : String) : Event → Bool
  | .define n _ linear => linear && n == name
  | _ => false

/-- Whether the event consumes the name. -/
def takes (name : String) : Event → Bool
  | .consume n _ => n == name
  | _ => false

/-- Whether the event consumes the name or reads it. -/
def uses (name : String) : Event → Bool
  | .consume n _ | .read n _ => n == name
  | _ => false

/-- Whether the event borrows into the region. -/
def lends (region : String) : Event → Bool
  | .borrow _ _ r _ => r == region
  | _ => false

def closes (region : String) : Event → Bool
  | .close r _ => r == region
  | _ => false

theorem takes_of_gives {name : String} : ∀ {e : Event}, e.gives name = true → e.takes name = false
  | .define .., _ => rfl

end Event

/-! ### Live bindings of a name -/

namespace Frame

theorem countP_slots (q : Binding → Bool) : ∀ f : Frame, (f.slots.map Prod.snd).countP q = List.countP q f
  | [] => rfl
  | b :: older => by
    rw [slots, List.map_append, List.countP_append, countP_slots q older, List.countP_cons]
    simp [List.countP_cons]

theorem countP_modify (q : Binding → Bool) (g : Binding → Binding) {slot : Nat} {b : Binding} :
    ∀ {f : Frame}, get? slot f = some b →
      List.countP q (modify slot g f) + (q b).toNat = List.countP q f + (q (g b)).toNat
  | a :: older, h => by
    unfold get? at h
    unfold modify
    split
    · rename_i hslot
      rw [if_pos hslot] at h
      cases h
      rw [List.countP_cons, List.countP_cons]
      cases q b <;> cases q (g b) <;> simp
    · rename_i hslot
      rw [if_neg hslot] at h
      have ih := countP_modify q g h
      rw [List.countP_cons, List.countP_cons]
      omega

theorem countP_modify_same (q : Binding → Bool) {g : Binding → Binding} (h : ∀ b, q (g b) = q b) (slot : Nat) :
    ∀ f : Frame, List.countP q (modify slot g f) = List.countP q f
  | [] => rfl
  | a :: older => by
    unfold modify
    split
    · rw [List.countP_cons, List.countP_cons, h]
    · rw [List.countP_cons, List.countP_cons, countP_modify_same q h slot older]

end Frame

namespace Scopes

/-- How many live bindings have the name. -/
def liveNamed (name : String) (s : Scopes) : Nat := s.live.countP fun b => b.name == name

/-- A live binding of the name. -/
def holds (name : String) (b : Binding) : Bool := b.name == name && b.isLive

def countIn (q : Binding → Bool) : List Frame → Nat
  | [] => 0
  | f :: outer => f.countP q + countIn q outer

theorem countP_entriesIn (q : Binding → Bool) : ∀ frames : List Frame,
    ((entriesIn frames).map Prod.snd).countP q = countIn q frames
  | [] => rfl
  | f :: outer => by
    rw [entriesIn, List.map_append, List.countP_append, countP_entriesIn q outer, List.map_map]
    rw [show (Prod.snd ∘ fun (e : Nat × Binding) => ((⟨outer.length, e.1⟩ : BindingId), e.2)) = Prod.snd from rfl,
      Frame.countP_slots]
    simp [countIn, Nat.add_comm]

theorem liveNamed_eq (name : String) (s : Scopes) : s.liveNamed name = countIn (holds name) s.frames := by
  unfold liveNamed live
  rw [List.countP_filter]
  exact countP_entriesIn (holds name) s.frames

theorem countIn_modifyIn (q : Binding → Bool) (g : Binding → Binding) {id : BindingId} {b : Binding} :
    ∀ {frames : List Frame}, getIn id frames = some b →
      countIn q (modifyIn id g frames) + (q b).toNat = countIn q frames + (q (g b)).toNat
  | f :: outer, h => by
    unfold getIn at h
    unfold modifyIn
    split
    · rename_i hframe
      rw [if_pos hframe] at h
      have hcount := Frame.countP_modify q g h
      simp only [countIn]
      omega
    · rename_i hframe
      rw [if_neg hframe] at h
      have ih := countIn_modifyIn q g h
      simp only [countIn]
      omega

theorem countIn_modifyIn_same (q : Binding → Bool) {g : Binding → Binding} (h : ∀ b, q (g b) = q b)
    (id : BindingId) : ∀ frames : List Frame, countIn q (modifyIn id g frames) = countIn q frames
  | [] => rfl
  | f :: outer => by
    unfold modifyIn
    split
    · simp only [countIn, Frame.countP_modify_same q h]
    · simp only [countIn, countIn_modifyIn_same q h id outer]

theorem liveNamed_setState {s : Scopes} {id : BindingId} {b : Binding} (h : s.get? id = some b)
    (state : BindingState) (name : String) :
    (s.setState id state).liveNamed name + (holds name b).toNat =
      s.liveNamed name + (holds name {b with state}).toNat := by
  rw [liveNamed_eq, liveNamed_eq]
  exact countIn_modifyIn (holds name) _ h

theorem liveNamed_thawAll (name : String) (ids : List BindingId) (s : Scopes) :
    (s.thawAll ids).liveNamed name = s.liveNamed name := by
  have hthaw : ∀ b : Binding, holds name b.thawed = holds name b := by
    intro b
    unfold Binding.thawed
    split
    · rename_i hstate
      simp [holds, Binding.isLive, Binding.isLinear, hstate, BindingState.isConsumed]
    · rfl
    · rfl
  unfold thawAll
  induction ids generalizing s with
  | nil => rfl
  | cons id ids ih =>
    rw [List.foldl_cons, ih, liveNamed_eq, liveNamed_eq]
    exact countIn_modifyIn_same (holds name) hthaw id s.frames

theorem liveNamed_define (s : Scopes) (b : Binding) (name : String) :
    (s.define b).2.liveNamed name = s.liveNamed name + (holds name b).toNat := by
  rw [liveNamed_eq, liveNamed_eq]
  unfold define
  split
  · rename_i hnil
    rw [hnil]
    cases hq : holds name b <;> simp [countIn, hq]
  · rename_i f outer hcons
    rw [hcons]
    simp only [countIn, List.countP_cons]
    cases hq : holds name b <;> simp
    omega

theorem liveNamed_push (s : Scopes) (name : String) : s.push.liveNamed name = s.liveNamed name := by
  rw [liveNamed_eq, liveNamed_eq]
  show List.countP (holds name) [] + countIn (holds name) s.frames = _
  rw [List.countP_nil, Nat.zero_add]

/-- Closing a scope without live bindings loses none. -/
theorem liveNamed_pop {s : Scopes} (h : ∀ b ∈ s.pop.1, b.isLive = false) (name : String) :
    s.pop.2.liveNamed name = s.liveNamed name := by
  rw [liveNamed_eq, liveNamed_eq]
  unfold pop at h ⊢
  split
  · rfl
  · rename_i f outer hcons
    rw [hcons] at h
    have hzero : List.countP (holds name) f = 0 := by
      refine List.countP_eq_zero.mpr fun b hb => ?_
      simp [holds, h b hb]
    simp [countIn, hcons, hzero]


/-- A linear binding of the name is in scope. -/
def Owns (name : String) (s : Scopes) : Prop := ∃ id b, s.get? id = some b ∧ b.isLinear = true ∧ b.name = name

theorem owns_of_lookup {s : Scopes} {name : String} {id : BindingId} {b : Binding}
    (h : s.lookup name = some (id, b)) (hlin : b.isLinear = true) : s.Owns name :=
  ⟨id, b, (get?_of_lookup h).1, hlin, (get?_of_lookup h).2⟩

theorem Owns.of_skeleton {s t : Scopes} {name : String} (h : t.Owns name) (hskel : s.skeleton = t.skeleton) :
    s.Owns name := by
  obtain ⟨id, b, hb, hlin, hname⟩ := h
  obtain ⟨b', hb', hblank⟩ := get?_of_skeleton hskel hb
  refine ⟨id, b', hb', (Binding.isLinear_of_blank hblank).trans hlin, ?_⟩
  rw [← Binding.blank_name, hblank, Binding.blank_name, hname]

theorem Owns.of_pop {s : Scopes} {name : String} (h : s.pop.2.Owns name) : s.Owns name := by
  obtain ⟨id, b, hb, hlin, hname⟩ := h
  rw [get?_pop] at hb
  split at hb
  · exact ⟨id, b, hb, hlin, hname⟩
  · cases hb

theorem Owns.of_define {s : Scopes} {b : Binding} {name : String} (h : (s.define b).2.Owns name) :
    (b.isLinear = true ∧ b.name = name) ∨ s.Owns name := by
  obtain ⟨id, b', hb, hlin, hname⟩ := h
  rw [get?_define] at hb
  split at hb
  · cases hb
    exact .inl ⟨hlin, hname⟩
  · exact .inr ⟨id, b', hb, hlin, hname⟩

end Scopes

namespace Regions

/-- The names of the open regions that the function itself opened. -/
def passing (rs : Regions) : List String := (rs.filter fun r => r.kind != .function).map Region.name

theorem passing_cons (r : Region) (outer : Regions) :
    passing (r :: outer) = if r.kind = .function then passing outer else r.name :: passing outer := by
  unfold passing
  rw [List.filter_cons]
  cases r.kind <;> rfl

theorem mem_passing {rs : Regions} {r : Region} (hr : r ∈ rs) (hkind : r.kind ≠ .function) : r.name ∈ rs.passing :=
  List.mem_map_of_mem (List.mem_filter.mpr ⟨hr, bne_iff_ne.mpr hkind⟩)

@[simp] theorem passing_attach (name : String) (ref : Reference) :
    ∀ rs : Regions, passing (attach name ref rs) = passing rs
  | [] => rfl
  | r :: outer => by
    unfold attach
    split
    · rw [passing_cons, passing_cons]
    · rw [passing_cons, passing_cons, passing_attach name ref outer]

end Regions

namespace Check
variable (c : Context) {s t : State}

/-- A step from `s` to `t` that logs `added`. -/
structure Entry (added : Option Event) (s t : State) : Prop where
  events : t.events = s.events ++ added.toList
  /-- A binding becomes live by a value that is given, and dead by one that is taken. -/
  level : ∀ x, (added.any (Event.gives x)).toNat + s.scopes.liveNamed x =
    (added.any (Event.takes x)).toNat + t.scopes.liveNamed x
  owns : ∀ x, t.scopes.Owns x → added.any (Event.gives x) = true ∨ s.scopes.Owns x
  uses : ∀ x, added.any (Event.uses x) = true → s.scopes.Owns x
  lends : ∀ r, added.any (Event.lends r) = true → r ∈ t.regions.passing
  closes : ∀ r ∈ s.regions.passing, added.any (Event.closes r) = true ∨ r ∈ t.regions.passing

namespace Entry

/-- A step that the log does not show. -/
theorem silent (hevents : t.events = s.events) (hlive : ∀ x, t.scopes.liveNamed x = s.scopes.liveNamed x)
    (howns : ∀ x, t.scopes.Owns x → s.scopes.Owns x) (hregions : ∀ r ∈ s.regions.passing, r ∈ t.regions.passing) :
    Entry none s t where
  events := hevents.trans (List.append_nil _).symm
  level x := congrArg _ (hlive x).symm
  owns x h := .inr (howns x h)
  uses _ h := nomatch h
  lends _ h := nomatch h
  closes r h := .inr (hregions r h)

theorem same (hevents : t.events = s.events) (hscopes : t.scopes = s.scopes) (hregions : t.regions = s.regions) :
    Entry none s t :=
  silent hevents (fun _ => hscopes ▸ rfl) (fun _ h => hscopes ▸ h) fun _ h => hregions ▸ h

end Entry

/-- From `s` to `t` in steps. -/
def Entries : State → State → Prop := Relation.ReflTransGen fun s t => ∃ added, Entry added s t

theorem Entry.entries {added : Option Event} (h : Entry added s t) : Entries s t := .single ⟨added, h⟩

/-- A step that goes by entries if it finds nothing. -/
structure Books (F : State → State) : Prop where
  grown : ∀ s, Grown s (F s)
  entries : ∀ {s}, (F s).found = [] → Entries s (F s)

namespace Books
variable {F G : State → State}

theorem skip : Books fun s => s := ⟨fun s => .refl s, fun _ => .refl⟩

theorem seq (hF : Books F) (hG : Books G) : Books fun s => G (F s) :=
  ⟨fun s => (hF.grown s).trans (hG.grown _), fun h => (hF.entries ((hG.grown _).eq_nil h)).trans (hG.entries h)⟩

theorem of_same (hgrown : ∀ s, Grown s (F s)) (hevents : ∀ s, (F s).events = s.events)
    (hscopes : ∀ s, (F s).scopes = s.scopes) (hregions : ∀ s, (F s).regions = s.regions) : Books F :=
  ⟨hgrown, fun {s} _ => (Entry.same (hevents s) (hscopes s) (hregions s)).entries⟩

end Books

/-! ### Actions -/

/-- A move that is made changes the live bindings by what it logs. -/
theorem books_settle {name : String} {pos : Span} {move : Binding → Except Violation BindingState} {event : Event}
    (hmove : ∀ {b state}, b.name = name → b.isLinear = true → move b = .ok state → ∀ x,
      (event.gives x).toNat + (Scopes.holds x b).toNat =
        (event.takes x).toNat + (Scopes.holds x {b with state}).toNat)
    (huses : ∀ x, event.uses x = true → name = x) (hlends : ∀ r, event.lends r = false) :
    Books fun s => settle c (s.scopes.attempt name pos move) event s := by
  refine ⟨fun s => grown_settle .., fun {s} hclean => ?_⟩
  have hspec := Scopes.attempt_spec s.scopes name pos move
  generalize s.scopes.attempt name pos move = outcome at hspec hclean
  cases hspec with
  | untracked => exact .refl
  | barred => exact absurd hclean (report_found c _ s)
  | wrong => exact absurd hclean (report_found c _ s)
  | @made id b state hlookup hlin hin hmade =>
    obtain ⟨hget, hname⟩ := Scopes.get?_of_lookup hlookup
    have hentry : Entry (some event) s {log event s with scopes := s.scopes.setState id state} := by
      refine ⟨rfl, fun x => ?_, fun x h => .inr (h.of_skeleton (Scopes.skeleton_setState ..).symm), fun x hx => ?_,
        fun r hr => ?_, fun r hr => .inr hr⟩
      · have hcount := Scopes.liveNamed_setState hget state x
        have hevent := hmove hname hlin hmade x
        show (event.gives x).toNat + _ = (event.takes x).toNat + (s.scopes.setState id state).liveNamed x
        omega
      · exact huses x hx ▸ Scopes.owns_of_lookup hlookup hlin
      · exact absurd hr (by rw [Option.any_some, hlends]; decide)
    exact hentry.entries

theorem holds_of_linear {b : Binding} (hlin : b.isLinear = true) (x : String) :
    Scopes.holds x b = (b.name == x && !b.state.isConsumed) := by
  rw [Scopes.holds, Binding.isLive, hlin, Bool.true_and]

theorem books_consume (name : String) (pos : Span) : Books (consume c name pos) := by
  refine books_settle c (fun {b state} hname hlin hmade x => ?_) (fun x => eq_of_beq) fun _ => rfl
  obtain ⟨hstate, rfl⟩ := Binding.consume_ok hmade
  rw [holds_of_linear hlin, holds_of_linear (b := {b with state := .consumed pos}) hlin, hstate, hname]
  cases hx : name == x <;> simp [Event.gives, Event.takes, BindingState.isConsumed, hx]

theorem books_overwrite (name : String) (pos : Span) : Books (overwrite c name pos) := by
  refine books_settle c (fun {b state} hname hlin hmade x => ?_) (fun x hx => nomatch hx) fun _ => rfl
  obtain ⟨⟨at₀, hstate⟩, rfl⟩ := Binding.overwrite_ok hmade
  rw [holds_of_linear hlin, holds_of_linear (b := {b with state := .unconsumed}) hlin, hstate, hname]
  cases hx : name == x <;> simp [Event.gives, Event.takes, BindingState.isConsumed, hx]

theorem books_read (name : String) (reads : LeafReads) (pos : Span) : Books (read c name reads pos) := by
  refine books_settle c (fun {b state} hname hlin hmade x => ?_) (fun x => eq_of_beq) fun _ => rfl
  rw [Binding.read_ok hmade]
  rfl

theorem entry_attach (kind : RefKind) (name : String) (id : BindingId) {region : String}
    (hregion : region ∈ s.regions.passing) (pos : Span) (froze : Bool) :
    Entry (some (.borrow name kind region pos)) s (attach kind name id region pos froze s) where
  events := rfl
  level _ := rfl
  owns _ h := .inr h
  uses _ h := nomatch h
  lends r hr := by
    rw [← eq_of_beq hr]
    exact (Regions.passing_attach ..).symm ▸ hregion
  closes r hr := .inr ((Regions.passing_attach ..).symm ▸ hr)

/-- A borrow into a region that is open. -/
theorem entries_borrowNamed (kind : RefKind) (name : String) {region : String} (hregion : region ∈ s.regions.passing)
    (pos : Span) (shareable : Bool) (hclean : (borrowNamed c kind name region pos shareable s).found = []) :
    Entries s (borrowNamed c kind name region pos shareable s) := by
  cases hlookup : s.scopes.lookup name with
  | none =>
    unfold borrowNamed
    rw [hlookup]
    exact .refl
  | some e =>
    obtain ⟨id, b⟩ := e
    rw [borrowNamed_of_lookup c hlookup] at hclean ⊢
    have hspec := borrowBinding_spec c kind name id region pos shareable s
    generalize borrowBinding c kind name id region pos shareable s = t at hspec hclean ⊢
    cases hspec with
    | conflict => exact absurd hclean (report_found c _ s)
    | refused => exact absurd hclean (report_found c _ s)
    | shared => exact (entry_attach kind name id hregion pos false).entries
    | @taken frozen scopes _ hfreeze =>
      have hfrozen : Entry none s {s with scopes} := by
        rcases Scopes.freeze_ok hlookup hfreeze with ⟨_, rfl, _⟩ | ⟨_, rfl, hlin, _, hstate⟩
        · exact .same rfl rfl rfl
        · refine .silent rfl (fun x => ?_) (fun x h => h.of_skeleton (Scopes.skeleton_setState ..).symm) fun _ h => h
          have hcount := Scopes.liveNamed_setState (Scopes.get?_of_lookup hlookup).1 (.frozen kind pos) x
          rw [holds_of_linear hlin, holds_of_linear (b := {b with state := .frozen kind pos}) hlin, hstate] at hcount
          exact Nat.add_right_cancel hcount
      exact hfrozen.entries.trans (entry_attach (s := {s with scopes}) kind name id hregion pos frozen.isSome).entries

theorem books_borrowExpr (kind : RefKind) (target : String) (ty : Ty) (pos : Span) :
    Books (borrowExpr c kind target ty pos) := by
  refine ⟨grown_borrowExpr c kind target ty pos, fun {s} hclean => ?_⟩
  cases ty with
  | ref k region referent =>
    rw [borrowExpr_ref] at hclean ⊢
    cases henter : enterStatement region pos s with
    | error v =>
      rw [henter] at hclean
      exact absurd hclean (report_found c v s)
    | ok t =>
      rw [henter] at hclean
      -- The region was one of the statement's, or it is opened here.
      rcases enterStatement_ok henter with ⟨rfl, r, hget, hkind⟩ | ⟨_, rfl⟩
      · have hname : r.name = region := by simpa using List.find?_some hget
        have hregion := Regions.mem_passing (List.mem_of_find?_eq_some hget) (by rw [hkind]; decide)
        rw [hname] at hregion
        exact entries_borrowNamed c kind target hregion pos true hclean
      · have hopen : Entry none s {s with regions := ⟨region, .statement, pos, []⟩ :: s.regions} :=
          .silent rfl (fun _ => rfl) (fun _ h => h) fun _ h => List.mem_cons_of_mem region h
        have hregion : region ∈ Regions.passing (⟨region, .statement, pos, []⟩ :: s.regions) := List.mem_cons_self
        exact hopen.entries.trans (entries_borrowNamed c kind target hregion pos true hclean)
  | _ => exact .refl

theorem entry_define (name : String) (ty : Ty) (pos : Span) (s : State) :
    Entry (some (.define name pos (c.table.classify c.kinds ty).isLinear)) s (define c name ty pos s) := by
  let b : Binding := ⟨name, ty, c.table.classify c.kinds ty, pos, s.regions.length, .unconsumed⟩
  refine ⟨rfl, fun x => ?_, fun x h => ?_, fun x hx => (nomatch hx), fun r hr => (nomatch hr), fun r hr => .inr hr⟩
  · have hcount : (define c name ty pos s).scopes.liveNamed x = s.scopes.liveNamed x + (Scopes.holds x b).toNat :=
      Scopes.liveNamed_define s.scopes b x
    rw [hcount]
    simp only [b, Option.any_some, Event.gives, Event.takes, Scopes.holds, Binding.isLive, Binding.isLinear,
      BindingState.isConsumed]
    cases (c.table.classify c.kinds ty).isLinear <;> cases name == x <;> simp
    omega
  · rcases Scopes.Owns.of_define (b := b) h with ⟨hlin, rfl⟩ | h
    · exact .inl (Bool.and_eq_true_iff.mpr ⟨hlin, beq_self_eq_true _⟩)
    · exact .inr h

theorem books_act (a : Action) : Books (act c a) := by
  have hgrown := grown_act c a
  cases a with
  | consume name pos => exact books_consume c name pos
  | read name reads pos => exact books_read c name _ pos
  | overwrite name pos => exact books_overwrite c name pos
  | borrow kind target ty pos => exact books_borrowExpr c kind target ty pos
  | define name ty pos => exact ⟨hgrown, fun {s} _ => (entry_define c name ty pos s).entries⟩
  | live =>
    exact .of_same hgrown (fun s => requireLive_events ..) (fun s => requireLive_scopes ..)
      fun s => requireLive_regions ..
  | outlive =>
    exact .of_same hgrown (fun s => requireOutlives_events ..) (fun s => requireOutlives_scopes ..)
      fun s => requireOutlives_regions ..
  | outlast region ty name pos =>
    refine .of_same hgrown (fun s => ?_) (fun s => requireOutlasts_scopes ..) fun s => requireOutlasts_regions ..
    show (requireOutlasts c region ty name pos s).events = s.events
    unfold requireOutlasts
    split
    · exact requireBelow_events ..
    · rfl
  | ownRegions =>
    exact .of_same hgrown (fun s => reportEscapes_events ..) (fun s => reportEscapes_scopes ..)
      fun s => reportEscapes_regions ..
  | allConsumed =>
    exact .of_same hgrown (fun s => reportAll_events ..) (fun s => reportAll_scopes ..) fun s => reportAll_regions ..
  | forbid =>
    exact .of_same hgrown (fun s => forbidLinear_events ..) (fun s => forbidLinear_scopes ..)
      fun s => forbidLinear_regions ..
  | refuse =>
    exact .of_same hgrown (fun s => report_events ..) (fun s => report_scopes ..) fun s => report_regions ..

theorem books_perform (acts : List Action) : Books (perform c acts) := by
  induction acts with
  | nil => exact .skip
  | cons a acts ih => exact ((books_act c a).seq ih :)

/-! ### Ends -/

theorem entry_closeRegion {r : Region} {outer : Regions} (h : s.regions = r :: outer) (pos : Span) :
    Entry (some (.close r.name pos)) s (closeRegion pos s) := by
  rw [closeRegion_eq h, release_eq]
  refine ⟨rfl, fun x => ?_, fun x hx => .inr (hx.of_skeleton (Scopes.skeleton_thawAll ..).symm),
    fun x hx => (nomatch hx), fun q hq => (nomatch hq), fun q hq => ?_⟩
  · exact congrArg _ (Scopes.liveNamed_thawAll ..).symm
  · rw [h, Regions.passing_cons] at hq
    split at hq
    · exact .inr hq
    · rcases List.mem_cons.mp hq with rfl | hq
      · exact .inl (beq_self_eq_true r.name)
      · exact .inr hq

theorem entries_closeRegion (pos : Span) (s : State) : Entries s (closeRegion pos s) := by
  cases h : s.regions with
  | nil =>
    unfold closeRegion
    rw [h]
    exact .refl
  | cons r outer => exact (entry_closeRegion h pos).entries

/-- Regions that are closed together may be closed one by one. -/
theorem entries_release (pos : Span) {rs outer : Regions} (h : s.regions = rs ++ outer) :
    Entries s (rs.foldl (release pos) {s with regions := outer}) := by
  induction rs generalizing s with
  | nil =>
    rw [List.foldl_nil, ← show s.regions = outer from h]
    exact .refl
  | cons r rs ih =>
    have hclose := closeRegion_eq h pos
    have hrest := ih (s := closeRegion pos s) (by rw [hclose, release_eq]; rfl)
    rw [hclose] at hrest
    exact (entry_closeRegion h pos).entries.trans (hclose ▸ hrest)

theorem entries_closeStatements (base : Nat) (pos : Span) (s : State) : Entries s (closeStatements base pos s) :=
  entries_release pos (Regions.append_closeStatements base s.regions).symm

theorem books_closing (pos : Span) (acts : List Action) : Books (closing c pos acts) := by
  refine ⟨grown_closing c pos acts, fun {s} hclean => ?_⟩
  rw [closing, closeStatements_found] at hclean
  exact ((books_perform c acts).entries hclean).trans (entries_closeStatements ..)

theorem books_evalClosed (e : Expr Span) : Books (evalClosed c e) := by
  rw [funext (evalClosed_eq c e)]
  exact books_closing c e.pos (actions e)

theorem books_unpack (parts : List (Unpacked Span)) : Books (unpack c parts) := by
  rw [funext (unpack_eq c parts)]
  exact books_perform c (unpackActions parts)

theorem entry_pushScope (s : State) : Entry none s (pushScope s) := by
  refine .silent rfl (fun x => Scopes.liveNamed_push ..) (fun x h => ?_) fun _ hr => hr
  obtain ⟨id, b, hb, hlin, hname⟩ := h
  exact ⟨id, b, (Scopes.get?_push ..).symm.trans hb, hlin, hname⟩

theorem books_pushScope : Books pushScope := ⟨fun _ => .of_same rfl rfl, fun {s} _ => (entry_pushScope s).entries⟩

theorem entry_popScope (h : ∀ b ∈ s.scopes.pop.1, b.isLive = false) : Entry none s (popScope s) :=
  .silent rfl (Scopes.liveNamed_pop h) (fun _ hx => hx.of_pop) fun _ hr => hr

theorem books_leaveScope (pos : Span) : Books (leaveScope c .continues pos) := by
  refine ⟨grown_leaveScope c .continues pos, fun {s} hclean => ?_⟩
  have hpop : Entry none s (popScope s) := by
    refine entry_popScope fun b hb => ?_
    cases hlive : b.isLive with
    | false => rfl
    | true => exact absurd hclean (leaveScope_ne_nil c hb hlive pos)
  have hleave : Entry none (popScope s) (leaveScope c .continues pos s) :=
    .same (leaveScope_events ..) (leaveScope_scopes ..) (leaveScope_regions ..)
  exact hpop.entries.trans hleave.entries

theorem entry_enterLoop (s : State) : Entry none s (enterLoop s) :=
  .silent rfl (fun _ => rfl) (fun _ h => h) fun _ hr => hr

theorem entry_exitLoop (before s : State) : Entry none s (exitLoop before s) :=
  .silent rfl (fun _ => rfl) (fun _ h => h) fun _ hr => hr

theorem books_enterLoop : Books enterLoop := ⟨fun _ => .of_same rfl rfl, fun {s} _ => (entry_enterLoop s).entries⟩

theorem books_enterBorrow (kind : RefKind) (source name region : Ident Span) :
    Books fun s => (enterBorrow c kind source name region s).2 := by
  refine ⟨grown_enterBorrow c kind source name region, fun {s} hclean => ?_⟩
  rw [enterBorrow_state] at hclean ⊢
  have hlend : Entries s (lend c kind source region s) := by
    have hfound : (lend c kind source region s).found = [] := hclean
    unfold lend at hfound ⊢
    dsimp only at hfound ⊢
    rcases openBorrow_cases c region s with ⟨v, hopen⟩ | ⟨_, hopen⟩ <;> rw [hopen] at hfound ⊢
    · exact absurd hfound (report_found c v s)
    · have hopened : Entry none s {s with regions := ⟨region.name, .explicit, region.pos, []⟩ :: s.regions} :=
        .silent rfl (fun _ => rfl) (fun _ h => h) fun _ h => List.mem_cons_of_mem region.name h
      have hregion : region.name ∈ Regions.passing (⟨region.name, .explicit, region.pos, []⟩ :: s.regions) :=
        List.mem_cons_self
      exact hopened.entries.trans (entries_borrowNamed c kind source.name hregion source.pos false hfound)
  exact hlend.trans ((entry_pushScope _).entries.trans (entry_define c name.name _ name.pos _).entries)

theorem entries_leaveBorrow (opened : Bool) (pos : Span) (s : State) : Entries s (leaveBorrow opened pos s) := by
  cases opened with
  | false => exact .refl
  | true => exact entries_closeRegion pos s

/-! ### Runs of paths -/

namespace Books
variable {c} {F : State → State}

theorem onward {G : State → State} (hF : Books F) (hG : Books G) : ∀ r : Reach, Books fun s => onward r G (F s)
  | .continues => hF.seq hG
  | .diverges => hF

theorem lent (hF : Books F) (r : Reach) (pos : Span) (kind : RefKind) (source name region : Ident Span) :
    Books (lent c r pos kind source name region F) := by
  have hbody := (books_enterBorrow c kind source name region).seq hF
  cases r with
  | diverges => exact hbody
  | continues =>
    have hleave := hbody.seq (books_leaveScope c pos)
    refine ⟨fun s => (hleave.grown s).trans (grown_leaveBorrow ..), fun {s} hclean => ?_⟩
    have hleft := (grown_leaveBorrow (enterBorrow c kind source name region s).1 pos _).eq_nil hclean
    exact (hleave.entries hleft).trans (entries_leaveBorrow ..)

theorem fenced (hF : Books F) : ∀ (barred : Bool) (r : Reach), Books (fenced barred r F)
  | false, _ => hF
  | true, .diverges => books_enterLoop.seq hF
  | true, .continues => by
    have hinside := books_enterLoop.seq hF
    exact ⟨fun s => (hinside.grown s).trans (.of_same rfl rfl), fun {s} h => (hinside.entries h).trans
      (entry_exitLoop s _).entries⟩

theorem secluded (hF : Books F) : Books (secluded F) := by
  refine ⟨fun s => .of_escaped (hF.grown {s with escaped := []}).found rfl, fun {s} h => ?_⟩
  have hstart : Entry none s {s with escaped := []} := .same rfl rfl rfl
  have hend : Entry none (F {s with escaped := []}) (Check.secluded F s) := .same rfl rfl rfl
  exact hstart.entries.trans ((hF.entries h).trans hend.entries)

end Books

/-- A path that finds nothing goes by entries. -/
theorem books_law (barred : Bool) : PathLaw c c barred barred fun _ F _ => Books F where
  skip := .skip
  seq hF hG := hF.seq hG
  perform _ := books_perform c _
  closing pos _ _ := books_closing c pos _
  ret _ _ _ := books_perform c _
  inScope {r} _ _ pos hF := (books_pushScope.seq hF).onward (books_leaveScope c pos) r
  lent pos kind source name region hF := hF.lent _ pos kind source name region
  fenced hF := hF.fenced barred _
  secluded hF := hF.secluded

end Check

end Linearity
