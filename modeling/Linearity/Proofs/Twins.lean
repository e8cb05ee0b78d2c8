import Linearity.Proofs.Erasure
import Linearity.Proofs.Merging
import Linearity.Proofs.Tandem

/-! Checks that differ in places.

Where branches are joined, the place is kept at which one of them consumed a binding. In another
order, or in several steps, it is the place in another branch. As long as nothing is found such
places are never shown: two checks of the same code whose states are the same up to places
(`Twins`) stay so, and log the same events (`twins_tandem`). -/
namespace Linearity

/-- The same scopes up to places. -/
def Scopes.Like (a b : Scopes) : Prop := b.relocate nowhere = a.relocate nowhere

namespace Scopes.Like
variable {a b d : Scopes}

theorem refl (a : Scopes) : Scopes.Like a a := rfl

theorem symm (h : Scopes.Like a b) : Scopes.Like b a := Eq.symm h

theorem trans (h : Scopes.Like a b) (h' : Scopes.Like b d) : Scopes.Like a d := Eq.trans h' h

theorem length (h : Scopes.Like a b) : b.frames.length = a.frames.length := by
  have hframes := congrArg (fun s => s.frames.length) h
  simpa [relocate] using hframes

theorem barrier (h : Scopes.Like a b) : b.barrier = a.barrier := by
  have hbarrier := congrArg Scopes.barrier (show b.relocate nowhere = a.relocate nowhere from h)
  exact hbarrier

end Scopes.Like

namespace Check

/-! ### What a step logs -/

/-- From `s` to `t` nothing is logged, or just `events`. -/
def Logs (events : List Event) (s t : State) : Prop := t.events = s.events ∨ t.events = s.events ++ events

variable {c : Context} {s t : State}

theorem Logs.of_same (h : t.events = s.events) : Logs [] s t := .inl h

theorem Logs.after {events : List Event} {u : State} (h : Logs events t u) (hst : t.events = s.events) :
    Logs events s u := by
  unfold Logs at h ⊢
  rwa [hst] at h

/-- Two steps that log the same, if they log as much. -/
theorem Logs.common {events : List Event} {s' t' : State} (h : Logs events s s') (h' : Logs events t t')
    (hcount : s'.events.length + t.events.length = t'.events.length + s.events.length) :
    ∃ more, s'.events = s.events ++ more ∧ t'.events = t.events ++ more := by
  rcases h with h | h <;> rcases h' with h' | h'
  · exact ⟨[], by rw [h, List.append_nil], by rw [h', List.append_nil]⟩
  · have hnil : events = [] := by
      rw [h, h', List.length_append] at hcount
      exact List.eq_nil_of_length_eq_zero (by omega)
    exact ⟨[], by rw [h, List.append_nil], by rw [h', hnil]⟩
  · have hnil : events = [] := by
      rw [h, h', List.length_append] at hcount
      exact List.eq_nil_of_length_eq_zero (by omega)
    exact ⟨[], by rw [h, hnil], by rw [h', List.append_nil]⟩
  · exact ⟨events, h, h'⟩

theorem logs_settle (outcome : Except Violation (Option BindingId) × Scopes) (event : Event) (s : State) :
    Logs [event] s (settle c outcome event s) := by
  unfold settle
  split
  · exact .inr rfl
  · exact .inl rfl
  · exact .inl (report_events ..)

theorem logs_borrowBinding (kind : RefKind) (name : String) (id : BindingId) (region : String) (pos : Span)
    (shareable : Bool) (s : State) :
    Logs [.borrow name kind region pos] s (borrowBinding c kind name id region pos shareable s) := by
  unfold borrowBinding
  split
  · split
    · exact .inr rfl
    · exact .inl (report_events ..)
  · split
    · exact .inr rfl
    · exact .inl (report_events ..)

theorem logs_borrowExpr (kind k : RefKind) (target region : String) (referent : Ty) (pos : Span) (s : State) :
    Logs [.borrow target kind region pos] s (borrowExpr c kind target (.ref k region referent) pos s) := by
  unfold borrowExpr
  dsimp only
  split
  · exact .inl (report_events ..)
  · rename_i t hentered
    have hevents : t.events = s.events := by
      rcases enterStatement_ok hentered with ⟨rfl, _⟩ | ⟨_, rfl⟩ <;> rfl
    split
    · exact (logs_borrowBinding (c := c) kind target _ region pos true t).after hevents
    · exact .inl hevents

/-- What an action may log, but for definitions. -/
def Action.events : Action → List Event
  | .consume name pos => [.consume name pos]
  | .read name _ pos => [.read name pos]
  | .overwrite name pos => [.define name pos true]
  | .borrow kind target (.ref _ region _) pos => [.borrow target kind region pos]
  | _ => []

theorem logs_act {a : Action} (ha : a.plain = true) (s : State) : Logs a.events s (act c a s) := by
  cases a with
  | consume name pos => exact logs_settle ..
  | read name reads pos => exact logs_settle ..
  | overwrite name pos => exact logs_settle ..
  | borrow kind target ty pos =>
    cases ty with
    | ref k region referent => exact logs_borrowExpr kind k target region referent pos s
    | _ => exact .of_same rfl
  | define name ty pos => cases ha
  | live ty name pos => exact .of_same (requireLive_events ..)
  | outlive name ty pos => exact .of_same (requireOutlives_events ..)
  | outlast region ty name pos =>
    refine .of_same ?_
    show (requireOutlasts c region ty name pos s).events = s.events
    unfold requireOutlasts
    split
    · exact requireBelow_events ..
    · rfl
  | ownRegions ty name pos => exact .of_same (reportEscapes_events ..)
  | allConsumed pos => exact .of_same (reportAll_events ..)
  | forbid ty v h => exact .of_same (forbidLinear_events ..)
  | refuse v h => exact .of_same (report_events ..)

theorem logs_takeBorrow (kind : RefKind) (source region : Ident Span) (s : State) :
    Logs [.borrow source.name kind region.name source.pos] s (takeBorrow c kind source region s) := by
  unfold takeBorrow
  split
  · exact logs_borrowBinding ..
  · exact .inl rfl

theorem logs_lend (kind : RefKind) (source region : Ident Span) (s : State) :
    Logs [.borrow source.name kind region.name source.pos] s (lend c kind source region s) := by
  unfold lend
  rcases openBorrow_cases c region s with ⟨v, hopen⟩ | ⟨_, hopen⟩
  · rw [hopen]
    exact .inl (report_events ..)
  · rw [hopen]
    exact (logs_takeBorrow (c := c) kind source region _).after rfl

theorem foldl_release_events (rs : List Region) (pos : Span) (s : State) :
    (rs.foldl (release pos) s).events = s.events ++ rs.map fun r => .close r.name pos := by
  induction rs generalizing s with
  | nil => exact (List.append_nil _).symm
  | cons r rs ih =>
    rw [List.foldl_cons, ih]
    exact List.append_assoc ..

theorem closeStatements_events (base : Nat) (pos : Span) (s : State) : (closeStatements base pos s).events =
    s.events ++ (s.regions.closeStatements base).1.map fun r => .close r.name pos :=
  foldl_release_events ..

theorem closeRegion_events (pos : Span) (s : State) :
    (closeRegion pos s).events = s.events ++ (s.regions.take 1).map fun r => .close r.name pos := by
  unfold closeRegion
  split
  · rename_i hnil
    rw [hnil]
    exact (List.append_nil _).symm
  · rename_i hcons
    rw [hcons]
    rfl

/-! ### Twins -/

/-- Two checks that have found nothing and are at the same place in the same code. Their regions are
the same up to places, and their events are as `E` says. -/
structure Twins (E : List Event → List Event → Prop) (s t : State) : Prop where
  regions : t.erase.regions = s.erase.regions
  clean : s.found = [] ∧ t.found = []
  silent : s.escaped = [] ∧ t.escaped = []
  events : E s.events t.events

variable {E : List Event → List Event → Prop}

theorem silent_of_clean (h : Honest s) (hfound : s.found = []) : s.escaped = [] := by
  by_contra hne
  exact h hne hfound

theorem Twins.symm {E' : List Event → List Event → Prop} (hE : ∀ {l l'}, E l l' → E' l' l) (h : Twins E s t) :
    Twins E' t s :=
  ⟨h.regions.symm, h.clean.symm, h.silent.symm, hE h.events⟩

/-- Erased and without their logs, the two are the same. -/
theorem Twins.erase_eq (h : Twins E s t) (hscopes : s.scopes.Like t.scopes) :
    s.erase = s.erase.bare.following s.erase.events [] ∧ t.erase = s.erase.bare.following t.erase.events [] := by
  have hs : s.erase.found = [] := by rw [erase_found, h.clean.1]; rfl
  have ht : t.erase.found = [] := by rw [erase_found, h.clean.2]; rfl
  have hescaped : t.erase.escaped = s.erase.escaped := h.silent.2.trans h.silent.1.symm
  refine ⟨?_, ?_⟩
  · exact hs ▸ State.eq_following (s := s.erase) rfl rfl rfl
  · exact ht ▸ State.eq_following (s := s.erase) hscopes h.regions hescaped

/-- A step that does the same elsewhere and behind another log, and that logs events of its own. -/
theorem Twins.step (hE : ∀ ⦃l l'⦄ more, E l l' → E (l ++ more) (l' ++ more)) (h : Beside Scopes.Like (Twins E) s t)
    {F F' : State → State} (hgrown : ∀ s, Grown s (F s)) (herase : ∀ s, (F s).erase = F' s.erase)
    (hfollowing : ∀ u events, F' (u.following events []) = (F' u).following events [])
    {events : List Event} (hs : Logs events s (F s)) (ht : Logs events t (F t)) (hfound : (F s).found = []) :
    Beside Scopes.Like (Twins E) (F s) (F t) := by
  obtain ⟨heq, heq'⟩ := h.rest.erase_eq h.scopes
  have hFs := (herase s).trans ((congrArg F' heq).trans (hfollowing ..))
  have hFt := (herase t).trans ((congrArg F' heq').trans (hfollowing ..))
  generalize F' s.erase.bare = u at hFs hFt
  have hregions : (F t).erase.regions = (F s).erase.regions := by rw [hFs, hFt]; rfl
  have hescaped : (F t).escaped = (F s).escaped := by
    rw [show (F t).escaped = (F t).erase.escaped from rfl, hFt, show (F s).escaped = (F s).erase.escaped from rfl, hFs]
    rfl
  have hfound' : (F t).found = [] := by
    have hnil : u.found = [] := by
      have hu : (F s).erase.found = u.found := by rw [hFs]; rfl
      rw [← hu, erase_found, hfound]
      rfl
    have hu : (F t).erase.found = u.found := by rw [hFt]; rfl
    rw [hnil, erase_found] at hu
    exact List.map_eq_nil_iff.mp hu
  have hcount : (F s).events.length + t.events.length = (F t).events.length + s.events.length := by
    have hlength : ∀ w : State, w.erase.events.length = w.events.length := fun w => by
      rw [erase_events, List.length_map]
    have hls := congrArg (fun w : State => w.events.length) hFs
    have hlt := congrArg (fun w : State => w.events.length) hFt
    simp only [State.following, List.length_append, hlength] at hls hlt
    omega
  obtain ⟨more, hmore, hmore'⟩ := hs.common ht hcount
  have hsilent : (F s).escaped = [] :=
    silent_of_clean ((hgrown s).honest fun hne => absurd h.rest.silent.1 hne) hfound
  refine ⟨⟨hregions, ⟨hfound, hfound'⟩, ⟨hsilent, hescaped.trans hsilent⟩, ?_⟩, ?_⟩
  · rw [hmore, hmore']
    exact hE more h.rest.events
  · have hscopes : (F t).erase.scopes = (F s).erase.scopes := by rw [hFs, hFt]; rfl
    exact hscopes

/-- A twin may be replaced by one that is the same when erased. -/
theorem Twins.of_erase (h : Beside Scopes.Like (Twins E) s t) {t' : State} (herase : t'.erase = t.erase)
    (hevents : t'.events = t.events) : Beside Scopes.Like (Twins E) s t' := by
  have hfound : t'.found = [] := by
    have hnil : t'.found.map Violation.erase = [] := by
      rw [← erase_found, herase, erase_found, h.rest.clean.2]
      rfl
    exact List.map_eq_nil_iff.mp hnil
  have hescaped : t'.escaped = t.escaped := by
    show t'.erase.escaped = t.erase.escaped
    rw [herase]
  have hscopes : t'.erase.scopes = s.erase.scopes := (congrArg State.scopes herase).trans h.scopes
  exact ⟨⟨(congrArg State.regions herase).trans h.rest.regions, ⟨h.rest.clean.1, hfound⟩,
    ⟨h.rest.silent.1, hescaped.trans h.rest.silent.2⟩, hevents ▸ h.rest.events⟩, hscopes⟩

/-- The events of regions that are closed. -/
theorem map_close_erase (pos : Span) (rs : Regions) :
    ((Relocation.moving nowhere [] []).regions rs).map (fun r => Event.close r.name pos) =
      rs.map fun r => .close r.name pos :=
  List.map_map ..

theorem Twins.closing_events (h : Twins E s t) (base : Nat) (pos : Span) :
    (t.regions.closeStatements base).1.map (fun r => Event.close r.name pos) =
      (s.regions.closeStatements base).1.map fun r => .close r.name pos := by
  have hclosed : ∀ rs : Regions, ((Relocation.moving nowhere [] []).regions (rs.closeStatements base).1) =
      (((Relocation.moving nowhere [] []).regions rs).closeStatements base).1 := fun rs => by
    rw [Relocation.regions_closeStatements]
    rfl
  have hregions : (Relocation.moving nowhere [] []).regions t.regions =
    (Relocation.moving nowhere [] []).regions s.regions := h.regions
  rw [← map_close_erase, hclosed, hregions, ← hclosed, map_close_erase]

theorem Twins.top_events (h : Twins E s t) (pos : Span) :
    (t.regions.take 1).map (fun r => Event.close r.name pos) =
      (s.regions.take 1).map fun r => .close r.name pos := by
  have hregions : (Relocation.moving nowhere [] []).regions t.regions =
    (Relocation.moving nowhere [] []).regions s.regions := h.regions
  rw [List.map_take, List.map_take, ← map_close_erase, hregions, map_close_erase]

theorem erase_outcomes {outcomes outcomes' : List Outcome} (h : List.Forall₂ (Exits Scopes.Like) outcomes outcomes') :
    outcomes'.map Outcome.erase = outcomes.map Outcome.erase := by
  induction h with
  | nil => rfl
  | @cons o o' _ _ h _ ih =>
    obtain ⟨hpos, hexit⟩ := h
    have hfirst : o'.erase = o.erase := by
      obtain ⟨pos, exit⟩ := o
      obtain ⟨pos', exit'⟩ := o'
      cases hpos
      cases hexit with
      | none => rfl
      | some hlike => exact congrArg (fun scopes => (⟨nowhere pos, some scopes⟩ : Outcome)) hlike
    rw [List.map_cons, List.map_cons, hfirst, ih]

/-- Twins stay twins. -/
theorem twins_tandem (c : Context) (hE : ∀ ⦃l l'⦄ more, E l l' → E (l ++ more) (l' ++ more)) :
    Tandem c c Scopes.Like (Twins E) (fun found => found = []) 0 where
  prior hprefix hnil := List.prefix_nil.mp (hnil ▸ hprefix)
  apart _ _ h := ⟨h.regions, h.clean, h.silent, h.events⟩
  seclude h := ⟨h.regions, h.clean, ⟨rfl, rfl⟩, h.events⟩
  restore h h' := ⟨h'.regions, h'.clean, h.silent, h'.events⟩
  halted h := (halted_of_clean h.clean.2).trans (halted_of_clean h.clean.1).symm
  length h := by simpa [State.erase, State.relocate, Relocation.regions] using congrArg List.length h.regions
  act {s t a} ha h hfound := Twins.step hE h (grown_act c a) (fun s => relocate_act_moving (fits_erase c) s a)
    (fun u _ => following_act (.inr rfl) u _) (logs_act ha s) (logs_act ha t) hfound
  closeStatements {s t} base pos h hfound := Twins.step hE h
    (fun s => .of_same (closeStatements_found ..) (closeStatements_escaped ..))
    (fun s => relocate_closeStatements s base pos) (fun u _ => following_closeStatements u base _)
    (.inr (closeStatements_events base pos s))
    (.inr ((closeStatements_events base pos t).trans (by rw [h.rest.closing_events])))
    ((closeStatements_found base pos s).trans hfound)
  closeRegion {s t} pos h := Twins.step hE h (fun s => grown_leaveBorrow true pos s)
    (fun s => relocate_closeRegion s pos) (fun u _ => following_closeRegion u _) (.inr (closeRegion_events pos s))
    (.inr ((closeRegion_events pos t).trans (by rw [h.rest.top_events])))
    ((closeRegion_found pos s).trans h.rest.clean.1)
  define {s t} name ty pos _ h := Twins.step hE h (grown_act c (.define name ty pos))
    (fun s => relocate_act_moving (fits_erase c) s (.define name ty pos)) (fun u _ => following_act (.inr rfl) u _)
    (.inr rfl) (.inr rfl) h.rest.clean.1
  push {a b} _ h := congrArg Scopes.push (show b.relocate nowhere = a.relocate nowhere from h)
  pop {a b} _ h := by
    have hpop := congrArg (fun scopes => scopes.pop.2) (show b.relocate nowhere = a.relocate nowhere from h)
    simp only [Scopes.pop_relocate] at hpop
    exact hpop
  leave {s t} pos _ h hfound := (Twins.step hE h (grown_leaveScope c .continues pos)
    (fun s => relocate_leaveScope_moving (fits_erase c) s .continues pos)
    (fun u _ => following_leaveScope (.inr rfl) u .continues _) (.of_same (leaveScope_events ..))
    (.of_same (leaveScope_events ..)) hfound).rest
  lend {s t} kind source region h hfound := by
    refine ⟨Twins.step hE h (fun s => (grown_openBorrow c region s).trans (grown_lend kind source region s))
      (fun s => relocate_lend (fits_erase c) s kind source region)
      (fun u _ => following_lend (.inr rfl) u kind _ _) (logs_lend kind source region s)
      (logs_lend kind source region t) hfound, ?_, ?_⟩
    · have hopen : ∀ w : State, (openBorrow c (region.relocate nowhere) w.erase).1 = (openBorrow c region w).1 :=
        fun w => (congrArg (fun opened : Bool × State => opened.1) (relocate_openBorrow (fits_erase c) w region) :)
      rw [← hopen t, ← hopen s]
      unfold openBorrow
      rw [h.rest.regions]
      cases s.erase.regions.enter (region.relocate nowhere).name .explicit (region.relocate nowhere).pos <;> rfl
    · have halias : ∀ w : State, aliasTy kind (source.relocate nowhere) (region.relocate nowhere) w.erase.scopes =
          aliasTy kind source region w.scopes :=
        fun w => aliasTy_relocate (φ := .moving nowhere [] []) w kind source region
      rw [← halias t, ← halias s, show t.erase.scopes = s.erase.scopes from h.scopes]
  enterLoop {a b} _ h := by
    have hframes : (b.relocate nowhere).frames = (a.relocate nowhere).frames := congrArg Scopes.frames h
    show (⟨(b.relocate nowhere).frames, some b.frames.length⟩ : Scopes) =
      ⟨(a.relocate nowhere).frames, some a.frames.length⟩
    rw [hframes, h.length]
  exitLoop {a b a' b'} h h' := by
    have hframes : (b'.relocate nowhere).frames = (a'.relocate nowhere).frames := congrArg Scopes.frames h'
    show (⟨(b'.relocate nowhere).frames, b.barrier⟩ : Scopes) = ⟨(a'.relocate nowhere).frames, a.barrier⟩
    rw [hframes, h.barrier]
  join {s₀ t₀ s t outcomes outcomes'} _ _ hexits h hfound := by
    have hstep := @Twins.step s t E hE h (fun w => (join c outcomes w).2)
      (fun w => (join c (outcomes.map Outcome.erase) w).2) (grown_join c outcomes)
      (fun w => (congrArg Prod.snd (join_erase c outcomes w)).symm)
      (fun u _ => congrArg Prod.snd (following_join (.inr rfl) u (outcomes.map Outcome.erase))) []
      (.of_same (join_frame c s).2.2.2.1) (.of_same (join_frame c t).2.2.2.1) hfound
    have herase := (join_erase c outcomes' t).symm.trans
      ((congrArg (fun os => join c os t.erase) (erase_outcomes hexits)).trans (join_erase c outcomes t))
    have hreach : (join c outcomes' t).1 = (join c outcomes s).1 :=
      (congrArg Prod.fst herase).trans (reach_join outcomes s t)
    have hevents : (join c outcomes' t).2.events = (join c outcomes t).2.events := by
      rw [(join_frame c t).2.2.2.1, (join_frame c t).2.2.2.1]
    have hbeside := Twins.of_erase hstep (congrArg Prod.snd herase) hevents
    exact ⟨hreach, hbeside.rest, fun _ => hbeside.scopes⟩

/-! ### Joins -/

/-- Where the branches end that are reached. -/
def ends (outcomes : List Outcome) : List Scopes := outcomes.filterMap Outcome.exit

theorem mem_ends {outcomes : List Outcome} {scopes : Scopes} :
    scopes ∈ ends outcomes ↔ ∃ o ∈ outcomes, o.exit = some scopes :=
  List.mem_filterMap

theorem mem_ends_cons {o : Outcome} {outcomes : List Outcome} {scopes : Scopes} :
    scopes ∈ ends (o :: outcomes) ↔ o.exit = some scopes ∨ scopes ∈ ends outcomes := by
  simp [mem_ends]

/-- Branches with related ends. -/
theorem like_ends {outcomes outcomes' : List Outcome} (h : List.Forall₂ (Exits Scopes.Like) outcomes outcomes') :
    (∀ a ∈ ends outcomes, ∃ b ∈ ends outcomes', a.Like b) ∧ ∀ b ∈ ends outcomes', ∃ a ∈ ends outcomes, a.Like b := by
  induction h with
  | nil => exact ⟨fun a ha => absurd ha List.not_mem_nil, fun b hb => absurd hb List.not_mem_nil⟩
  | @cons o o' _ _ h _ ih =>
    have hexit := h.exit
    constructor
    · intro a ha
      rcases mem_ends_cons.mp ha with hfirst | hrest
      · rw [hfirst] at hexit
        generalize hb : o'.exit = exit' at hexit
        cases hexit with
        | some hlike => exact ⟨_, mem_ends_cons.mpr (.inl hb), hlike⟩
      · obtain ⟨b, hb, hlike⟩ := ih.1 a hrest
        exact ⟨b, mem_ends_cons.mpr (.inr hb), hlike⟩
    · intro b hb
      rcases mem_ends_cons.mp hb with hfirst | hrest
      · rw [hfirst] at hexit
        generalize ha : o.exit = exit at hexit
        cases hexit with
        | some hlike => exact ⟨_, mem_ends_cons.mpr (.inl ha), hlike⟩
      · obtain ⟨a, ha, hlike⟩ := ih.2 b hrest
        exact ⟨a, mem_ends_cons.mpr (.inr ha), hlike⟩

theorem map_reached (outcomes : List Outcome) : (reached outcomes).map Prod.snd = ends outcomes := by
  unfold reached ends
  rw [List.map_filterMap]
  congr 1
  funext o
  rw [Option.map_map]
  exact Option.map_id' ..

theorem mem_ends_iff_reached {outcomes : List Outcome} {scopes : Scopes} :
    scopes ∈ ends outcomes ↔ ∃ e ∈ reached outcomes, e.2 = scopes := by
  rw [← map_reached, List.mem_map]

theorem reach_eq (outcomes : List Outcome) (s : State) :
    (join c outcomes s).1 = if ends outcomes = [] then .diverges else .continues := by
  unfold join
  rw [← map_reached]
  cases reached outcomes <;> rfl

theorem like_of_unplaced {a b : Scopes} (h : a.unplaced = b.unplaced) : a.Like b := by
  have hbinding : ∀ d : Binding, d.unplaced.relocate nowhere = d.relocate nowhere := fun d => by
    cases hstate : d.state <;>
      simp [Binding.unplaced, Binding.relocate, BindingState.unplaced, BindingState.relocate, hstate, nowhere]
  have hscopes : ∀ d : Scopes, d.unplaced.relocate nowhere = d.relocate nowhere := fun d => by
    simp [Scopes.unplaced, Scopes.relocate, Function.comp_def, hbinding]
  show b.relocate nowhere = a.relocate nowhere
  rw [← hscopes b, ← h, hscopes a]

theorem isSome_consumedAt_of_like {a b : Scopes} (h : a.Like b) (id : BindingId) :
    (consumedAt id b).isSome = (consumedAt id a).isSome := by
  have herase : ∀ d : Scopes, (consumedAt id (d.relocate nowhere)).isSome = (consumedAt id d).isSome := fun d => by
    rw [show consumedAt id (d.relocate nowhere) = _ from consumedAt_relocate (φ := .moving nowhere [] []) id d]
    exact Option.isSome_map
  rw [← herase b, show b.relocate nowhere = a.relocate nowhere from h, herase a]

/-- Branches that are joined without a report end alike, and the join with them. -/
theorem like_join {outcomes : List Outcome} {start : State} (h : Branched start outcomes s)
    (hfound : (join c outcomes s).2.found = []) {scopes : Scopes} (hmem : scopes ∈ ends outcomes) :
    scopes.Like (join c outcomes s).2.scopes := by
  obtain ⟨e, he, rfl⟩ := mem_ends_iff_reached.mp hmem
  refine like_of_unplaced (h.scopes_of_agree (fun hb hlin => ?_) he).symm
  exact agree_of_join c hfound hb hlin

/-- Branches that end alike are joined without a report. -/
theorem clean_join {outcomes : List Outcome} (hclean : s.found = [])
    (hlike : ∀ a ∈ ends outcomes, ∀ b ∈ ends outcomes, a.Like b) : (join c outcomes s).2.found = [] := by
  refine List.eq_nil_iff_forall_not_mem.mpr fun v hv => ?_
  rcases mem_join c hv with hv | ⟨id, _, _, _, ⟨⟨e, he, hsome⟩, e', he', hnone⟩, _⟩
  · rw [hclean] at hv
    cases hv
  · have hee := hlike e.2 (mem_ends_iff_reached.mpr ⟨e, he, rfl⟩) e'.2 (mem_ends_iff_reached.mpr ⟨e', he', rfl⟩)
    rw [isSome_consumedAt_of_like hee, hsome] at hnone
    cases hnone

/-- Two joins of branches that end alike. -/
theorem runs_join {outcomes outcomes' : List Outcome} {start start' : State} (h : Branched start outcomes s)
    (h' : Branched start' outcomes' t) (hst : Twins E s t)
    (hleft : ∀ a ∈ ends outcomes, ∃ b ∈ ends outcomes', a.Like b)
    (hright : ∀ b ∈ ends outcomes', ∃ a ∈ ends outcomes, a.Like b) (hfound : (join c outcomes s).2.found = []) :
    Runs Scopes.Like (Twins E) (join c outcomes s) (join c outcomes' t) := by
  have hfound' : (join c outcomes' t).2.found = [] := by
    refine clean_join hst.clean.2 fun b hb b' hb' => ?_
    obtain ⟨a, ha, hab⟩ := hright b hb
    obtain ⟨a', ha', hab'⟩ := hright b' hb'
    exact hab.symm.trans ((like_join h hfound ha).trans ((like_join h hfound ha').symm.trans hab'))
  have hnil : ends outcomes' = [] ↔ ends outcomes = [] := by
    simp only [List.eq_nil_iff_forall_not_mem]
    constructor
    · intro hnone a ha
      obtain ⟨b, hb, _⟩ := hleft a ha
      exact hnone b hb
    · intro hnone b hb
      obtain ⟨a, ha, _⟩ := hright b hb
      exact hnone a ha
  obtain ⟨_, _, hregions, hevents, hescaped⟩ := @join_frame c outcomes s
  obtain ⟨_, _, hregions', hevents', hescaped'⟩ := @join_frame c outcomes' t
  refine ⟨by simp only [reach_eq, hnil], ⟨?_, ⟨hfound, hfound'⟩, ?_, ?_⟩, fun hreach => ?_⟩
  · show (Relocation.moving nowhere [] []).regions _ = (Relocation.moving nowhere [] []).regions _
    rw [hregions, hregions']
    exact hst.regions
  · rw [hescaped, hescaped']
    exact hst.silent
  · rw [hevents, hevents']
    exact hst.events
  · obtain ⟨a, ha⟩ : ∃ a, a ∈ ends outcomes := by
      refine List.exists_mem_of_ne_nil _ fun hempty => ?_
      rw [reach_eq, if_pos hempty] at hreach
      cases hreach
    obtain ⟨b, hb, hab⟩ := hleft a ha
    exact (like_join h hfound ha).symm.trans (hab.trans (like_join h' hfound' hb))

/-! ### Replacements -/

/-- A relation of logs that lasts, whatever is logged later. -/
structure Lasting (E : List Event → List Event → Prop) : Prop where
  refl : ∀ l, E l l
  trans : ∀ {l l' l''}, E l l' → E l' l'' → E l l''
  append : ∀ ⦃l l'⦄ more, E l l' → E (l ++ more) (l' ++ more)

theorem Runs.trans_twins (hE : Lasting E) {x y z : Reach × State} (h : Runs Scopes.Like (Twins E) x y)
    (h' : Runs Scopes.Like (Twins E) y z) : Runs Scopes.Like (Twins E) x z :=
  ⟨h'.reach.trans h.reach,
    ⟨h'.rest.regions.trans h.rest.regions, ⟨h.rest.clean.1, h'.rest.clean.2⟩, ⟨h.rest.silent.1, h'.rest.silent.2⟩,
      hE.trans h.rest.events h'.rest.events⟩,
    fun hreach => (h.scopes hreach).trans (h'.scopes (h.reach.trans hreach))⟩

/-- One statement does for the other: where nothing is found in the one, nothing is in the other,
and both come out as twins. -/
def Replaces (E : List Event → List Event → Prop) (x y : Stmt Span) : Prop :=
  ∀ ⦃c s⦄, Inside s → s.escaped = [] → (visit c x s).2.found = [] →
    Runs Scopes.Like (Twins E) (visit c x s) (visit c y s)

theorem Inside.like (hs : Inside s) (ht : Ready t) (h : s.scopes.Like t.scopes) : Inside t :=
  hs.deeper ht h.barrier (Nat.le_of_eq h.length.symm)

section Replace
variable (hE : Lasting E) {B : Stmt Span → Stmt Span → Prop} (hB : ∀ ⦃x y⦄, B x y → Replaces E x y)

include hE hB

/-- Replacements may be made anywhere. -/
theorem holds_of_replaces {code code' : Code} (h : Rewrites B code code') :
    Tandem.Holds c c Scopes.Like (Twins E) (fun found => found = []) 0 code code' := by
  have law := twins_tandem c hE.append
  refine law.holds (fun x y hxy s t hs ht hk hst hfound => ?_) h
  -- First the same statement from the other state, then the replacement there.
  have hsame := law.same (.refl_stmt _ x) hs ht hk hst hfound
  exact hsame.trans_twins hE (hB hxy (hs.like ht hst.scopes) hst.rest.silent.2 hsame.rest.clean.2)

/-- So a function may be replaced by another. -/
theorem ok_of_rewrites {T : TypeTable} {settings : Settings} {f : FunDef Span} {body : Block Span}
    (h : Rewrites B (.block f.body) (.block body)) {usage : Usage} (hok : checkFunction T settings f = .ok usage) :
    ∃ usage', checkFunction T settings {f with body} = .ok usage' ∧ usage'.name = usage.name ∧
      E usage.events usage'.events := by
  have hclean : (finalState T settings f).found = [] := found_of_ok hok
  have hentry : (entryState ⟨T, .ofParams f.typeParams, settings⟩ f).found = [] := by
    refine Grown.eq_nil ?_ hclean
    exact (grown_checkBlock _ f.body _).trans (grown_leaveScope ..)
  have hsilent : (entryState ⟨T, .ofParams f.typeParams, settings⟩ f).escaped = [] :=
    silent_of_clean (honest_entryState _ f) hentry
  have htwins : Twins E (finalState T settings f) (finalState T settings {f with body}) :=
    (twins_tandem _ hE.append).runFunction (holds_of_replaces hE hB h)
      ⟨⟨rfl, ⟨hentry, hentry⟩, ⟨hsilent, hsilent⟩, hE.refl _⟩, .refl _⟩ hclean
  have husage := (ok_of_found hclean).symm.trans hok
  cases husage
  exact ⟨_, ok_of_found htwins.clean.2, rfl, htwins.events⟩

end Replace

end Check

end Linearity
