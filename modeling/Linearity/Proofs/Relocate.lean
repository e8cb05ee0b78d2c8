import Linearity.Proofs.Join
import Linearity.Proofs.Policy
import Linearity.Proofs.Translation

/-! Checks somewhere else.

A check stores places and reports them, but it never looks at one. It compares the ids of
bindings with each other and with nothing else. And what is in the log, or was found before,
only stands in front of what comes next. So a state can be carried elsewhere, to other places,
other ids and behind another log: a `Relocation` says how, and every step of a check does there
what it does here (`relocate_act`, `relocate_join` and their kin). -/
namespace Linearity

/-! ### Other places -/

section Places
variable (p : Span → Span)

def Event.relocate : Event → Event
  | .define name pos linear => .define name (p pos) linear
  | .consume name pos => .consume name (p pos)
  | .read name pos => .read name (p pos)
  | .borrow name kind region pos => .borrow name kind region (p pos)
  | .close region pos => .close region (p pos)

def BindingState.relocate : BindingState → BindingState
  | .unconsumed => .unconsumed
  | .consumed pos => .consumed (p pos)
  | .frozen kind pos => .frozen kind (p pos)

def Binding.relocate (b : Binding) : Binding :=
  {b with definedAt := p b.definedAt, state := b.state.relocate p}

def Reference.relocate (j : BindingId → BindingId) (ref : Reference) : Reference :=
  {ref with binding := j ref.binding, pos := p ref.pos}

def Region.relocate (j : BindingId → BindingId) (r : Region) : Region :=
  {r with openedAt := p r.openedAt, references := r.references.map (Reference.relocate p j)}

/-- A binding is consumed or not, wherever that was. -/
@[simp] theorem BindingState.isConsumed_relocate (state : BindingState) :
    (state.relocate p).isConsumed = state.isConsumed := by
  cases state <;> rfl

@[simp] theorem Binding.isLive_relocate (b : Binding) : (b.relocate p).isLive = b.isLive :=
  congrArg (fun consumed => b.isLinear && !consumed) (BindingState.isConsumed_relocate p b.state)

/-- Thawing does not look at places. -/
theorem Binding.thawed_relocate (b : Binding) : (b.relocate p).thawed = b.thawed.relocate p := by
  unfold thawed relocate
  cases hs : b.state <;> simp [BindingState.relocate, hs]

theorem Violation.relocate_id (v : Violation) : v.relocate (fun pos => pos) = v := by
  cases v <;> simp [relocate]

theorem Event.relocate_id (e : Event) : e.relocate (fun pos => pos) = e := by
  cases e <;> rfl

theorem Binding.relocate_id (b : Binding) : b.relocate (fun pos => pos) = b := by
  obtain ⟨name, ty, univ, definedAt, depth, state⟩ := b
  cases state <;> rfl

theorem Region.relocate_id (r : Region) : r.relocate (fun pos => pos) (fun i => i) = r := by
  have hrefs : r.references.map (Reference.relocate (fun pos => pos) fun i => i) = r.references :=
    List.map_id'' (fun _ => rfl) r.references
  unfold relocate
  rw [hrefs]

end Places

/-- How scopes, and the states that have them, are carried elsewhere. -/
structure Relocation where
  place : Span → Span
  id : BindingId → BindingId
  scopes : Scopes → Scopes
  /-- What is in the log before. -/
  events : List Event
  /-- What was found before. -/
  found : List Violation
  id_inj : ∀ {i j}, id i = id j → i = j
  entriesIn : ∀ s, Scopes.entriesIn (scopes s).frames =
    (Scopes.entriesIn s.frames).map fun e => (id e.1, e.2.relocate place)
  lookup : ∀ s name, (scopes s).lookup name = (s.lookup name).map fun e => (id e.1, e.2.relocate place)
  get? : ∀ s i, (scopes s).get? (id i) = (s.get? i).map (Binding.relocate place)
  modify : ∀ s i {f g : Binding → Binding}, (∀ b, g (b.relocate place) = (f b).relocate place) →
    scopes (s.modify i f) = (scopes s).modify (id i) g
  outsideLoop : ∀ s i, (scopes s).outsideLoop (id i) = s.outsideLoop i

namespace Relocation
variable (φ : Relocation)

def region (r : Region) : Region := r.relocate φ.place φ.id

def regions (rs : Regions) : Regions := rs.map φ.region

/-! ### Scopes -/

section Scopes
variable (s : Scopes)

/-- A binding can be set before it is carried or after. -/
theorem setState (i : BindingId) (state : BindingState) :
    φ.scopes (s.setState i state) = (φ.scopes s).setState (φ.id i) (state.relocate φ.place) :=
  φ.modify s i fun _ => rfl

theorem thaw (i : BindingId) : φ.scopes (s.thaw i) = (φ.scopes s).thaw (φ.id i) :=
  φ.modify s i fun b => b.thawed_relocate φ.place

/-- Bindings are thawed elsewhere under their ids there. -/
theorem thawAll (ids : List BindingId) : φ.scopes (s.thawAll ids) = (φ.scopes s).thawAll (ids.map φ.id) := by
  unfold Scopes.thawAll
  induction ids generalizing s with
  | nil => rfl
  | cons i ids ih => rw [List.foldl_cons, ih, φ.thaw, List.map_cons, List.foldl_cons]

/-- The linear bindings elsewhere are those here, in the same order. -/
theorem linearBindings : (φ.scopes s).linearBindings =
    s.linearBindings.map fun e => (φ.id e.1, e.2.relocate φ.place) := by
  unfold Scopes.linearBindings
  rw [φ.entriesIn, List.filter_map]
  rfl

/-- The live bindings elsewhere are those here, in the same order. -/
theorem live : (φ.scopes s).live = s.live.map (Binding.relocate φ.place) := by
  unfold Scopes.live
  rw [φ.entriesIn, List.map_map, List.filter_map, List.filter_map, List.map_map]
  simp only [Function.comp_def, Binding.isLive_relocate]

/-- The outcome of a move. -/
def outcome (outcome : Except Violation (Option BindingId) × Scopes) :
    Except Violation (Option BindingId) × Scopes :=
  ((outcome.1.map (Option.map φ.id)).mapError (Violation.relocate φ.place), φ.scopes outcome.2)

theorem outcome_ok (i : Option BindingId) (scopes : Scopes) :
    φ.outcome (.ok i, scopes) = (.ok (i.map φ.id), φ.scopes scopes) :=
  rfl

/-- Moves that do the same here and there. -/
def Moves (p : Span → Span) (move move' : Binding → Except Violation BindingState) : Prop :=
  ∀ b, move' (b.relocate p) = ((move b).map (BindingState.relocate p)).mapError (Violation.relocate p)

section Moves
variable (p : Span → Span) (pos : Span)

theorem moves_consume : Moves p (fun b => b.consume pos) fun b => b.consume (p pos) := by
  intro b
  cases hs : b.state <;> simp only [Binding.consume, Binding.relocate, BindingState.relocate, hs] <;> rfl

theorem moves_read (reads : LeafReads) : Moves p (fun b => b.read reads pos) fun b => b.read reads (p pos) := by
  intro b
  cases hs : b.state with
  | frozen kind prior =>
    by_cases hread : kind = .read ∧ reads = .any <;>
      simp only [Binding.read, Binding.relocate, BindingState.relocate, hs, hread, if_false] <;> rfl
  | _ =>
    simp only [Binding.read, Binding.relocate, BindingState.relocate, hs]
    rfl

theorem moves_freeze (kind : RefKind) : Moves p (fun b => b.freeze kind pos) fun b => b.freeze kind (p pos) := by
  intro b
  cases hs : b.state <;> simp only [Binding.freeze, Binding.relocate, BindingState.relocate, hs] <;> rfl

theorem moves_overwrite : Moves p (fun b => b.overwrite pos) fun b => b.overwrite (p pos) := by
  intro b
  cases hs : b.state <;> simp only [Binding.overwrite, Binding.relocate, BindingState.relocate, hs] <;> rfl

end Moves

/-- A move of a name goes elsewhere as it goes here, with the same outcome. -/
theorem attempt {move move' : Binding → Except Violation BindingState} (hmove : Moves φ.place move move')
    (name : String) (pos : Span) : (φ.scopes s).attempt name (φ.place pos) move' =
      φ.outcome (s.attempt name pos move) := by
  cases hlookup : s.lookup name with
  | none =>
    have hnone : (φ.scopes s).lookup name = none := by rw [φ.lookup, hlookup]; rfl
    rw [Scopes.attempt_of_lookup_none hlookup, Scopes.attempt_of_lookup_none hnone]
    rfl
  | some e =>
    obtain ⟨i, b⟩ := e
    have hsome : (φ.scopes s).lookup name = some (φ.id i, b.relocate φ.place) := by rw [φ.lookup, hlookup]; rfl
    rw [Scopes.attempt_of_lookup hlookup, Scopes.attempt_of_lookup hsome, φ.outsideLoop, hmove b,
      show (b.relocate φ.place).isLinear = b.isLinear from rfl]
    cases b.isLinear with
    | false => rfl
    | true =>
      cases s.outsideLoop i with
      | true => rfl
      | false =>
        cases move b with
        | error v => rfl
        | ok state => exact congrArg (Prod.mk _) (φ.setState s i state).symm

end Scopes

/-! ### Regions -/

section Regions
variable (rs : Regions) (name : String)

/-- A region is found elsewhere under its own name. -/
theorem regions_get? : (φ.regions rs).get? name = (rs.get? name).map φ.region := Regions.get?_map fun _ => rfl

theorem regions_isLive : (φ.regions rs).isLive name = rs.isLive name := Regions.isLive_map fun _ => rfl

theorem regions_position? : (φ.regions rs).position? name = rs.position? name :=
  Regions.position?_map (g := φ.region) fun _ => rfl

theorem regions_isFunctionRegion : (φ.regions rs).isFunctionRegion name = rs.isFunctionRegion name :=
  Regions.isFunctionRegion_map (fun _ => rfl) fun _ => rfl

/-- A region can be entered elsewhere exactly if it can be entered here. -/
theorem regions_enter (kind : RegionKind) (pos : Span) : (φ.regions rs).enter name kind (φ.place pos) =
    ((rs.enter name kind pos).map φ.regions).mapError (Violation.relocate φ.place) := by
  unfold Regions.enter
  rw [φ.regions_get?]
  cases rs.get? name <;> rfl

/-- A binding is borrowed elsewhere exactly if it is here, by the reference carried along. Ids
are carried one to one, so no other reference is found. -/
theorem regions_referenceTo (i : BindingId) : (φ.regions rs).referenceTo (φ.id i) =
    (rs.referenceTo i).map fun e => (φ.region e.1, e.2.relocate φ.place φ.id) := by
  have hsame : ∀ ref : Reference, ((ref.relocate φ.place φ.id).binding == φ.id i) = (ref.binding == i) := by
    intro ref
    rw [Bool.eq_iff_iff, beq_iff_eq, beq_iff_eq]
    exact ⟨φ.id_inj, congrArg φ.id⟩
  induction rs with
  | nil => rfl
  | cons r rs ih =>
    have hfind : (φ.region r).references.find? (fun ref => ref.binding == φ.id i) =
        (r.references.find? fun ref => ref.binding == i).map (Reference.relocate φ.place φ.id) := by
      simp only [region, Region.relocate, List.find?_map, Function.comp_def, hsame]
    simp only [regions, Regions.referenceTo, List.map_cons, List.findSome?_cons, hfind] at ih ⊢
    cases r.references.find? fun ref => ref.binding == i with
    | some ref => rfl
    | none => exact ih

/-- A reference can be attached before the regions are carried or after. -/
theorem regions_attach (ref : Reference) : φ.regions (rs.attach name ref) =
    (φ.regions rs).attach name (ref.relocate φ.place φ.id) := by
  induction rs with
  | nil => rfl
  | cons r rs ih =>
    unfold Regions.attach
    simp only [regions, List.map_cons] at ih ⊢
    by_cases hname : r.name = name
    · simp [hname, region, Region.relocate]
    · simpa [hname, region, Region.relocate] using ih

/-- The same regions close elsewhere and the same stay open. -/
theorem regions_closeStatements (base : Nat) : (φ.regions rs).closeStatements base =
    ((rs.closeStatements base).1.map φ.region, φ.regions (rs.closeStatements base).2) :=
  Regions.closeStatements_map (g := φ.region) (fun _ => rfl) base rs

/-- A region has frozen the same bindings, under their ids there. -/
theorem region_frozen (r : Region) : (φ.region r).frozen = r.frozen.map φ.id := by
  unfold region Region.relocate Region.frozen
  rw [List.filter_map, List.map_map, List.map_map]
  rfl

end Regions

end Relocation

/-! ### The same scopes, with other places -/

/-- A change of one binding that commutes with `h` commutes with `h` on the whole frame. -/
theorem Frame.map_modify_of_comm {f g h : Binding → Binding} (hcomm : ∀ b, g (h b) = h (f b)) (slot : Nat) :
    ∀ frame : Frame, (modify slot f frame).map h = modify slot g (frame.map h)
  | [] => rfl
  | b :: older => by
    simp only [modify, List.map_cons, List.length_map]
    split
    · rw [List.map_cons, hcomm]
    · rw [List.map_cons, map_modify_of_comm hcomm slot older]

theorem Frame.slots_map (h : Binding → Binding) :
    ∀ frame : Frame, slots (frame.map h) = (slots frame).map fun e => (e.1, h e.2)
  | [] => rfl
  | b :: older => by simp [slots, slots_map h older]

namespace Scopes

/-- A change of one binding that commutes with `h` commutes with `h` on all frames. -/
theorem modifyIn_map {f g h : Binding → Binding} (hcomm : ∀ b, g (h b) = h (f b)) (i : BindingId) :
    ∀ fs : List Frame, (modifyIn i f fs).map (fun frame => frame.map h) =
      modifyIn i g (fs.map fun frame => frame.map h)
  | [] => rfl
  | frame :: outer => by
    simp only [modifyIn, List.map_cons, List.length_map]
    split
    · rw [List.map_cons, Frame.map_modify_of_comm hcomm]
    · rw [List.map_cons, modifyIn_map hcomm i outer]

theorem entriesIn_map (h : Binding → Binding) : ∀ fs : List Frame,
    entriesIn (fs.map fun frame => frame.map h) = (entriesIn fs).map fun e => (e.1, h e.2)
  | [] => rfl
  | frame :: outer => by simp [entriesIn, entriesIn_map h outer, Frame.slots_map, Function.comp_def]

def relocate (p : Span → Span) (s : Scopes) : Scopes :=
  {s with frames := s.frames.map fun frame => frame.map (Binding.relocate p)}

theorem relocate_id (s : Scopes) : s.relocate (fun pos => pos) = s := by
  have hframe : ∀ frame : Frame, frame.map (Binding.relocate fun pos => pos) = frame :=
    List.map_id'' Binding.relocate_id
  unfold relocate
  rw [List.map_id'' hframe]

/-- The scope on top is the same one, with other places. -/
theorem pop_relocate (p : Span → Span) (s : Scopes) :
    (s.relocate p).pop = (s.pop.1.map (Binding.relocate p), s.pop.2.relocate p) := by
  obtain ⟨frames, barrier⟩ := s
  cases frames <;> rfl

/-- A binding can be defined before its scopes are moved or after. -/
theorem define_relocate (p : Span → Span) (s : Scopes) (b : Binding) :
    (s.define b).2.relocate p = ((s.relocate p).define (b.relocate p)).2 := by
  obtain ⟨frames, barrier⟩ := s
  cases frames <;> rfl

end Scopes

/-- To other places, behind another log. -/
def Relocation.moving (p : Span → Span) (events : List Event) (found : List Violation) : Relocation where
  place := p
  id := fun i => i
  scopes := Scopes.relocate p
  events := events
  found := found
  id_inj h := h
  entriesIn s := Scopes.entriesIn_map (Binding.relocate p) s.frames
  lookup s name := Scopes.lookupIn_map (g := Binding.relocate p) (fun _ => rfl) name s.frames
  get? s i := Scopes.getIn_map (Binding.relocate p) i s.frames
  modify s i _ _ h := congrArg (fun frames => (⟨frames, s.barrier⟩ : Scopes)) (Scopes.modifyIn_map h i s.frames)
  outsideLoop _ _ := rfl

namespace Check

def State.relocate (φ : Relocation) (s : State) : State where
  scopes := φ.scopes s.scopes
  regions := φ.regions s.regions
  events := φ.events ++ s.events.map (Event.relocate φ.place)
  found := φ.found ++ s.found.map (Violation.relocate φ.place)
  escaped := s.escaped

/-- What was found before does not stop the check. -/
def Fits (c : Context) (φ : Relocation) : Prop := c.Thorough ∨ φ.found = []

variable {c : Context} {φ : Relocation}

section Steps
variable (hφ : Fits c φ) (s : State)

include hφ

/-- A check stops elsewhere exactly if it stops here. -/
theorem halted_relocate : halted c (s.relocate φ) = halted c s := by
  rcases hφ with hc | hnil
  · rw [hc.halted, hc.halted]
  · unfold halted State.relocate
    rw [hnil, List.nil_append, List.isEmpty_map]

/-! ### Reports -/

/-- A violation is reported elsewhere at the places it has there. -/
theorem relocate_report (v : Violation) :
    (report c v s).relocate φ = report c (v.relocate φ.place) (s.relocate φ) := by
  unfold report
  rw [halted_relocate hφ]
  split
  · rfl
  · simp [State.relocate]

theorem relocate_reportAll (vs : List Violation) : (reportAll c vs s).relocate φ =
    reportAll c (vs.map (Violation.relocate φ.place)) (s.relocate φ) := by
  induction vs generalizing s with
  | nil => rfl
  | cons v vs ih => rw [reportAll_cons, ih, relocate_report hφ, List.map_cons, reportAll_cons]

theorem relocate_forbidLinear (ty : Ty) (v : Violation) :
    (forbidLinear c ty v s).relocate φ = forbidLinear c ty (v.relocate φ.place) (s.relocate φ) := by
  unfold forbidLinear
  split
  · exact relocate_report hφ s v
  · rfl

theorem relocate_reportEscape (name : Option String) (pos : Span) (r : String) :
    (reportEscape c name pos s r).relocate φ = reportEscape c name (φ.place pos) (s.relocate φ) r := by
  unfold reportEscape
  rw [show (s.relocate φ).escaped = s.escaped from rfl]
  split
  · rfl
  · exact relocate_report hφ {s with escaped := r :: s.escaped} _

/-- The same regions are reported to escape. -/
theorem relocate_reportEscapes (rs : List String) (name : Option String) (pos : Span) :
    (reportEscapes c rs name pos s).relocate φ = reportEscapes c rs name (φ.place pos) (s.relocate φ) := by
  unfold reportEscapes
  induction rs generalizing s with
  | nil => rfl
  | cons r rs ih => rw [List.foldl_cons, List.foldl_cons, ih, relocate_reportEscape hφ]

/-- Which regions are open does not depend on where they were opened. -/
theorem relocate_requireLive (ty : Ty) (name : Option String) (pos : Span) :
    (requireLive c ty name pos s).relocate φ = requireLive c ty name (φ.place pos) (s.relocate φ) := by
  unfold requireLive
  rw [relocate_reportEscapes hφ]
  simp only [State.relocate, φ.regions_isLive]

/-- Which regions are too short-lived does not depend on where they were opened. -/
theorem relocate_requireBelow (ty : Ty) (limit : Nat) (name : Option String) (pos : Span) :
    (requireBelow c ty limit name pos s).relocate φ = requireBelow c ty limit name (φ.place pos) (s.relocate φ) := by
  unfold requireBelow
  rw [relocate_reportEscapes hφ]
  simp only [State.relocate, φ.regions_position?]

theorem relocate_requireOutlives (name : String) (ty : Ty) (pos : Span) :
    (requireOutlives c name ty pos s).relocate φ = requireOutlives c name ty (φ.place pos) (s.relocate φ) := by
  unfold requireOutlives
  rw [show (s.relocate φ).scopes.lookup name = _ from φ.lookup s.scopes name]
  cases s.scopes.lookup name with
  | none => rfl
  | some e => exact relocate_requireBelow hφ s ty e.2.regionDepth (some name) pos

theorem relocate_requireOutlasts (region : String) (ty : Ty) (name : Option String) (pos : Span) :
    (requireOutlasts c region ty name pos s).relocate φ =
      requireOutlasts c region ty name (φ.place pos) (s.relocate φ) := by
  unfold requireOutlasts
  rw [show (s.relocate φ).regions.position? region = _ from φ.regions_position? s.regions region]
  cases s.regions.position? region with
  | none => rfl
  | some limit => exact relocate_requireBelow hφ s ty limit name pos

/-! ### Moves and borrows -/

/-- The outcome of a move is taken in elsewhere as it is here. -/
theorem relocate_settle (outcome : Except Violation (Option BindingId) × Scopes) (event : Event) :
    (settle c outcome event s).relocate φ =
      settle c (φ.outcome outcome) (event.relocate φ.place) (s.relocate φ) := by
  obtain ⟨outcome, scopes⟩ := outcome
  cases outcome with
  | error v => exact relocate_report hφ s v
  | ok i =>
    cases i with
    | none => rfl
    | some i =>
      rw [φ.outcome_ok]
      simp [settle, State.relocate, log]

/-- A move elsewhere is the move here, carried along. -/
theorem relocate_move {move move' : Binding → Except Violation BindingState}
    (hmove : Relocation.Moves φ.place move move') (name : String) (pos : Span) (event : Event) :
    (settle c (s.scopes.attempt name pos move) event s).relocate φ =
      settle c ((s.relocate φ).scopes.attempt name (φ.place pos) move') (event.relocate φ.place) (s.relocate φ) := by
  rw [relocate_settle hφ, ← φ.attempt s.scopes hmove]
  rfl

omit hφ in
theorem relocate_attach (kind : RefKind) (name : String) (i : BindingId) (region : String) (pos : Span)
    (froze : Bool) : (attach kind name i region pos froze s).relocate φ =
      attach kind name (φ.id i) region (φ.place pos) froze (s.relocate φ) := by
  simp [attach, State.relocate, log, φ.regions_attach, Reference.relocate, Event.relocate]

/-- A borrow of a binding is a conflict elsewhere exactly if it is one here, and otherwise
attaches the same reference. -/
theorem relocate_borrowBinding (kind : RefKind) (name : String) (i : BindingId) (region : String) (pos : Span)
    (shareable : Bool) : (borrowBinding c kind name i region pos shareable s).relocate φ =
      borrowBinding c kind name (φ.id i) region (φ.place pos) shareable (s.relocate φ) := by
  unfold borrowBinding
  rw [show (s.relocate φ).regions.referenceTo (φ.id i) = _ from φ.regions_referenceTo s.regions i,
    show (s.relocate φ).scopes.get? (φ.id i) = _ from φ.get? s.scopes i, Option.any_map]
  cases s.regions.referenceTo i with
  | some e =>
    simp only [Option.map_some]
    have hshare : mayShare kind ((s.scopes.get? i).any fun b => (b.relocate φ.place).isLinear) shareable
        (φ.region e.1) (e.2.relocate φ.place φ.id) =
          mayShare kind ((s.scopes.get? i).any Binding.isLinear) shareable e.1 e.2 := rfl
    rw [hshare]
    split
    · exact relocate_attach s kind name i region pos false
    · exact relocate_report hφ s _
  | none =>
    simp only [Option.map_none]
    have hfreeze : (s.relocate φ).scopes.freeze name kind (φ.place pos) =
        φ.outcome (s.scopes.freeze name kind pos) :=
      φ.attempt s.scopes (Relocation.moves_freeze φ.place pos kind) name pos
    rw [hfreeze]
    obtain ⟨outcome, scopes⟩ := s.scopes.freeze name kind pos
    cases outcome with
    | error v => exact relocate_report hφ s v
    | ok frozen =>
      have hsome : (frozen.map φ.id).isSome = frozen.isSome := Option.isSome_map
      rw [φ.outcome_ok]
      simp only [hsome]
      exact relocate_attach {s with scopes} kind name i region pos frozen.isSome

omit hφ in
theorem relocate_enterStatement (region : String) (pos : Span) :
    enterStatement region (φ.place pos) (s.relocate φ) =
      ((enterStatement region pos s).map (State.relocate φ)).mapError (Violation.relocate φ.place) := by
  unfold enterStatement
  rw [show (s.relocate φ).regions.get? region = _ from φ.regions_get? s.regions region, Option.any_map,
    show (s.relocate φ).regions.enter region .statement (φ.place pos) = _ from
      φ.regions_enter s.regions region .statement pos]
  by_cases hopen : (s.regions.get? region).any (fun r => r.kind == .statement) = true
  · rw [if_pos hopen, if_pos (by exact hopen)]
    rfl
  · rw [if_neg hopen, if_neg (by exact hopen)]
    cases s.regions.enter region .statement pos <;> rfl

/-- A borrow expression does elsewhere what it does here. -/
theorem relocate_borrowExpr (kind : RefKind) (target : String) (ty : Ty) (pos : Span) :
    (borrowExpr c kind target ty pos s).relocate φ = borrowExpr c kind target ty (φ.place pos) (s.relocate φ) := by
  unfold borrowExpr
  cases ty with
  | ref k region referent =>
    dsimp only
    rw [relocate_enterStatement]
    cases enterStatement region pos s with
    | error v => exact relocate_report hφ s v
    | ok t =>
      have hok : ((.ok t : Except Violation State).map (State.relocate φ)).mapError (Violation.relocate φ.place) =
        .ok (t.relocate φ) := rfl
      rw [hok]
      dsimp only
      rw [show (t.relocate φ).scopes.lookup target = _ from φ.lookup t.scopes target]
      cases t.scopes.lookup target with
      | none => rfl
      | some e => exact relocate_borrowBinding hφ t kind target e.1 region pos true
  | _ => rfl

/-! ### Actions -/

/-- An action does elsewhere what it does here. Where a binding is defined depends on how
scopes are carried. -/
theorem relocate_act {a : Action} (ha : a.plain = true) :
    (act c a s).relocate φ = act c (a.relocate φ.place) (s.relocate φ) := by
  cases a with
  | consume name pos => exact relocate_move hφ s (Relocation.moves_consume φ.place pos) name pos (.consume name pos)
  | read name reads pos =>
    exact relocate_move hφ s (Relocation.moves_read φ.place pos _) name pos (.read name pos)
  | overwrite name pos =>
    exact relocate_move hφ s (Relocation.moves_overwrite φ.place pos) name pos (.define name pos true)
  | borrow kind target ty pos => exact relocate_borrowExpr hφ s kind target ty pos
  | define => cases ha
  | live ty name pos => exact relocate_requireLive hφ s ty name pos
  | outlive name ty pos => exact relocate_requireOutlives hφ s name ty pos
  | outlast region ty name pos => exact relocate_requireOutlasts hφ s region ty name pos
  | ownRegions ty name pos =>
    refine (relocate_reportEscapes hφ s _ name pos).trans ?_
    simp only [act, Action.relocate, State.relocate, φ.regions_isFunctionRegion]
  | allConsumed pos =>
    refine (relocate_reportAll hφ s _).trans ?_
    simp only [act, Action.relocate, State.relocate, φ.live, List.map_map]
    rfl
  | forbid ty v h => exact relocate_forbidLinear hφ s ty v
  | refuse v h => exact relocate_report hφ s v

/-- Actions that define nothing do elsewhere what they do here. -/
theorem relocate_perform {acts : List Action} (hacts : acts.all Action.plain = true) :
    (perform c acts s).relocate φ = perform c (acts.map (Action.relocate φ.place)) (s.relocate φ) := by
  induction acts generalizing s with
  | nil => rfl
  | cons a acts ih =>
    rw [List.all_cons, Bool.and_eq_true] at hacts
    exact (ih (act c a s) hacts.2).trans (congrArg _ (relocate_act hφ s hacts.1))

/-! ### Closing regions -/

omit hφ in
theorem relocate_release (pos : Span) (r : Region) :
    (release pos s r).relocate φ = release (φ.place pos) (s.relocate φ) (φ.region r) := by
  simp only [release_eq, State.relocate, log, φ.thawAll, φ.region_frozen, List.map_append, List.append_assoc]
  rfl

omit hφ in
/-- Closing regions thaws elsewhere what it thaws here. -/
theorem relocate_closeStatements (base : Nat) (pos : Span) :
    (closeStatements base pos s).relocate φ = closeStatements base (φ.place pos) (s.relocate φ) := by
  unfold closeStatements
  rw [show (s.relocate φ).regions.closeStatements base = _ from φ.regions_closeStatements s.regions base]
  dsimp only
  generalize (s.regions.closeStatements base).1 = closed
  generalize hrest : (⟨s.scopes, (s.regions.closeStatements base).2, s.events, s.found, s.escaped⟩ : State) = t
  have ht : ({s.relocate φ with regions := φ.regions (s.regions.closeStatements base).2} : State) = t.relocate φ := by
    rw [← hrest]
    rfl
  rw [ht]
  clear ht hrest
  induction closed generalizing t with
  | nil => rfl
  | cons r closed ih => rw [List.foldl_cons, ih, relocate_release, List.map_cons, List.foldl_cons]

omit hφ in
theorem relocate_closeRegion (pos : Span) :
    (closeRegion pos s).relocate φ = closeRegion (φ.place pos) (s.relocate φ) := by
  unfold closeRegion
  rw [show (s.relocate φ).regions = s.regions.map φ.region from rfl]
  cases hr : s.regions with
  | nil => rfl
  | cons r outer => exact relocate_release {s with regions := outer} pos r

/-- Actions that define nothing, and the regions that close after them. -/
theorem relocate_closing (pos : Span) {acts : List Action} (hacts : acts.all Action.plain = true) :
    (closing c pos acts s).relocate φ =
      closing c (φ.place pos) (acts.map (Action.relocate φ.place)) (s.relocate φ) := by
  unfold closing
  rw [relocate_closeStatements, relocate_perform hφ s hacts,
    show (s.relocate φ).regions.length = s.regions.length from List.length_map ..]

/-! ### Scopes and borrow blocks -/

/-- The ends of scopes, if the innermost scope is the same there. -/
theorem relocate_leaveScope (hpop : (φ.scopes s.scopes).pop =
    (s.scopes.pop.1.map (Binding.relocate φ.place), φ.scopes s.scopes.pop.2)) (reach : Reach) (pos : Span) :
    (leaveScope c reach pos s).relocate φ = leaveScope c reach (φ.place pos) (s.relocate φ) := by
  have hpopped : (popScope s).relocate φ = popScope (s.relocate φ) := by
    simp only [popScope, State.relocate, hpop]
  have hviolations : (s.relocate φ).scopes.pop.1.exitViolations (φ.place pos) =
      (s.scopes.pop.1.exitViolations pos).map (Violation.relocate φ.place) := by
    simp only [State.relocate, hpop, Frame.exitViolations, Frame.bindings, ← List.map_reverse, List.filter_map,
      List.map_map, Function.comp_def, Binding.isLive_relocate]
    rfl
  unfold leaveScope
  rw [halted_relocate hφ, hviolations]
  split
  · rw [relocate_reportAll hφ, hpopped]
  · exact hpopped

omit hφ in
/-- A definition, if scopes are carried with it. -/
theorem relocate_define (name : String) (ty : Ty) (pos : Span) (hdefine : ∀ b,
    φ.scopes (s.scopes.define b).2 = ((φ.scopes s.scopes).define (b.relocate φ.place)).2) :
    (define c name ty pos s).relocate φ = define c name ty (φ.place pos) (s.relocate φ) := by
  have hlength : (φ.regions s.regions).length = s.regions.length := List.length_map ..
  simp only [define, State.relocate, log, hdefine, hlength, List.map_append, List.append_assoc]
  rfl

/-- The region of a borrow block opens elsewhere exactly if it opens here. -/
theorem relocate_openBorrow (region : Ident Span) : openBorrow c (region.relocate φ.place) (s.relocate φ) =
    ((openBorrow c region s).1, (openBorrow c region s).2.relocate φ) := by
  unfold openBorrow
  rw [show (s.relocate φ).regions.enter (region.relocate φ.place).name .explicit (region.relocate φ.place).pos = _ from
    φ.regions_enter s.regions region.name .explicit region.pos]
  cases s.regions.enter region.name .explicit region.pos with
  | ok regions => rfl
  | error v => exact congrArg (Prod.mk false) (relocate_report hφ s v).symm

theorem relocate_takeBorrow (kind : RefKind) (source region : Ident Span) :
    (takeBorrow c kind source region s).relocate φ =
      takeBorrow c kind (source.relocate φ.place) (region.relocate φ.place) (s.relocate φ) := by
  unfold takeBorrow
  rw [show (s.relocate φ).scopes.lookup (source.relocate φ.place).name = _ from φ.lookup s.scopes source.name]
  cases s.scopes.lookup source.name with
  | none => rfl
  | some e => exact relocate_borrowBinding hφ s kind source.name e.1 region.name source.pos false

/-- A borrow block lends elsewhere what it lends here. -/
theorem relocate_lend (kind : RefKind) (source region : Ident Span) : (lend c kind source region s).relocate φ =
    lend c kind (source.relocate φ.place) (region.relocate φ.place) (s.relocate φ) := by
  unfold lend
  rw [relocate_openBorrow hφ s region]
  dsimp only
  split
  · exact relocate_takeBorrow hφ _ kind source region
  · rfl

omit hφ in
/-- The binding of a borrow block has the same type, as types have no places. -/
theorem aliasTy_relocate (kind : RefKind) (source region : Ident Span) :
    aliasTy kind (source.relocate φ.place) (region.relocate φ.place) (s.relocate φ).scopes =
      aliasTy kind source region s.scopes := by
  unfold aliasTy
  rw [show (s.relocate φ).scopes.lookup (source.relocate φ.place).name = _ from φ.lookup s.scopes source.name,
    Option.map_map]
  rfl

/-! ### Joins -/

omit hφ in
/-- Where a binding was consumed is carried along with it. -/
theorem consumedAt_relocate (i : BindingId) (scopes : Scopes) :
    consumedAt (φ.id i) (φ.scopes scopes) = (consumedAt i scopes).map φ.place := by
  unfold consumedAt
  rw [φ.get?]
  cases scopes.get? i with
  | none => rfl
  | some b => cases hs : b.state <;> simp [Binding.relocate, BindingState.relocate, hs]

/-- An outcome elsewhere. -/
def Outcome.relocate (φ : Relocation) (o : Outcome) : Outcome := ⟨φ.place o.pos, o.exit.map φ.scopes⟩

/-- The end of a branch elsewhere. -/
def exitElsewhere (φ : Relocation) (e : Span × Scopes) : Span × Scopes := (φ.place e.1, φ.scopes e.2)

omit hφ in
/-- The same branches reach the join. -/
theorem reached_relocate (outcomes : List Outcome) :
    reached (outcomes.map (Outcome.relocate φ)) = (reached outcomes).map (exitElsewhere φ) := by
  unfold reached
  rw [List.filterMap_map, List.map_filterMap]
  congr 1
  funext o
  simp only [Function.comp_apply, Outcome.relocate, Option.map_map]
  rfl

/-- Branches disagree about a binding elsewhere exactly if they do here. -/
theorem relocate_noteDisagreement (exits : List (Span × Scopes)) (entry : BindingId × Binding) :
    (noteDisagreement c exits entry s).relocate φ = noteDisagreement c (exits.map (exitElsewhere φ))
      (φ.id entry.1, entry.2.relocate φ.place) (s.relocate φ) := by
  have hsome : ∀ e : Span × Scopes, (consumedAt (φ.id entry.1) (exitElsewhere φ e).2).isSome =
      (consumedAt entry.1 e.2).isSome := fun e => by rw [exitElsewhere, consumedAt_relocate, Option.isSome_map]
  have hnone : ∀ e : Span × Scopes, (consumedAt (φ.id entry.1) (exitElsewhere φ e).2).isNone =
      (consumedAt entry.1 e.2).isNone := fun e => by rw [exitElsewhere, consumedAt_relocate, Option.isNone_map]
  unfold noteDisagreement
  simp only [List.filter_map, Function.comp_def, hsome, hnone, List.isEmpty_map, List.map_map]
  split
  · rfl
  · rw [relocate_report hφ]
    simp only [Violation.relocate, List.map_map]
    rfl

theorem relocate_joinBinding (exits : List (Span × Scopes)) (entry : BindingId × Binding) :
    (joinBinding c exits s entry).relocate φ = joinBinding c (exits.map (exitElsewhere φ)) (s.relocate φ)
      (φ.id entry.1, entry.2.relocate φ.place) := by
  have hfirst : (exits.map (exitElsewhere φ)).findSome? (fun e => consumedAt (φ.id entry.1) e.2) =
      (exits.findSome? fun e => consumedAt entry.1 e.2).map φ.place := by
    rw [List.findSome?_map, List.map_findSome?]
    simp only [Function.comp_def, exitElsewhere, consumedAt_relocate]
  rw [joinBinding_eq, joinBinding_eq, hfirst, ← relocate_noteDisagreement hφ]
  generalize noteDisagreement c exits entry s = t
  cases exits.findSome? fun e => consumedAt entry.1 e.2 with
  | some pos => simp only [Option.map_some, State.relocate, φ.setState, BindingState.relocate]
  | none =>
    have hsome : (consumedAt (φ.id entry.1) (t.relocate φ).scopes).isSome = (consumedAt entry.1 t.scopes).isSome := by
      rw [show (t.relocate φ).scopes = φ.scopes t.scopes from rfl, consumedAt_relocate, Option.isSome_map]
    simp only [Option.map_none, hsome]
    split
    · simp only [State.relocate, φ.setState, BindingState.relocate]
    · rfl

/-- A join does elsewhere what it does here, and control goes on after it in both or in neither. -/
theorem relocate_join (outcomes : List Outcome) : join c (outcomes.map (Outcome.relocate φ)) (s.relocate φ) =
    ((join c outcomes s).1, (join c outcomes s).2.relocate φ) := by
  have hfold : ∀ (entries : List (BindingId × Binding)) (t : State),
      (entries.foldl (joinBinding c (reached outcomes)) t).relocate φ =
        (entries.map fun e => (φ.id e.1, e.2.relocate φ.place)).foldl
          (joinBinding c ((reached outcomes).map (exitElsewhere φ))) (t.relocate φ) := by
    intro entries
    induction entries with
    | nil => exact fun _ => rfl
    | cons entry entries ih =>
      intro t
      rw [List.foldl_cons, ih, relocate_joinBinding hφ, List.map_cons, List.foldl_cons]
  unfold join
  rw [reached_relocate, List.isEmpty_map]
  split
  · rfl
  · rw [hfold, show (s.relocate φ).scopes.linearBindings = _ from φ.linearBindings s.scopes]

end Steps

/-! ### Moving to other places -/

section Moving
variable {p : Span → Span} {events : List Event} {found : List Violation}
  (hc : Fits c (.moving p events found)) (s : State)

include hc

/-- A state that is only moved sees every action, the definitions included. -/
theorem relocate_act_moving (a : Action) : (act c a s).relocate (.moving p events found) =
    act c (a.relocate p) (s.relocate (.moving p events found)) := by
  by_cases ha : a.plain = true
  · exact relocate_act hc s ha
  · cases a with
    | define name ty pos => exact relocate_define s name ty pos fun b => Scopes.define_relocate p s.scopes b
    | _ => exact absurd rfl ha

/-- Any actions can be performed before a state is moved or after. -/
theorem relocate_perform_moving (acts : List Action) : (perform c acts s).relocate (.moving p events found) =
    perform c (acts.map (Action.relocate p)) (s.relocate (.moving p events found)) := by
  induction acts generalizing s with
  | nil => rfl
  | cons a acts ih => exact (ih (act c a s)).trans (congrArg _ (relocate_act_moving hc s a))

/-- The end of a scope is the same after a move to other places. -/
theorem relocate_leaveScope_moving (reach : Reach) (pos : Span) :
    (leaveScope c reach pos s).relocate (.moving p events found) =
      leaveScope c reach (p pos) (s.relocate (.moving p events found)) :=
  relocate_leaveScope hc s (Scopes.pop_relocate p s.scopes) reach pos

/-- A borrow block is entered in the same way after a move to other places. -/
theorem relocate_enterBorrow_moving (kind : RefKind) (source name region : Ident Span) :
    enterBorrow c kind (source.relocate p) (name.relocate p) (region.relocate p)
        (s.relocate (.moving p events found)) =
      ((enterBorrow c kind source name region s).1,
        (enterBorrow c kind source name region s).2.relocate (.moving p events found)) := by
  have hopen := congrArg Prod.fst (relocate_openBorrow hc s region)
  have hlend := relocate_lend hc s kind source region
  have halias := @aliasTy_relocate (.moving p events found) s kind source region
  refine Prod.ext ?_ ?_
  · rw [enterBorrow_eq, enterBorrow_eq]
    exact hopen
  · rw [enterBorrow_state, enterBorrow_state, relocate_define _ name.name _ name.pos fun b =>
      Scopes.define_relocate p _ b]
    exact congr (congrArg (fun ty t => define c name.name ty (p name.pos) (pushScope t)) halias) hlend.symm

end Moving

/-! ### Behind another log -/

/-- The same state, with more before it in the log and in what was found. -/
def State.following (events : List Event) (found : List Violation) (s : State) : State :=
  {s with events := events ++ s.events, found := found ++ s.found}

/-- All of a state but its log and what was found. -/
def State.bare (s : State) : State := {s with events := [], found := []}

/-- A state is determined by its scopes, its regions, what it has marked and what stands before it. -/
theorem State.eq_following {s t : State} (hscopes : t.scopes = s.scopes) (hregions : t.regions = s.regions)
    (hescaped : t.escaped = s.escaped) : t = s.bare.following t.events t.found := by
  obtain ⟨scopes, regions, events, found, escaped⟩ := t
  cases hscopes
  cases hregions
  cases hescaped
  simp [following, bare]

theorem Action.relocate_id (a : Action) : a.relocate (fun pos => pos) = a := by
  cases a with
  | forbid ty v h => simp only [relocate, Violation.relocate_id]
  | refuse v h => simp only [relocate, Violation.relocate_id]
  | _ => rfl

section Following
variable {events : List Event} {found : List Violation}

/-- Nothing is moved. -/
theorem State.relocate_stay (s : State) :
    s.relocate (.moving (fun pos => pos) events found) = s.following events found := by
  have hregions : (Relocation.moving (fun pos => pos) events found).regions s.regions = s.regions :=
    List.map_id'' Region.relocate_id s.regions
  unfold relocate following
  rw [hregions]
  simp only [Relocation.moving, Scopes.relocate_id]
  rw [List.map_id'' Event.relocate_id, List.map_id'' Violation.relocate_id]

theorem Outcome.relocate_stay (o : Outcome) : o.relocate (.moving (fun pos => pos) events found) = o := by
  obtain ⟨pos, exit⟩ := o
  cases exit with
  | none => rfl
  | some scopes => exact congrArg (fun scopes => (⟨pos, some scopes⟩ : Outcome)) scopes.relocate_id

variable (hfit : c.Thorough ∨ found = []) (s : State)

include hfit

/-- An action adds the same to any log. -/
theorem following_act (a : Action) : act c a (s.following events found) = (act c a s).following events found := by
  have hfits : Fits c (.moving (fun pos => pos) events found) := hfit
  have h := relocate_act_moving hfits s a
  rw [State.relocate_stay, State.relocate_stay, a.relocate_id] at h
  exact h.symm

theorem following_leaveScope (reach : Reach) (pos : Span) :
    leaveScope c reach pos (s.following events found) = (leaveScope c reach pos s).following events found := by
  have hfits : Fits c (.moving (fun pos => pos) events found) := hfit
  have h := relocate_leaveScope_moving hfits s reach pos
  rw [State.relocate_stay, State.relocate_stay] at h
  exact h.symm

theorem following_lend (kind : RefKind) (source region : Ident Span) :
    lend c kind source region (s.following events found) =
      (lend c kind source region s).following events found := by
  have h := relocate_lend (φ := .moving (fun pos => pos) events found) hfit s kind source region
  rw [State.relocate_stay, State.relocate_stay] at h
  exact h.symm

/-- A join sees nothing of the log before it. -/
theorem following_join (outcomes : List Outcome) : join c outcomes (s.following events found) =
    ((join c outcomes s).1, (join c outcomes s).2.following events found) := by
  have h := relocate_join (φ := .moving (fun pos => pos) events found) hfit s outcomes
  rw [State.relocate_stay, State.relocate_stay, List.map_id'' Outcome.relocate_stay] at h
  exact h

omit hfit

theorem following_closeStatements (base : Nat) (pos : Span) :
    closeStatements base pos (s.following events found) = (closeStatements base pos s).following events found := by
  have h := relocate_closeStatements (φ := .moving (fun pos => pos) events found) s base pos
  rw [State.relocate_stay, State.relocate_stay] at h
  exact h.symm

theorem following_closeRegion (pos : Span) :
    closeRegion pos (s.following events found) = (closeRegion pos s).following events found := by
  have h := relocate_closeRegion (φ := .moving (fun pos => pos) events found) s pos
  rw [State.relocate_stay, State.relocate_stay] at h
  exact h.symm

end Following

end Check

end Linearity
