import Linearity.Proofs.Relocate
import Linearity.Proofs.Tandem

/-! A scope more.

A scope that holds nothing can stand between the others. It shifts the ids of the bindings
inside it and nothing else, so a check with it goes as a check without it (`padding_tandem`).
A block of one statement that binds nothing opens just such a scope. -/
namespace Linearity

/-- Where a binding is when a scope is put in with the number `k`. -/
def BindingId.pad (k : Nat) (id : BindingId) : BindingId := if id.frame < k then id else ⟨id.frame + 1, id.slot⟩

theorem BindingId.pad_of_lt {k : Nat} {id : BindingId} (h : id.frame < k) : id.pad k = id := if_pos h

theorem BindingId.pad_frame (k : Nat) (id : BindingId) :
    (id.pad k).frame = if id.frame < k then id.frame else id.frame + 1 := by
  unfold pad
  split <;> rfl

theorem BindingId.pad_slot (k : Nat) (id : BindingId) : (id.pad k).slot = id.slot := by
  unfold pad
  split <;> rfl

theorem BindingId.pad_inj {k : Nat} {i j : BindingId} (h : i.pad k = j.pad k) : i = j := by
  obtain ⟨iframe, islot⟩ := i
  obtain ⟨jframe, jslot⟩ := j
  unfold pad at h
  split at h <;> split at h <;> simp_all <;> omega

namespace Scopes

/-- The scopes with an empty one more, which has the number `k`. -/
def padIn (k : Nat) : List Frame → List Frame
  | [] => if k = 0 then [[]] else []
  | f :: outer => if outer.length + 1 = k then [] :: f :: outer else f :: padIn k outer

def pad (k : Nat) (s : Scopes) : Scopes :=
  ⟨padIn k s.frames, s.barrier.map fun bar => if bar ≤ k then bar else bar + 1⟩

section Pad
variable {k : Nat}

theorem length_padIn (fs : List Frame) :
    (padIn k fs).length = if fs.length < k then fs.length else fs.length + 1 := by
  induction fs with
  | nil =>
    unfold padIn
    by_cases hk : k = 0
    · simp [hk]
    · simp [hk, Nat.pos_of_ne_zero hk]
  | cons f outer ih =>
    unfold padIn
    split
    · simp [*]
    · rw [List.length_cons, ih, List.length_cons]
      split <;> split <;> omega

/-- Further in, nothing changes. -/
theorem padIn_cons (f : Frame) {outer : List Frame} (h : (f :: outer).length ≠ k) :
    padIn k (f :: outer) = f :: padIn k outer :=
  if_neg h

/-- As the innermost, the empty scope has just been opened. -/
theorem padIn_top {fs : List Frame} (h : fs.length = k) : padIn k fs = [] :: fs := by
  cases fs with
  | nil => exact if_pos h.symm
  | cons f outer => exact if_pos h

/-- The number of a scope among the others. -/
theorem frame_pad (id : BindingId) (outer : List Frame) :
    (id.pad k).frame = (padIn k outer).length ↔ id.frame = outer.length := by
  rw [BindingId.pad_frame, length_padIn]
  split <;> split <;> omega

theorem frame_pad_ne (id : BindingId) : (id.pad k).frame ≠ k := by
  rw [BindingId.pad_frame]
  split <;> omega

theorem getIn_padIn (id : BindingId) (fs : List Frame) : getIn (id.pad k) (padIn k fs) = getIn id fs := by
  induction fs with
  | nil =>
    unfold padIn
    split
    · simp [getIn, Frame.get?]
    · rfl
  | cons f outer ih =>
    by_cases hk : (f :: outer).length = k
    · rw [padIn_top hk, getIn, if_neg (hk ▸ frame_pad_ne id)]
      by_cases hid : id.frame < k
      · rw [BindingId.pad_of_lt hid]
      · rw [getIn_of_le, getIn_of_le]
        · exact hk ▸ Nat.le_of_not_lt hid
        · rw [BindingId.pad_frame, if_neg hid, hk]
          omega
    · rw [padIn_cons f hk]
      simp only [getIn, frame_pad, BindingId.pad_slot, ih]

theorem modifyIn_of_le {id : BindingId} {fs : List Frame} (h : fs.length ≤ id.frame) (g : Binding → Binding) :
    modifyIn id g fs = fs := by
  induction fs with
  | nil => rfl
  | cons f outer ih =>
    rw [List.length_cons] at h
    rw [modifyIn, if_neg (by omega), ih (by omega)]

theorem modifyIn_padIn (id : BindingId) (g : Binding → Binding) (fs : List Frame) :
    modifyIn (id.pad k) g (padIn k fs) = padIn k (modifyIn id g fs) := by
  induction fs with
  | nil =>
    unfold padIn
    split
    · simp [modifyIn, Frame.modify, *]
    · simp [modifyIn, *]
  | cons f outer ih =>
    by_cases hk : (f :: outer).length = k
    · rw [padIn_top hk, padIn_top ((length_modifyIn ..).trans hk), modifyIn, if_neg (hk ▸ frame_pad_ne id)]
      by_cases hid : id.frame < k
      · rw [BindingId.pad_of_lt hid]
      · rw [modifyIn_of_le, modifyIn_of_le]
        · exact hk ▸ Nat.le_of_not_lt hid
        · rw [BindingId.pad_frame, if_neg hid, hk]
          omega
    · rw [padIn_cons f hk]
      simp only [modifyIn, frame_pad, BindingId.pad_slot]
      split
      · exact (padIn_cons (f.modify id.slot g) (by exact hk)).symm
      · rw [ih, padIn_cons f (by rw [List.length_cons, length_modifyIn]; exact hk)]

/-- The id of a new binding of a scope. -/
theorem pad_new (outer : List Frame) (slot : Nat) :
    (⟨(padIn k outer).length, slot⟩ : BindingId) = BindingId.pad k ⟨outer.length, slot⟩ := by
  rw [length_padIn]
  unfold BindingId.pad
  split <;> rfl

theorem lookupIn_padIn (name : String) (fs : List Frame) :
    lookupIn name (padIn k fs) = (lookupIn name fs).map fun e => (e.1.pad k, e.2) := by
  induction fs with
  | nil =>
    unfold padIn
    split <;> rfl
  | cons f outer ih =>
    by_cases hk : (f :: outer).length = k
    · rw [padIn_top hk]
      show lookupIn name (f :: outer) = _
      cases hlookup : lookupIn name (f :: outer) with
      | none => rfl
      | some e =>
        have hid : e.1.frame < k := hk ▸ getIn_lt (getIn_of_lookupIn hlookup).1
        rw [Option.map_some, BindingId.pad_of_lt hid]
    · rw [padIn_cons f hk]
      unfold lookupIn
      cases f.find? name with
      | none => exact ih
      | some e => exact congrArg (fun id => some (id, e.2)) (pad_new outer e.1)

theorem entriesIn_padIn (fs : List Frame) :
    entriesIn (padIn k fs) = (entriesIn fs).map fun e => (e.1.pad k, e.2) := by
  induction fs with
  | nil =>
    unfold padIn
    split <;> rfl
  | cons f outer ih =>
    by_cases hk : (f :: outer).length = k
    · rw [padIn_top hk]
      refine (List.append_nil _).trans ?_
      rw [List.map_congr_left (g := fun e => e), List.map_id']
      intro e he
      have hid : e.1.frame < k := hk ▸ getIn_lt (mem_entriesIn.mp he)
      rw [BindingId.pad_of_lt hid]
    · rw [padIn_cons f hk]
      unfold entriesIn
      rw [ih, List.map_append, List.map_map]
      refine congrArg (_ ++ ·) (List.map_congr_left fun e _ => ?_)
      exact congrArg (fun id => (id, e.2)) (pad_new outer e.1)

end Pad

theorem outsideLoop_pad (s : Scopes) (k : Nat) (id : BindingId) :
    (s.pad k).outsideLoop (id.pad k) = s.outsideLoop id := by
  unfold outsideLoop pad
  cases s.barrier with
  | none => rfl
  | some bar =>
    show decide ((id.pad k).frame < if bar ≤ k then bar else bar + 1) = decide (id.frame < bar)
    rw [decide_eq_decide, BindingId.pad_frame]
    split <;> split <;> omega

theorem define_pad {s : Scopes} {k : Nat} (hk : k < s.frames.length) (b : Binding) :
    (s.define b).2.pad k = ((s.pad k).define b).2 := by
  obtain ⟨frames, barrier⟩ := s
  cases frames with
  | nil => exact absurd hk (Nat.not_lt_zero k)
  | cons f outer =>
    have hne : outer.length + 1 ≠ k := Nat.ne_of_gt hk
    simp only [define, pad, padIn, hne, if_false]

theorem push_pad {s : Scopes} {k : Nat} (hk : k ≤ s.frames.length) : (s.pad k).push = s.push.pad k := by
  have hne : s.frames.length + 1 ≠ k := by omega
  simp only [push, pad, padIn, hne, if_false]

theorem pop_pad {s : Scopes} {k : Nat} (hk : k < s.frames.length) :
    (s.pad k).pop = (s.pop.1, s.pop.2.pad k) := by
  obtain ⟨frames, barrier⟩ := s
  cases frames with
  | nil => exact absurd hk (Nat.not_lt_zero k)
  | cons f outer =>
    have hne : outer.length + 1 ≠ k := Nat.ne_of_gt hk
    simp only [pop, pad, padIn, hne, if_false]

theorem enterLoop_pad {s : Scopes} {k : Nat} (hk : k < s.frames.length) :
    (s.pad k).enterLoop.2 = s.enterLoop.2.pad k := by
  have hlength : (padIn k s.frames).length = s.frames.length + 1 := by
    rw [length_padIn, if_neg (Nat.not_lt.mpr (Nat.le_of_lt hk))]
  simp only [enterLoop, pad, hlength, Option.map_some, if_neg (Nat.not_le.mpr hk)]

end Scopes

/-- A scope more, with the number `k`. -/
def Relocation.padding (k : Nat) : Relocation where
  place := fun pos => pos
  id := BindingId.pad k
  scopes := Scopes.pad k
  events := []
  found := []
  id_inj h := BindingId.pad_inj h
  entriesIn s := by
    simp only [Binding.relocate_id]
    exact Scopes.entriesIn_padIn s.frames
  lookup s name := by
    simp only [Binding.relocate_id]
    exact Scopes.lookupIn_padIn name s.frames
  get? s id := by
    rw [show Binding.relocate (fun pos => pos) = fun b => b from funext Binding.relocate_id, Option.map_id']
    exact Scopes.getIn_padIn id s.frames
  modify s id f g h := by
    obtain rfl : g = f := funext fun b => by
      have hb := h b
      rwa [Binding.relocate_id, Binding.relocate_id] at hb
    exact congrArg (fun frames => (⟨frames, (s.pad k).barrier⟩ : Scopes)) (Scopes.modifyIn_padIn id g s.frames).symm
  outsideLoop s id := Scopes.outsideLoop_pad s k id

namespace Check
variable {c : Context} {k : Nat} {s t : State}

/-- All but the scopes of a state with a scope more. -/
structure Padded (k : Nat) (s t : State) : Prop where
  regions : t.regions = (Relocation.padding k).regions s.regions
  events : t.events = s.events
  found : t.found = s.found
  escaped : t.escaped = s.escaped

theorem padded_relocate (s : State) : Padded k s (s.relocate (.padding k)) :=
  ⟨rfl, List.map_id'' Event.relocate_id s.events, List.map_id'' Violation.relocate_id s.found, rfl⟩

theorem beside_relocate (s : State) : Beside (fun a b => b = a.pad k) (Padded k) s (s.relocate (.padding k)) :=
  ⟨padded_relocate s, rfl⟩

theorem Padded.eq_relocate (h : Padded k s t) (hscopes : t.scopes = s.scopes.pad k) :
    t = s.relocate (.padding k) := by
  have hfull := padded_relocate (k := k) s
  obtain ⟨scopes, regions, events, found, escaped⟩ := t
  unfold State.relocate
  rw [State.mk.injEq]
  exact ⟨hscopes, h.regions, h.events.trans hfull.events.symm, h.found.trans hfull.found.symm, h.escaped⟩

theorem fits_padding (c : Context) (k : Nat) : Fits c (.padding k) := .inr rfl

theorem padding_tandem (c : Context) (k : Nat) :
    Tandem c c (fun a b => b = a.pad k) (Padded k) (fun _ => True) k where
  prior _ _ := trivial
  apart _ _ h := ⟨h.regions, h.events, h.found, h.escaped⟩
  seclude h := ⟨h.regions, h.events, h.found, rfl⟩
  restore h h' := ⟨h'.regions, h'.events, h'.found, h.escaped⟩
  halted h := halted_of_found c h.found
  length h := by rw [h.regions]; exact List.length_map ..
  act {s t a} ha h _ := by
    obtain rfl := h.rest.eq_relocate h.scopes
    have hact := relocate_act (fits_padding c k) s ha
    rw [show a.relocate (Relocation.padding k).place = a from a.relocate_id] at hact
    exact hact ▸ beside_relocate _
  closeStatements {s t} base pos h _ := by
    obtain rfl := h.rest.eq_relocate h.scopes
    exact relocate_closeStatements (φ := .padding k) s base pos ▸ beside_relocate _
  closeRegion {s t} pos h := by
    obtain rfl := h.rest.eq_relocate h.scopes
    exact relocate_closeRegion (φ := .padding k) s pos ▸ beside_relocate _
  define {s t} name ty pos hk h := by
    obtain rfl := h.rest.eq_relocate h.scopes
    have hdefine := relocate_define (c := c) (φ := .padding k) s name ty pos
      fun b => b.relocate_id.symm ▸ Scopes.define_pad hk b
    exact hdefine ▸ beside_relocate _
  push hk h := h ▸ Scopes.push_pad hk
  pop hk h := h ▸ congrArg Prod.snd (Scopes.pop_pad hk)
  leave {s t} pos hk h _ := by
    obtain rfl := h.rest.eq_relocate h.scopes
    have hpop : ((Relocation.padding k).scopes s.scopes).pop = (s.scopes.pop.1.map (Binding.relocate fun pos => pos),
        (Relocation.padding k).scopes s.scopes.pop.2) := by
      rw [List.map_id'' Binding.relocate_id]
      exact Scopes.pop_pad hk
    exact relocate_leaveScope (fits_padding c k) s hpop .continues pos ▸ padded_relocate _
  lend {s t} kind source region h _ := by
    obtain rfl := h.rest.eq_relocate h.scopes
    refine ⟨relocate_lend (fits_padding c k) s kind source region ▸ beside_relocate _, ?_, ?_⟩
    · have hopen := relocate_openBorrow (fits_padding c k) s region
      exact (congrArg (fun opened : Bool × State => opened.1) hopen :)
    · exact aliasTy_relocate (φ := .padding k) s kind source region
  enterLoop hk h := h ▸ Scopes.enterLoop_pad hk
  exitLoop h h' := by rw [h, h']; rfl
  join {s₀ t₀ s t outcomes outcomes'} _ _ hexits h _ := by
    obtain rfl := h.rest.eq_relocate h.scopes
    obtain rfl : outcomes' = outcomes.map (Outcome.relocate (.padding k)) := outcomes_of_exits hexits
    rw [relocate_join (fits_padding c k) s outcomes]
    exact ⟨rfl, padded_relocate _, fun _ => rfl⟩

/-! ### Blocks of one statement -/

/-- References that lead further out lead to the same bindings. -/
theorem regions_padding {regions : Regions} (h : ∀ ref ∈ regions.refs, ref.binding.frame < k) :
    (Relocation.padding k).regions regions = regions := by
  have hregion : ∀ r ∈ regions, (Relocation.padding k).region r = r := by
    intro r hr
    have hrefs : r.references.map (Reference.relocate (fun pos => pos) (BindingId.pad k)) = r.references := by
      refine (List.map_congr_left fun ref href => ?_).trans (List.map_id' r.references)
      have hframe := h ref (Regions.mem_refs.mpr ⟨r, hr, href⟩)
      simp only [Reference.relocate, BindingId.pad_of_lt hframe]
    show r.relocate (fun pos => pos) (BindingId.pad k) = r
    unfold Region.relocate
    rw [hrefs]
  exact (List.map_congr_left hregion).trans (List.map_id' regions)

/-- A scope that is opened is a scope more. -/
theorem pushScope_eq (hs : Inside s) : pushScope s = s.relocate (.padding s.scopes.frames.length) := by
  refine Padded.eq_relocate ⟨?_, rfl, rfl, rfl⟩ ?_
  · refine (regions_padding fun ref href => ?_).symm
    obtain ⟨b, hb⟩ := hs.coherent.valid ref href
    exact Scopes.get?_lt hb
  · show (⟨[] :: s.scopes.frames, s.scopes.barrier⟩ : Scopes) = s.scopes.pad s.scopes.frames.length
    unfold Scopes.pad
    rw [Scopes.padIn_top rfl]
    cases hbar : s.scopes.barrier with
    | none => rfl
    | some bar => rw [Option.map_some, if_pos (hs.fence bar hbar)]

/-- A choice goes in a scope of its own as it goes without. -/
theorem choose_pushScope (hs : Inside s) (pos : Span) (branches : List (Branch Span))
    (otherwise : Option (Block Span)) :
    Runs (fun a b => b = a.push) (fun a b => b = {a with scopes := b.scopes})
      (visit c (.choose pos branches otherwise) s) (visit c (.choose pos branches otherwise) (pushScope s)) := by
  have hclosed : binds (.choose pos branches otherwise) = false := rfl
  have hkept := kept_visit_closed c hclosed hs.toReady
  have hpush := pushScope_eq (hs.kept hkept)
  rw [hkept.depth] at hpush
  have hready := hs.pushScope.toReady
  have law := padding_tandem c s.scopes.frames.length
  have hends : Ends _ (Padded s.scopes.frames.length) (checkChoice c pos branches otherwise s)
      (checkChoice c pos branches otherwise (pushScope s)) :=
    law.same (.refl_choice _ pos branches otherwise) hs hready (Nat.le_refl _)
      (pushScope_eq hs ▸ beside_relocate s) trivial
  have hrun := law.join (branched_checkChoice hs.toReady ..) (branched_checkChoice hready ..) hends.outcomes
    hends.beside trivial
  rw [← visit_choose, ← visit_choose] at hrun
  generalize visit c (.choose pos branches otherwise) s = x at hrun hpush
  generalize visit c (.choose pos branches otherwise) (pushScope s) = y at hrun
  have hscopes : x.2.scopes.push = x.2.scopes.pad s.scopes.frames.length := congrArg State.scopes hpush
  have hregions : x.2.regions = (Relocation.padding s.scopes.frames.length).regions x.2.regions :=
    congrArg State.regions hpush
  refine ⟨hrun.reach, ?_, fun hreach => (hrun.scopes hreach).trans hscopes.symm⟩
  obtain ⟨hpadded, hevents, hfound, hescaped⟩ := hrun.rest
  obtain ⟨reach, scopes, regions, events, found, escaped⟩ := y
  rw [← hregions] at hpadded
  cases hpadded
  cases hevents
  cases hfound
  cases hescaped
  rfl

/-- An empty scope ends without a report. -/
theorem leaveScope_push {scopes : Scopes} (h : s.scopes = scopes.push) (reach : Reach) (pos : Span) :
    leaveScope c reach pos s = {s with scopes} := by
  unfold leaveScope popScope
  rw [h]
  split <;> rfl

theorem checkStmts_singleton (hrun : halted c s = false) (stmt : Stmt Span) :
    checkStmts c [stmt] s = checkStmt c stmt s := by
  cases hreach : (checkStmt c stmt s).1 with
  | continues => exact (checkStmts_of_continues hrun hreach).trans (Prod.ext hreach.symm rfl)
  | diverges => exact (checkStmts_of_diverges hrun hreach).trans (Prod.ext hreach.symm rfl)

/-- A choice that is the only statement of a block. -/
theorem checkBlock_choose (hs : Inside s) (hrun : halted c s = false) (scopeEnd pos : Span)
    (branches : List (Branch Span)) (otherwise : Option (Block Span)) :
    Runs (fun a b => b = a) (fun a b => b = {a with scopes := b.scopes, escaped := s.escaped})
      (visit c (.choose pos branches otherwise) {s with escaped := []})
      (checkBlock c ⟨scopeEnd, [.choose pos branches otherwise]⟩ s) := by
  have hs' : Inside {s with escaped := []} := ⟨hs.toReady.of_same rfl rfl, hs.fence⟩
  have hchoice := choose_pushScope (c := c) hs' pos branches otherwise
  generalize visit c (.choose pos branches otherwise) {s with escaped := []} = x at hchoice ⊢
  have hreach : (checkStmt c (.choose pos branches otherwise) (pushScope s)).1 = x.1 := hchoice.reach
  have hrest : (checkStmt c (.choose pos branches otherwise) (pushScope s)).2 =
      {x.2 with
        scopes := (checkStmt c (.choose pos branches otherwise) (pushScope s)).2.scopes, escaped := s.escaped} :=
    congrArg (fun u : State => {u with escaped := s.escaped}) hchoice.rest
  have hscopes : x.1 = .continues →
      (checkStmt c (.choose pos branches otherwise) (pushScope s)).2.scopes = x.2.scopes.push := hchoice.scopes
  have hblock : checkBlock c ⟨scopeEnd, [.choose pos branches otherwise]⟩ s =
      let after := checkStmt c (.choose pos branches otherwise) (pushScope s)
      (after.1, leaveScope c after.1 scopeEnd after.2) := by
    rw [← checkStmts_singleton (show halted c (pushScope s) = false from hrun)]
    rfl
  rw [hblock]
  generalize checkStmt c (.choose pos branches otherwise) (pushScope s) = after at hreach hrest hscopes
  obtain ⟨reach, u⟩ := x
  obtain ⟨reach', t⟩ := after
  cases hreach
  cases reach with
  | continues =>
    have hleft : leaveScope c .continues scopeEnd t = {t with scopes := u.scopes} :=
      leaveScope_push (hscopes rfl) .continues scopeEnd
    refine ⟨rfl, ?_, fun _ => ?_⟩
    · show leaveScope c .continues scopeEnd t =
        {u with scopes := (leaveScope c .continues scopeEnd t).scopes, escaped := s.escaped}
      rw [hleft]
      exact congrArg (fun w : State => {w with scopes := u.scopes}) hrest
    · show (leaveScope c .continues scopeEnd t).scopes = u.scopes
      rw [hleft]
  | diverges =>
    exact ⟨rfl, congrArg (fun w : State => {w with scopes := t.scopes.pop.2}) hrest, fun h => by cases h⟩

end Check

end Linearity
