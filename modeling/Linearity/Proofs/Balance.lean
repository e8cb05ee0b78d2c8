import Linearity.Proofs.Actions
import Linearity.Proofs.Coherence
import Linearity.Proofs.Join

/-! Checking is balanced.

While an expression is evaluated, the open regions grow by statement regions and no
binding comes or goes (`Evaluated`). A statement closes what it opened: it leaves the
regions and the barrier as they were and adds bindings to the innermost scope only
(`Kept`). Neither touches a binding outside the innermost loop. And both keep scopes
and regions coherent, whatever was reported on the way. -/
namespace Linearity.Check
variable (c : Context) {s t u : State}

/-! ### Evaluation -/

/-- From `s`, where no statement region was open, evaluation has come to `t`. -/
structure Evaluated (s t : State) : Prop where
  grown : ∃ top, t.regions = top ++ s.regions ∧ ∀ r ∈ top, r.kind = .statement
  skeleton : t.scopes.skeleton = s.scopes.skeleton
  barrier : t.scopes.barrier = s.scopes.barrier
  isolated : ∀ id, s.scopes.outsideLoop id = true → t.scopes.get? id = s.scopes.get? id
  coherent : Coherent t.scopes t.regions

/-- No statement region is open. -/
def Settled (s : State) : Prop := ∀ r ∈ s.regions, r.kind ≠ .statement

namespace Evaluated

theorem refl (h : Coherent s.scopes s.regions) : Evaluated s s :=
  ⟨⟨[], rfl, fun _ hr => nomatch hr⟩, rfl, rfl, fun _ _ => rfl, h⟩

theorem of_same (h : Evaluated s t) (hscopes : u.scopes = t.scopes) (hregions : u.regions = t.regions) :
    Evaluated s u := by
  refine ⟨?_, ?_, ?_, ?_, ?_⟩
  · rw [hregions]
    exact h.grown
  · rw [hscopes]
    exact h.skeleton
  · rw [hscopes]
    exact h.barrier
  · rw [hscopes]
    exact h.isolated
  · rw [hscopes, hregions]
    exact h.coherent

theorem outsideLoop (h : Evaluated s t) (id : BindingId) :
    t.scopes.outsideLoop id = s.scopes.outsideLoop id := by
  rw [Scopes.outsideLoop, Scopes.outsideLoop, h.barrier]

/-- A binding inside the loop is moved between states that are not frozen. -/
theorem moved (h : Evaluated s t) {id : BindingId} {b : Binding} (hb : t.scopes.get? id = some b)
    (hlin : b.isLinear = true) (hin : t.scopes.outsideLoop id = false)
    (hold : ∀ kind pos, b.state ≠ .frozen kind pos) {state : BindingState}
    (hnew : ∀ kind pos, state ≠ .frozen kind pos) (event : Event) :
    Evaluated s {log event t with scopes := t.scopes.setState id state} := by
  refine ⟨h.grown, ?_, h.barrier, fun j hj => ?_, h.coherent.setState hb hlin hold hnew⟩
  · show (t.scopes.setState id state).skeleton = _
    rw [Scopes.skeleton_setState]
    exact h.skeleton
  · have hne : id ≠ j := by
      rintro rfl
      rw [h.outsideLoop, hj] at hin
      cases hin
    show (t.scopes.setState id state).get? j = _
    rw [Scopes.get?_setState, if_neg hne]
    exact h.isolated j hj

end Evaluated

theorem evaluated_consume (h : Evaluated s t) (name : String) (pos : Span) :
    Evaluated s (consume c name pos t) := by
  unfold consume Scopes.consume
  rcases settle_cases c (.consume name pos) t with
    ⟨heq, _⟩ | ⟨v, heq, _⟩ | ⟨id, b, state, hlookup, hlin, hin, hmove, heq⟩
  · rw [heq]
    exact h
  · rw [heq]
    exact h.of_same (report_scopes ..) (report_regions ..)
  · rw [heq]
    obtain ⟨hold, rfl⟩ := Binding.consume_ok hmove
    exact h.moved (Scopes.get?_of_lookup hlookup).1 hlin hin (by simp [hold]) (by simp) _

theorem evaluated_overwrite (h : Evaluated s t) (name : String) (pos : Span) :
    Evaluated s (overwrite c name pos t) := by
  unfold overwrite Scopes.overwrite
  rcases settle_cases c (.define name pos true) t with
    ⟨heq, _⟩ | ⟨v, heq, _⟩ | ⟨id, b, state, hlookup, hlin, hin, hmove, heq⟩
  · rw [heq]
    exact h
  · rw [heq]
    exact h.of_same (report_scopes ..) (report_regions ..)
  · rw [heq]
    obtain ⟨⟨at₀, hold⟩, rfl⟩ := Binding.overwrite_ok hmove
    exact h.moved (Scopes.get?_of_lookup hlookup).1 hlin hin (by simp [hold]) (by simp) _

/-- Looking at a part of a binding leaves the scopes alone. -/
theorem read_scopes (name : String) (reads : LeafReads) (pos : Span) (t : State) :
    (read c name reads pos t).scopes = t.scopes := by
  unfold read Scopes.read
  rcases settle_cases c (.read name pos) t with
    ⟨heq, _⟩ | ⟨v, heq, _⟩ | ⟨id, b, state, hlookup, hlin, hin, hmove, heq⟩
  · rw [heq]
  · rw [heq, report_scopes]
  · rw [heq]
    have hb := (Scopes.get?_of_lookup hlookup).1
    rw [Binding.read_ok hmove]
    exact Scopes.setState_self hb

theorem evaluated_read (h : Evaluated s t) (name : String) (reads : LeafReads) (pos : Span) :
    Evaluated s (read c name reads pos t) :=
  h.of_same (read_scopes ..) (settle_regions ..)

/-! ### Borrows -/

section Borrow
variable {kind : RefKind} {name : String} {id : BindingId} {b : Binding} {region : String} {pos : Span}
  {shareable : Bool} {r : Region}

theorem mayShare_eq_true {linear : Bool} {holder : Region} {prior : Reference}
    (h : mayShare kind linear shareable holder prior = true) :
    kind = .read ∧ prior.kind = .read ∧
      (linear = true → shareable = true ∧ holder.kind = .statement) := by
  simp only [mayShare, Bool.and_eq_true, beq_iff_eq, Bool.or_eq_true, Bool.not_eq_true'] at h
  obtain ⟨⟨hkind, hprior⟩, hshare⟩ := h
  refine ⟨hkind, hprior, fun hlin => ?_⟩
  rcases hshare with hfree | hshare
  · rw [hlin] at hfree
    cases hfree
  · exact hshare

variable (kind pos shareable) in
/-- A borrow into an open region keeps scopes and regions coherent. Borrows that may
share go to statement regions; a borrow block's region lies inside the binding's scope. -/
theorem coherent_borrowBinding (h : Coherent s.scopes s.regions)
    (hlookup : s.scopes.lookup name = some (id, b)) (hget : s.regions.get? region = some r)
    (hkind : shareable = true → r.kind = .statement)
    (hdepth : r.kind ≠ .statement → ∀ inner outer, s.regions = inner ++ r :: outer →
      b.regionDepth ≤ outer.length) :
    Coherent (borrowBinding c kind name id region pos shareable s).scopes
      (borrowBinding c kind name id region pos shareable s).regions := by
  have hb := (Scopes.get?_of_lookup hlookup).1
  have hspec := borrowBinding_spec c kind name id region pos shareable s
  generalize borrowBinding c kind name id region pos shareable s = t at hspec ⊢
  cases hspec with
  | conflict => simpa using h
  | refused => simpa using h
  | @shared holder prior href hshare =>
    obtain ⟨hholder, hprior, hbind⟩ := Regions.referenceTo_mem href
    rw [hb, Option.any_some] at hshare
    obtain ⟨hread, hpread, hlin⟩ := mayShare_eq_true hshare
    refine h.share hb hget kind pos (fun hlin' => ?_) (.inr ⟨hread, prior, ?_, hpread⟩) hdepth
    · exact ⟨hkind (hlin hlin').1, holder, hholder, (hlin hlin').2, prior, hprior, hbind⟩
    · exact Regions.mem_refsTo_of_mem hholder hprior hbind
  | @taken frozen scopes href hfreeze =>
    have hnone := Regions.referenceTo_eq_none_iff.mp href
    rcases Scopes.freeze_ok hlookup hfreeze with ⟨rfl, rfl, hfree⟩ | ⟨rfl, rfl, hlin, _, hold⟩
    · refine h.share hb hget kind pos (fun hlin => ?_) (.inl hnone) hdepth
      rw [hfree] at hlin
      cases hlin
    · exact h.freeze hb hlin hget hnone kind pos hdepth

variable (kind region pos shareable) in
/-- What a borrow leaves alone: of the scopes all but the state of a binding inside the
loop, of the regions all but the references of its own. -/
theorem borrowBinding_frame (hlookup : s.scopes.lookup name = some (id, b)) :
    let t := borrowBinding c kind name id region pos shareable s
    t.scopes.skeleton = s.scopes.skeleton ∧ t.scopes.barrier = s.scopes.barrier ∧
      (∀ j, s.scopes.outsideLoop j = true → t.scopes.get? j = s.scopes.get? j) ∧
      (t.regions = s.regions ∨ ∃ ref, t.regions = s.regions.attach region ref) := by
  have hspec := borrowBinding_spec c kind name id region pos shareable s
  generalize borrowBinding c kind name id region pos shareable s = t at hspec ⊢
  cases hspec with
  | conflict => simp
  | refused => simp
  | shared => exact ⟨rfl, rfl, fun _ _ => rfl, .inr ⟨_, rfl⟩⟩
  | @taken frozen scopes href hfreeze =>
    rcases Scopes.freeze_ok hlookup hfreeze with ⟨rfl, rfl, _⟩ | ⟨rfl, rfl, _, hin, _⟩
    · exact ⟨rfl, rfl, fun _ _ => rfl, .inr ⟨_, rfl⟩⟩
    · refine ⟨Scopes.skeleton_setState .., rfl, fun j hj => ?_, .inr ⟨_, rfl⟩⟩
      have hne : id ≠ j := by
        rintro rfl
        rw [hj] at hin
        cases hin
      show (s.scopes.setState id _).get? j = _
      rw [Scopes.get?_setState, if_neg hne]

end Borrow

/-! ### Evaluating an expression -/

theorem evaluated_borrowExpr (hs : Settled s) (h : Evaluated s t) (kind : RefKind) (target : String)
    (ty : Ty) (pos : Span) : Evaluated s (borrowExpr c kind target ty pos t) := by
  unfold borrowExpr
  split
  · rename_i region _
    split
    · exact h.of_same (report_scopes ..) (report_regions ..)
    · rename_i u henter
      -- Either way the region is open in `u` and belongs to the statement.
      have hu : Evaluated s u ∧ ∃ r, u.regions.get? region = some r ∧ r.kind = .statement := by
        rcases enterStatement_ok henter with ⟨rfl, r, hget, hkind⟩ | ⟨hnone, rfl⟩
        · exact ⟨h, r, hget, hkind⟩
        · obtain ⟨top, hregions, htop⟩ := h.grown
          refine ⟨⟨⟨⟨region, .statement, pos, []⟩ :: top, ?_, ?_⟩, h.skeleton, h.barrier, h.isolated,
            h.coherent.enter region .statement pos⟩, ⟨region, .statement, pos, []⟩, ?_, rfl⟩
          · show _ :: t.regions = _
            rw [hregions]
            rfl
          · intro q hq
            rcases List.mem_cons.mp hq with rfl | hq
            · rfl
            · exact htop q hq
          · simp [Regions.get?]
      obtain ⟨hu, r, hget, hkind⟩ := hu
      split
      · rename_i id b hlookup
        obtain ⟨hskel, hbar, hiso, hregions⟩ := borrowBinding_frame c kind region pos true hlookup
        refine ⟨?_, hskel.trans hu.skeleton, hbar.trans hu.barrier, fun j hj => ?_, ?_⟩
        · obtain ⟨top, htop, hkinds⟩ := hu.grown
          rcases hregions with heq | ⟨ref, heq⟩
          · exact ⟨top, heq.trans htop, hkinds⟩
          · rw [heq]
            rw [htop] at hget ⊢
            exact Regions.attach_grown ref hs hkinds hget hkind
        · rw [hiso j (by rw [hu.outsideLoop]; exact hj)]
          exact hu.isolated j hj
        · exact coherent_borrowBinding c kind pos true hu.coherent hlookup hget (fun _ => hkind) (absurd hkind)
      · exact hu
  · exact h

/-- Evaluation stays within these bounds, action by action. -/
theorem evaluated_act (hs : Settled s) (h : Evaluated s t) {a : Action} (ha : a.plain = true) :
    Evaluated s (act c a t) := by
  cases a with
  | consume name pos => exact evaluated_consume c h name pos
  | read name reads pos => exact evaluated_read c h name _ pos
  | overwrite name pos => exact evaluated_overwrite c h name pos
  | borrow kind target ty pos => exact evaluated_borrowExpr c hs h kind target ty pos
  | define => cases ha
  | live => exact h.of_same (requireLive_scopes ..) (requireLive_regions ..)
  | outlive => exact h.of_same (requireOutlives_scopes ..) (requireOutlives_regions ..)
  | outlast => exact h.of_same (requireOutlasts_scopes ..) (requireOutlasts_regions ..)
  | ownRegions => exact h.of_same (reportEscapes_scopes ..) (reportEscapes_regions ..)
  | allConsumed => exact h.of_same (reportAll_scopes ..) (reportAll_regions ..)
  | forbid => exact h.of_same (forbidLinear_scopes ..) (forbidLinear_regions ..)
  | refuse => exact h.of_same (report_scopes ..) (report_regions ..)

theorem evaluated_perform (hs : Settled s) (h : Evaluated s t) {acts : List Action}
    (hacts : acts.all Action.plain = true) : Evaluated s (perform c acts t) := by
  induction acts generalizing t with
  | nil => exact h
  | cons a acts ih =>
    rw [List.all_cons, Bool.and_eq_true] at hacts
    exact ih (evaluated_act c hs h hacts.1) hacts.2

/-! ### Statements -/

/-- Where a statement may start. -/
structure Ready (s : State) : Prop where
  coherent : Coherent s.scopes s.regions
  settled : Settled s
  opened : s.scopes.skeleton ≠ []

/-- From `s`, some statements have come to `t` and defined `new`. -/
structure Kept (new : Frame) (s t : State) : Prop where
  regions : t.regions = s.regions
  skeleton : ∃ f outer, s.scopes.skeleton = f :: outer ∧ t.scopes.skeleton = (new ++ f) :: outer
  barrier : t.scopes.barrier = s.scopes.barrier
  isolated : ∀ {id b}, s.scopes.outsideLoop id = true → s.scopes.get? id = some b →
    t.scopes.get? id = some b
  coherent : Coherent t.scopes t.regions

namespace Kept
variable {m n : Frame}

theorem refl (h : Ready s) : Kept [] s s := by
  obtain ⟨f, outer, hskel⟩ := List.exists_cons_of_ne_nil h.opened
  exact ⟨rfl, ⟨f, outer, hskel, hskel⟩, rfl, fun _ hb => hb, h.coherent⟩

theorem outsideLoop (h : Kept n s t) (id : BindingId) :
    t.scopes.outsideLoop id = s.scopes.outsideLoop id := by
  rw [Scopes.outsideLoop, Scopes.outsideLoop, h.barrier]

theorem trans (h : Kept m s t) (h' : Kept n t u) : Kept (n ++ m) s u := by
  refine ⟨h'.regions.trans h.regions, ?_, h'.barrier.trans h.barrier, fun hout hb => ?_, h'.coherent⟩
  · obtain ⟨f, outer, hs, ht⟩ := h.skeleton
    obtain ⟨f', outer', ht', hu⟩ := h'.skeleton
    obtain ⟨rfl, rfl⟩ := List.cons.inj (ht.symm.trans ht')
    exact ⟨f, outer, hs, by rw [hu, List.append_assoc]⟩
  · exact h'.isolated (by rw [h.outsideLoop]; exact hout) (h.isolated hout hb)

theorem of_same (h : Kept n s t) (hscopes : u.scopes = t.scopes) (hregions : u.regions = t.regions) :
    Kept n s u := by
  refine ⟨hregions.trans h.regions, ?_, ?_, ?_, ?_⟩
  · rw [hscopes]
    exact h.skeleton
  · rw [hscopes]
    exact h.barrier
  · rw [hscopes]
    exact h.isolated
  · rw [hscopes, hregions]
    exact h.coherent

theorem ready (h : Kept n s t) (hs : Ready s) : Ready t := by
  refine ⟨h.coherent, ?_, ?_⟩
  · unfold Settled
    rw [h.regions]
    exact hs.settled
  · obtain ⟨f, outer, _, ht⟩ := h.skeleton
    rw [ht]
    exact List.cons_ne_nil _ _

/-- Without new bindings the skeleton is the same. -/
theorem skeleton_eq (h : Kept [] s t) : t.scopes.skeleton = s.scopes.skeleton := by
  obtain ⟨f, outer, hs, ht⟩ := h.skeleton
  rw [hs, ht]
  rfl

theorem frames_length (h : Kept [] s t) : t.scopes.frames.length = s.scopes.frames.length := by
  rw [← Scopes.length_skeleton, h.skeleton_eq, Scopes.length_skeleton]

end Kept

/-- A binding that statement regions on top have frozen is not borrowed further out. -/
theorem refsTo_of_frozen {top base : Regions} {id : BindingId} {b : Binding}
    (h : Accounted (top ++ base) id b) (htop : ∀ r ∈ top, r.kind = .statement)
    (hbase : ∀ r ∈ base, r.kind ≠ .statement) (hid : id ∈ top.flatMap Region.frozen) :
    base.refsTo id = [] := by
  obtain ⟨r, hr, hfrozen⟩ := List.mem_flatMap.mp hid
  obtain ⟨ref, href, hfroze, hbind⟩ := Region.mem_frozen.mp hfrozen
  have hlin := (h.state_of_froze
    (Regions.mem_refsTo_of_mem (List.mem_append_left _ hr) href hbind) hfroze).1
  rw [List.eq_nil_iff_forall_not_mem]
  intro ref' href'
  obtain ⟨hmem, hbind'⟩ := Regions.mem_refsTo.mp href'
  obtain ⟨q, hq, href'⟩ := Regions.mem_refs.mp hmem
  have hne : r ≠ q := fun heq => hbase q hq (heq ▸ htop r hr)
  exact Regions.refsTo_ne_singleton (List.mem_append_left _ hr) (List.mem_append_right _ hq) hne href hbind
    href' hbind' ref' (h.exclusive hlin q (List.mem_append_right _ hq) (hbase q hq) ref' href' hbind')

/-- When its statement regions are closed, an evaluation has kept everything. -/
theorem Evaluated.close (h : Evaluated s t) (hs : Ready s) (pos : Span) :
    Kept [] s (closeStatements s.regions.length pos t) := by
  obtain ⟨top, hregions, htop⟩ := h.grown
  have hclose : t.regions.closeStatements s.regions.length = (top, s.regions) := by
    rw [hregions]
    exact Regions.closeStatements_append htop
  have hcoh := h.coherent
  rw [hregions] at hcoh
  have hexcl : ∀ id b, t.scopes.get? id = some b → id ∈ top.flatMap Region.frozen →
      s.regions.refsTo id = [] := fun id b hb hid =>
    refsTo_of_frozen (hcoh.accounted hb) htop hs.settled hid
  refine ⟨?_, ?_, ?_, fun {id b} hout hb => ?_, ?_⟩
  · rw [closeStatements_regions, hclose]
  · obtain ⟨f, outer, hskel⟩ := List.exists_cons_of_ne_nil hs.opened
    refine ⟨f, outer, hskel, ?_⟩
    rw [closeStatements_scopes, Scopes.skeleton_thawAll, h.skeleton, hskel]
    rfl
  · rw [closeStatements_scopes, Scopes.barrier_thawAll, h.barrier]
  · rw [closeStatements_scopes, hclose, Scopes.get?_thawAll, h.isolated id hout, hb]
    split
    · -- A binding outside the loop cannot have been frozen in between.
      rename_i hid
      have hb' := h.isolated id hout
      rw [hb] at hb'
      obtain ⟨r, hr, hfrozen⟩ := List.mem_flatMap.mp hid
      obtain ⟨ref, href, hfroze, hbind⟩ := Region.mem_frozen.mp hfrozen
      obtain ⟨hlin, hstate⟩ := (hcoh.accounted hb').state_of_froze
        (Regions.mem_refsTo_of_mem (List.mem_append_left _ hr) href hbind) hfroze
      have hone := (hs.coherent.accounted hb).frozen hlin hstate
      rw [hexcl id b hb' hid] at hone
      cases hone
    · rfl
  · rw [closeStatements_scopes, closeStatements_regions, hclose]
    refine hcoh.close hexcl fun id b hb => ?_
    obtain ⟨b', hb', hblank⟩ := Scopes.get?_of_skeleton h.skeleton.symm hb
    have hdeep := (hs.coherent.accounted hb').deep
    rwa [← Binding.blank_regionDepth, hblank] at hdeep

theorem kept_closing (hs : Ready s) (pos : Span) {acts : List Action}
    (hacts : acts.all Action.plain = true) : Kept [] s (closing c pos acts s) :=
  (evaluated_perform c hs.settled (Evaluated.refl hs.coherent) hacts).close hs pos

theorem kept_evalClosed (hs : Ready s) (e : Expr Span) : Kept [] s (evalClosed c e s) := by
  rw [evalClosed_eq]
  exact kept_closing c hs e.pos (plain_actions e)

theorem Ready.of_same (h : Ready s) (hscopes : t.scopes = s.scopes) (hregions : t.regions = s.regions) :
    Ready t := by
  obtain ⟨hcoh, hsettled, hopened⟩ := h
  refine ⟨?_, ?_, ?_⟩
  · rw [hscopes, hregions]
    exact hcoh
  · unfold Settled
    rw [hregions]
    exact hsettled
  · rw [hscopes]
    exact hopened

/-- A step that leaves scopes and regions alone. -/
theorem Ready.kept_same (h : Ready s) (hscopes : t.scopes = s.scopes) (hregions : t.regions = s.regions) :
    Kept [] s t :=
  (Kept.refl h).of_same hscopes hregions

/-! ### Scopes -/

theorem kept_define (hs : Ready s) (name : String) (ty : Ty) (pos : Span) :
    ∃ new, Kept new s (define c name ty pos s) := by
  obtain ⟨f, outer, hskel⟩ := List.exists_cons_of_ne_nil hs.opened
  unfold define
  dsimp only
  generalize hb : (⟨name, ty, _, pos, s.regions.length, .unconsumed⟩ : Binding) = b
  refine ⟨[b.blank], rfl, ⟨f, outer, hskel, Scopes.skeleton_define s.scopes b hskel⟩,
    Scopes.barrier_define .., fun {id b'} _ hb' => ?_, ?_⟩
  · show (s.scopes.define b).2.get? id = some b'
    rw [Scopes.get?_define, if_neg, hb']
    rintro rfl
    rw [Scopes.get?_define_fresh] at hb'
    cases hb'
  · exact hs.coherent.define b (by rw [← hb]) (by rw [← hb])

theorem kept_unpack (hs : Ready s) (parts : List (Unpacked Span)) :
    ∃ new, Kept new s (unpack c parts s) := by
  unfold unpack
  induction parts generalizing s with
  | nil => exact ⟨[], Kept.refl hs⟩
  | cons part parts ih =>
    have hlive := hs.kept_same (requireLive_scopes c part.ty (some part.name.name) part.pos s)
      (requireLive_regions ..)
    obtain ⟨m, hdefine⟩ := kept_define c (hlive.ready hs) part.name.name part.ty part.name.pos
    have hpart := hlive.trans hdefine
    obtain ⟨n, hrest⟩ := ih (hpart.ready hs)
    exact ⟨_, hpart.trans hrest⟩

theorem Ready.pushScope (hs : Ready s) : Ready (pushScope s) :=
  ⟨hs.coherent.push, hs.settled, List.cons_ne_nil _ _⟩

/-- Statements in a scope of their own leave no binding behind. -/
theorem Kept.leaveScope {n : Frame} (hs : Ready s) (h : Kept n (pushScope s) t) (reach : Reach) (pos : Span) :
    Kept [] s (leaveScope c reach pos t) := by
  obtain ⟨f, outer, hpush, ht⟩ := h.skeleton
  obtain ⟨rfl, rfl⟩ := List.cons.inj (hpush.symm.trans (Scopes.skeleton_push s.scopes))
  have hlen : t.scopes.frames.length = s.scopes.frames.length + 1 := by
    rw [← Scopes.length_skeleton, ht, List.length_cons, Scopes.length_skeleton]
  refine ⟨?_, ?_, ?_, fun {id b} hout hb => ?_, ?_⟩
  · rw [leaveScope_regions]
    exact h.regions
  · obtain ⟨f, outer, hskel⟩ := List.exists_cons_of_ne_nil hs.opened
    refine ⟨f, outer, hskel, ?_⟩
    rw [leaveScope_scopes, Scopes.skeleton_pop, ht, List.tail_cons, hskel]
    rfl
  · rw [leaveScope_scopes, Scopes.barrier_pop]
    exact h.barrier
  · have hlt := Scopes.get?_lt hb
    rw [leaveScope_scopes, Scopes.get?_pop, if_pos (by omega)]
    exact h.isolated hout (by rw [← hb]; exact Scopes.get?_push ..)
  · rw [leaveScope_scopes, leaveScope_regions]
    refine h.coherent.pop fun ref href => ?_
    rw [h.regions] at href
    obtain ⟨b, hb⟩ := hs.coherent.valid ref href
    have hlt := Scopes.get?_lt hb
    omega

/-! ### Branches -/

/-- From `s`, some branches have come to `t` and ended as the outcomes say. -/
structure Branched (s : State) (outcomes : List Outcome) (t : State) : Prop where
  kept : Kept [] s t
  exits : ∀ {e}, e ∈ reached outcomes → Kept [] s {t with scopes := e.2}

/-- A branch that is run from `s` leaves the scopes for the next as they were. -/
theorem branched_outcome (hs : Ready s) (reach : Reach) (h : Kept [] s t) (pos : Span) :
    Branched s [(outcome pos s (reach, t)).1] (outcome pos s (reach, t)).2 := by
  refine ⟨hs.kept_same rfl h.regions, fun {e} he => ?_⟩
  obtain ⟨o, ho, _, hexit⟩ := mem_reached.mp he
  rw [List.mem_singleton] at ho
  subst ho
  unfold outcome at hexit
  split at hexit
  · exact h.of_same (Option.some.inj hexit).symm rfl
  · cases hexit

/-- No branch taken. -/
theorem branched_skip (hs : Ready s) (pos : Span) : Branched s [⟨pos, some s.scopes⟩] s :=
  branched_outcome hs .continues (Kept.refl hs) pos

theorem reached_append (outcomes outcomes' : List Outcome) :
    reached (outcomes ++ outcomes') = reached outcomes ++ reached outcomes' :=
  List.filterMap_append ..

theorem Branched.append {outcomes outcomes' : List Outcome} (h : Branched s outcomes t)
    (h' : Branched t outcomes' u) : Branched s (outcomes ++ outcomes') u := by
  refine ⟨h.kept.trans h'.kept, fun {e} he => ?_⟩
  rw [reached_append, List.mem_append] at he
  rcases he with he | he
  · exact (h.exits he).of_same rfl h'.kept.regions
  · exact h.kept.trans (h'.exits he)

/-- A binding that a branch consumed is not frozen where the branches are joined: it is
not borrowed at the branch's end, and there the same regions are open. -/
theorem Branched.not_frozen {outcomes : List Outcome} (h : Branched s outcomes t) {e : Span × Scopes}
    (he : e ∈ reached outcomes) {id : BindingId} {b : Binding} (hb : t.scopes.get? id = some b)
    (hlin : b.isLinear = true) (hconsumed : (consumedAt id e.2).isSome = true) (kind : RefKind) (pos : Span) :
    b.state ≠ .frozen kind pos := by
  intro hfrozen
  obtain ⟨at₀, hat⟩ := Option.isSome_iff_exists.mp hconsumed
  obtain ⟨b', hb', hstate⟩ := consumedAt_eq_some.mp hat
  obtain ⟨b'', hb'', hblank⟩ := Scopes.get?_of_skeleton
    ((h.exits he).skeleton_eq.trans h.kept.skeleton_eq.symm) hb
  rw [hb'] at hb''
  cases hb''
  have hnone : t.regions.refsTo id = [] :=
    ((h.exits he).coherent.accounted hb').idle ((Binding.isLinear_of_blank hblank).trans hlin) (by simp [hstate])
  have hone := (h.kept.coherent.accounted hb).frozen hlin hfrozen
  rw [hnone] at hone
  cases hone

/-- Joining branches that kept everything keeps everything, binding by binding. -/
theorem kept_joining {outcomes : List Outcome} (h : Branched s outcomes t) (hr : reached outcomes ≠ [])
    {entries : List (BindingId × Binding)} (hentries : ∀ entry ∈ entries, entry ∈ t.scopes.linearBindings) :
    Kept [] s (entries.foldl (joinBinding c (reached outcomes)) t) := by
  obtain ⟨hskel, hbar, hregions, _, _⟩ := foldl_joinBinding_frame c (reached outcomes) entries t
  have hget := get?_foldl_joinBinding c (reached outcomes) entries t
  refine ⟨hregions.trans h.kept.regions, ?_, hbar.trans h.kept.barrier, fun {id b} hout hb => ?_, ?_⟩
  · rw [hskel]
    exact h.kept.skeleton
  · have hsame := merged_of_same hr fun e he => (h.exits he).isolated hout hb
    simp only [hget, h.kept.isolated hout hb, Option.map_some, hsame, ite_self]
  · rw [hregions]
    refine ⟨fun ref href => ?_, fun {id b} hb => ?_, h.kept.coherent.shared⟩
    · obtain ⟨b, hb⟩ := h.kept.coherent.valid ref href
      rw [hget, hb]
      split <;> exact ⟨_, rfl⟩
    · rw [hget] at hb
      split at hb
      · rename_i hmem
        obtain ⟨⟨_, b₀⟩, hentry, rfl⟩ := List.mem_map.mp hmem
        obtain ⟨hb₀, hlin⟩ := Scopes.mem_linearBindings.mp (hentries _ hentry)
        rw [hb₀] at hb
        cases hb
        have hacc := h.kept.coherent.accounted hb₀
        dsimp only
        unfold merged
        split
        · rename_i pos hpos
          obtain ⟨e, he, hpos⟩ := List.exists_of_findSome?_eq_some hpos
          exact hacc.setState hlin (h.not_frozen he hb₀ hlin (by rw [hpos]; rfl)) (by simp)
        · split
          · rename_i hconsumed
            refine hacc.setState hlin (fun kind at₀ hfrozen => ?_) (by simp)
            rw [hfrozen] at hconsumed
            cases hconsumed
          · exact hacc
      · exact h.kept.coherent.accounted hb

theorem kept_join {outcomes : List Outcome} (h : Branched s outcomes t) :
    Kept [] s (join c outcomes t).2 := by
  by_cases hr : reached outcomes = []
  · rw [join_of_none c t hr]
    exact h.kept
  · rw [join_of_some c t hr]
    exact kept_joining c h hr fun _ hentry => hentry

/-! ### Loops -/

/-- All linear bindings lie outside the loop. -/
def Walled (s : State) : Prop :=
  ∀ id b, s.scopes.get? id = some b → b.isLinear = true → s.scopes.outsideLoop id = true

theorem walled_enterLoop (s : State) : Walled (enterLoop s) :=
  fun _ _ hb _ => decide_eq_true (Scopes.get?_lt hb)

theorem Walled.of_same (h : Walled s) (hscopes : t.scopes = s.scopes) : Walled t := by
  unfold Walled
  rw [hscopes]
  exact h

theorem isLinear_int (T : TypeTable) (K : Kinds) : (T.classify K .int).isLinear = false := by
  unfold TypeTable.classify TypeTable.isLinear Ty.int
  rw [TypeTable.linearIn]
  rfl

variable {c} in
/-- A counter is no linear binding. -/
theorem Walled.counter (h : Walled s) (var : Ident Span) :
    Walled (define c var.name .int var.pos (pushScope s)) := by
  intro id b hb hlin
  have hget := Scopes.get?_define s.scopes.push
    ⟨var.name, .int, c.table.classify c.kinds .int, var.pos, s.regions.length, .unconsumed⟩ id
  rw [show (define c var.name .int var.pos (pushScope s)).scopes.get? id = _ from hget] at hb
  split at hb
  · cases hb
    exact absurd (hlin.symm.trans (isLinear_int ..)) (by decide)
  · rw [Scopes.get?_push] at hb
    have hout := h id b hb hlin
    unfold Scopes.outsideLoop at hout ⊢
    rw [show (define c var.name .int var.pos (pushScope s)).scopes.barrier = s.scopes.barrier from
      Scopes.barrier_define ..]
    exact hout

/-- What keeps everything with all linear bindings behind the barrier changes none at all. -/
theorem Kept.scopes_eq (hs : Ready s) (hwalled : Walled s) (h : Kept [] s t) :
    t.scopes = s.scopes := by
  refine Scopes.ext_get? h.skeleton_eq h.barrier fun id => ?_
  cases hb : s.scopes.get? id with
  | some b =>
    cases hl : b.isLinear with
    | true => exact h.isolated (hwalled id b hb hl) hb
    | false =>
      obtain ⟨b', hb', hblank⟩ := Scopes.get?_of_skeleton h.skeleton_eq hb
      have hfree : b'.isLinear = false := (Binding.isLinear_of_blank hblank).trans hl
      have hstate : b'.state = b.state := by
        rw [((h.coherent.accounted hb').free hfree).1, ((hs.coherent.accounted hb).free hl).1]
      rw [hb', Binding.ext_blank hblank hstate]
  | none =>
    have hmap : (t.scopes.get? id).map Binding.blank = none := by
      rw [← Scopes.get?_skeleton, h.skeleton_eq, Scopes.get?_skeleton, hb]
      rfl
    exact Option.map_eq_none_iff.mp hmap

theorem Ready.enterLoop (hs : Ready s) : Ready (enterLoop s) :=
  ⟨⟨hs.coherent.valid, hs.coherent.accounted, hs.coherent.shared⟩, hs.settled, hs.opened⟩

theorem exitLoop_enterLoop (s : State) : (enterLoop s).scopes.exitLoop s.scopes.barrier = s.scopes := rfl

/-- Leaving the scopes of a loop's body for those before it undoes the loop. -/
theorem kept_exitLoop (hs : Ready s) {entry : State} (hentry : entry.scopes = (Check.enterLoop s).scopes)
    (hregions : t.regions = s.regions) :
    Kept [] s (exitLoop s {t with scopes := entry.scopes}) := by
  refine hs.kept_same ?_ hregions
  show entry.scopes.exitLoop s.scopes.barrier = s.scopes
  rw [hentry, exitLoop_enterLoop]

/-! ### Borrow blocks -/

/-- The region of a borrow block is open, and the reference taken. -/
structure Borrowing (r : Region) (s t : State) : Prop where
  regions : t.regions = r :: s.regions
  kind : r.kind = .explicit
  skeleton : t.scopes.skeleton = s.scopes.skeleton
  barrier : t.scopes.barrier = s.scopes.barrier
  isolated : ∀ {id}, s.scopes.outsideLoop id = true → t.scopes.get? id = s.scopes.get? id ∧ id ∉ r.frozen
  coherent : Coherent t.scopes t.regions

/-- A region that froze nothing. -/
theorem Borrowing.of_scopes {r : Region} (hregions : t.regions = r :: s.regions) (hkind : r.kind = .explicit)
    (hfrozen : r.frozen = []) (hscopes : t.scopes = s.scopes) (h : Coherent t.scopes t.regions) :
    Borrowing r s t := by
  refine ⟨hregions, hkind, by rw [hscopes], by rw [hscopes], fun _ => ⟨by rw [hscopes], ?_⟩, h⟩
  rw [hfrozen]
  exact List.not_mem_nil

theorem borrowing_borrowBinding (hs : Ready s) (kind : RefKind) {name : String} {id : BindingId} {b : Binding}
    (hlookup : s.scopes.lookup name = some (id, b)) {r : Region} (hnone : s.regions.get? r.name = none)
    (hkind : r.kind = .explicit) (hrefs : r.references = []) (pos : Span)
    (hcoh : Coherent s.scopes (r :: s.regions)) :
    ∃ q, Borrowing q s (borrowBinding c kind name id r.name pos false {s with regions := r :: s.regions}) := by
  have hget : Regions.get? (r :: s.regions) r.name = some r := by simp [Regions.get?]
  have hcoh' := @coherent_borrowBinding c {s with regions := r :: s.regions} kind name id b r.name pos false r hcoh
    hlookup hget (fun h => absurd h Bool.false_ne_true) (fun _ inner outer hsplit => by
      rw [Regions.split_fresh hnone hsplit]
      exact (hs.coherent.accounted (Scopes.get?_of_lookup hlookup).1).deep)
  have hattach := Regions.attach_head r s.regions
  have hfrozen : r.frozen = [] := by
    rw [Region.frozen, hrefs]
    rfl
  have hspec := borrowBinding_spec c kind name id r.name pos false {s with regions := r :: s.regions}
  generalize borrowBinding c kind name id r.name pos false {s with regions := r :: s.regions} = t at hspec hcoh' ⊢
  cases hspec with
  | conflict => exact ⟨r, .of_scopes (report_regions ..) hkind hfrozen (report_scopes ..) hcoh'⟩
  | refused => exact ⟨r, .of_scopes (report_regions ..) hkind hfrozen (report_scopes ..) hcoh'⟩
  | shared =>
    refine ⟨_, .of_scopes (hattach _) hkind ?_ rfl hcoh'⟩
    rw [Region.frozen, hrefs]
    rfl
  | @taken frozen scopes href hfreeze =>
    rcases Scopes.freeze_ok hlookup hfreeze with ⟨rfl, rfl, _⟩ | ⟨rfl, rfl, _, hin, _⟩
    · refine ⟨_, .of_scopes (hattach _) hkind ?_ rfl hcoh'⟩
      rw [Region.frozen, hrefs]
      rfl
    · refine ⟨_, hattach _, hkind, Scopes.skeleton_setState .., rfl, fun {j} hj => ?_, hcoh'⟩
      have hne : id ≠ j := by
        rintro rfl
        rw [hj] at hin
        cases hin
      refine ⟨(Scopes.get?_setState ..).trans (if_neg hne), fun hmem => hne ?_⟩
      rw [Region.frozen, hrefs] at hmem
      exact (List.mem_singleton.mp hmem).symm

theorem borrowing_takeBorrow (hs : Ready s) (kind : RefKind) (source region : Ident Span)
    (hnone : s.regions.get? region.name = none) :
    ∃ r, Borrowing r s (takeBorrow c kind source region
      {s with regions := ⟨region.name, .explicit, region.pos, []⟩ :: s.regions}) := by
  have hcoh := hs.coherent.enter region.name .explicit region.pos
  unfold takeBorrow
  split
  · rename_i id b hlookup
    exact @borrowing_borrowBinding c s hs kind source.name id b hlookup ⟨region.name, .explicit, region.pos, []⟩
      hnone rfl rfl source.pos hcoh
  · exact ⟨_, .of_scopes rfl rfl rfl rfl hcoh⟩

theorem Borrowing.ready {r : Region} (h : Borrowing r s t) (hs : Ready s) : Ready t := by
  refine ⟨h.coherent, fun q hq => ?_, ?_⟩
  · rw [h.regions] at hq
    rcases List.mem_cons.mp hq with rfl | hq
    · rw [h.kind]
      decide
    · exact hs.settled q hq
  · rw [h.skeleton]
    exact hs.opened

/-- Closing the region of a borrow block ends its borrow and nothing else. -/
theorem Borrowing.close {r : Region} (h : Borrowing r s t) (hs : Ready s) (hu : Kept [] t u) (pos : Span) :
    Kept [] s (closeRegion pos u) := by
  have hregions : u.regions = r :: s.regions := hu.regions.trans h.regions
  have hcoh := hu.coherent
  rw [hregions] at hcoh
  have hexcl : ∀ id b, u.scopes.get? id = some b → id ∈ [r].flatMap Region.frozen →
      s.regions.refsTo id = [] := by
    intro id b hb hid
    obtain ⟨ref, href, hfroze, hbind⟩ := Region.mem_frozen.mp (by simpa using hid)
    have hacc := hcoh.accounted hb
    have hmem := Regions.mem_refsTo_of_mem (List.mem_cons_self (l := s.regions)) href hbind
    have hone := hacc.exclusive (hacc.state_of_froze hmem hfroze).1 r (List.mem_cons_self ..)
      (by rw [h.kind]; decide) ref href hbind
    rw [Regions.refsTo_cons] at hone
    rcases List.append_eq_singleton_iff.mp hone with ⟨hnil, _⟩ | ⟨_, hbase⟩
    · have hmem' : ref ∈ r.references.filter fun ref => ref.binding = id :=
        List.mem_filter.mpr ⟨href, decide_eq_true hbind⟩
      rw [hnil] at hmem'
      cases hmem'
    · exact hbase
  have hskel := hu.skeleton_eq.trans h.skeleton
  rw [closeRegion_eq hregions]
  refine ⟨rfl, ?_, ?_, fun {id b} hout hb => ?_, ?_⟩
  · obtain ⟨f, outer, hf⟩ := List.exists_cons_of_ne_nil hs.opened
    refine ⟨f, outer, hf, ?_⟩
    rw [release_scopes, Scopes.skeleton_thawAll]
    exact hskel.trans hf
  · rw [release_scopes, Scopes.barrier_thawAll]
    exact hu.barrier.trans h.barrier
  · have hout' : t.scopes.outsideLoop id = true := by
      rw [Scopes.outsideLoop, h.barrier]
      exact hout
    obtain ⟨hget, hfrozen⟩ := h.isolated hout
    rw [release_scopes, Scopes.get?_thawAll, if_neg hfrozen]
    exact hu.isolated hout' (hget.trans hb)
  · rw [release_scopes]
    have hclosed := @Coherent.close u.scopes [r] s.regions hcoh hexcl fun id b hb => by
      obtain ⟨b', hb', hblank⟩ := Scopes.get?_of_skeleton hskel.symm hb
      have hdeep := (hs.coherent.accounted hb').deep
      rwa [← Binding.blank_regionDepth, hblank] at hdeep
    rwa [List.flatMap_singleton] at hclosed

variable {c} in
theorem takeBorrow_skeleton (kind : RefKind) (source region : Ident Span) (s : State) :
    (takeBorrow c kind source region s).scopes.skeleton = s.scopes.skeleton := by
  unfold takeBorrow
  split
  · rename_i id b hlookup
    exact (borrowBinding_frame c kind region.name source.pos false hlookup).1
  · rfl

variable {c} in
theorem lend_skeleton (kind : RefKind) (source region : Ident Span) (s : State) :
    (lend c kind source region s).scopes.skeleton = s.scopes.skeleton := by
  unfold lend
  rcases openBorrow_cases c region s with ⟨v, hopen⟩ | ⟨hnone, hopen⟩
  · rw [hopen]
    exact congrArg Linearity.Scopes.skeleton (report_scopes c v s)
  · rw [hopen]
    exact takeBorrow_skeleton ..

/-- A borrow block opens a scope for its alias in a state `u`: without its region if that
could not be opened, and else with the reference taken. -/
theorem enterBorrow_cases (hs : Ready s) (kind : RefKind) (source name region : Ident Span) :
    ∃ u, Ready u ∧
      (enterBorrow c kind source name region s).2 =
        define c name.name (aliasTy kind source region s.scopes) name.pos (Check.pushScope u) ∧
      (((enterBorrow c kind source name region s).1 = false ∧ Kept [] s u) ∨
        ((enterBorrow c kind source name region s).1 = true ∧ ∃ r, Borrowing r s u)) := by
  rw [enterBorrow_eq]
  rcases openBorrow_cases c region s with ⟨v, hopen⟩ | ⟨hnone, hopen⟩
  · rw [hopen]
    have hreport := hs.kept_same (report_scopes c v s) (report_regions c v s)
    exact ⟨_, hreport.ready hs, rfl, .inl ⟨rfl, hreport⟩⟩
  · rw [hopen]
    obtain ⟨r, hborrow⟩ := borrowing_takeBorrow c hs kind source region hnone
    exact ⟨_, hborrow.ready hs, rfl, .inr ⟨rfl, r, hborrow⟩⟩

/-- Inside the region of a borrow block, everything is kept up to where the region is closed. -/
theorem kept_alias (hu : Ready u) (name : Ident Span) (ty : Ty) (pos : Span) {body : State → Reach × State}
    (hbody : ∀ v, Ready v → ∃ new, Kept new v (body v).2) :
    let after := body (define c name.name ty name.pos (Check.pushScope u))
    Kept [] u (Check.leaveScope c after.1 pos after.2) := by
  obtain ⟨n, hdefine⟩ := kept_define c hu.pushScope name.name ty name.pos
  obtain ⟨m, hinside⟩ := hbody _ (hdefine.ready hu.pushScope)
  exact (hdefine.trans hinside).leaveScope c hu _ pos

/-- A borrow block keeps everything if its body does. -/
theorem kept_borrow (hs : Ready s) (kind : RefKind) (source name region : Ident Span) (pos : Span)
    {body : State → Reach × State} (hbody : ∀ u, Ready u → ∃ new, Kept new u (body u).2) :
    let entered := enterBorrow c kind source name region s
    let after := body entered.2
    Kept [] s (leaveBorrow entered.1 pos (Check.leaveScope c after.1 pos after.2)) := by
  intro entered after
  obtain ⟨u, hu, hentered, hopened⟩ := enterBorrow_cases c hs kind source name region
  have hinside := kept_alias c hu name (aliasTy kind source region s.scopes) pos hbody
  rw [← hentered] at hinside
  unfold leaveBorrow
  rcases hopened with ⟨hfst, hreport⟩ | ⟨hfst, r, hborrow⟩
  · rw [if_neg (by rw [hfst]; decide)]
    exact hreport.trans hinside
  · rw [if_pos hfst]
    exact hborrow.close hs hinside pos

/-! ### The walk -/

theorem kept_apart {run : State → Reach × State} (hs : Ready s)
    (hrun : ∀ u, Ready u → ∃ new, Kept new u (run u).2) : ∃ new, Kept new s (apart run s).2 := by
  obtain ⟨new, h⟩ := hrun {s with escaped := []} (hs.of_same rfl rfl)
  exact ⟨new, h.regions, h.skeleton, h.barrier, h.isolated, h.coherent⟩

/-- Whether a statement leaves bindings behind. -/
def binds : Stmt Span → Bool
  | .bind .. | .unpack .. => true
  | _ => false

mutual

theorem kept_visit_new : ∀ (stmt : Stmt Span) {s : State}, Ready s →
    ∃ new, (binds stmt = false → new = []) ∧ Kept new s (visit c stmt s).2
  | .bind pos name ty value, s, hs => by
    have hvalue := kept_evalClosed c hs value
    have hlive := hvalue.of_same (requireLive_scopes c ty (some name.name) pos _) (requireLive_regions ..)
    obtain ⟨new, hdefine⟩ := kept_define c (hlive.ready hs) name.name ty name.pos
    exact ⟨_, fun h => absurd h (by simp [binds]), hlive.trans hdefine⟩
  | .unpack _ parts value, s, hs => by
    have hvalue := kept_evalClosed c hs value
    obtain ⟨new, hunpack⟩ := kept_unpack c (hvalue.ready hs) parts
    exact ⟨_, fun h => absurd h (by simp [binds]), hvalue.trans hunpack⟩
  | .assign pos target value, s, hs => by
    refine ⟨[], fun _ => rfl, ?_⟩
    show Kept [] s (assign c pos target value s)
    rw [assign_eq]
    refine kept_closing c hs pos ?_
    rw [List.all_append, plain_actions, plain_storeActions]
    rfl
  | .choose pos branches none, s, hs => by
    have hbranches := branched_checkBranches branches hs
    exact ⟨[], fun _ => rfl, kept_join c (hbranches.append (branched_skip (hbranches.kept.ready hs) pos))⟩
  | .choose pos branches (some block), s, hs => by
    have hbranches := branched_checkBranches branches hs
    have hready := hbranches.kept.ready hs
    have helse := branched_outcome hready (checkBlock c block (checkBranches c branches s).2).1
      (kept_checkBlock block hready) block.pos
    exact ⟨[], fun _ => rfl, kept_join c (hbranches.append helse)⟩
  | .select _ scrutinee arms, s, hs => by
    have hvalue := kept_evalClosed c hs scrutinee
    have harms := branched_checkArms arms (hvalue.ready hs)
    exact ⟨[], fun _ => rfl, hvalue.trans (kept_join c harms)⟩
  | .loop _ cond body, s, hs => by
    have hcond := kept_evalClosed c hs.enterLoop cond
    have hbody := kept_checkBlock body (hcond.ready hs.enterLoop)
    have hsame := hcond.scopes_eq hs.enterLoop (walled_enterLoop s)
    exact ⟨[], fun _ => rfl, kept_exitLoop hs hsame (hbody.regions.trans hcond.regions)⟩
  | .count _ var first last body, s, hs => by
    have hfirst := kept_evalClosed c hs.enterLoop first
    have hlast := hfirst.trans (kept_evalClosed c (hfirst.ready hs.enterLoop) last)
    have hready := (hlast.ready hs.enterLoop).pushScope
    obtain ⟨new, hvar⟩ := kept_define c hready var.name .int var.pos
    have hbody := kept_checkBlock body (hvar.ready hready)
    -- The scope of the counter is pushed and popped again around the body.
    have hsame := hlast.scopes_eq hs.enterLoop (walled_enterLoop s)
    exact ⟨[], fun _ => rfl, kept_exitLoop hs (t := (checkBlock c body _).2) hsame
      ((hbody.regions.trans hvar.regions).trans hlast.regions)⟩
  | .borrow pos kind source name region body, s, hs =>
    ⟨[], fun _ => rfl, kept_borrow c hs kind source name region pos fun _ hu => ⟨[], kept_checkBlock body hu⟩⟩
  | .ret pos value, s, hs => by
    have hvalue := kept_evalClosed c hs value
    exact ⟨[], fun _ => rfl, hvalue.of_same ((reportAll_scopes ..).trans (reportEscapes_scopes ..))
      ((reportAll_regions ..).trans (reportEscapes_regions ..))⟩
  | .discard pos value, s, hs => by
    refine ⟨[], fun _ => rfl, ?_⟩
    show Kept [] s (discard c pos value s)
    rw [discard_eq]
    refine kept_closing c hs pos ?_
    rw [List.all_append, plain_actions]
    rfl
  | .block body, s, hs => ⟨[], fun _ => rfl, kept_checkBlock body hs⟩

theorem kept_checkBlock : ∀ (block : Block Span) {s : State}, Ready s → Kept [] s (checkBlock c block s).2
  | ⟨pos, stmts⟩, s, hs => by
    obtain ⟨new, hstmts⟩ := kept_checkStmts stmts hs.pushScope
    exact hstmts.leaveScope c hs _ pos

theorem kept_checkStmts : ∀ (stmts : List (Stmt Span)) {s : State}, Ready s →
    ∃ new, Kept new s (checkStmts c stmts s).2
  | [], s, hs => ⟨[], Kept.refl hs⟩
  | stmt :: rest, s, hs => by
    rw [checkStmts]
    split
    · exact ⟨[], Kept.refl hs⟩
    · obtain ⟨m, hstmt⟩ := kept_apart hs fun u hu => (kept_visit_new stmt hu).imp fun _ h => h.2
      dsimp only
      split
      · obtain ⟨n, hrest⟩ := kept_checkStmts rest (hstmt.ready hs)
        exact ⟨_, hstmt.trans hrest⟩
      · exact ⟨m, hstmt⟩

theorem branched_checkBranches : ∀ (branches : List (Branch Span)) {s : State}, Ready s →
    Branched s (checkBranches c branches s).1 (checkBranches c branches s).2
  | [], s, hs => ⟨Kept.refl hs, fun he => (nomatch he)⟩
  | ⟨pos, cond, body⟩ :: rest, s, hs => by
    have hcond := kept_evalClosed c hs cond
    have hentry := hcond.ready hs
    have hbranch := branched_outcome hentry (checkBlock c body (evalClosed c cond s)).1
      (kept_checkBlock body hentry) pos
    have hrest := branched_checkBranches rest (hbranch.kept.ready hentry)
    have hboth := hbranch.append hrest
    exact ⟨hcond.trans hboth.kept, fun he => hcond.trans (hboth.exits he)⟩

theorem branched_checkArms : ∀ (arms : List (Arm Span)) {s : State}, Ready s →
    Branched s (checkArms c arms s).1 (checkArms c arms s).2
  | [], s, hs => ⟨Kept.refl hs, fun he => (nomatch he)⟩
  | ⟨pos, _, parts, body⟩ :: rest, s, hs => by
    obtain ⟨new, hparts⟩ := kept_unpack c hs.pushScope parts
    have hbody := hparts.trans (kept_checkBlock body (hparts.ready hs.pushScope))
    have hexit := hbody.leaveScope c hs (checkBlock c body (unpack c parts (Check.pushScope s))).1 pos
    have harm := branched_outcome hs (checkBlock c body (unpack c parts (Check.pushScope s))).1 hexit pos
    have hrest := branched_checkArms rest (harm.kept.ready hs)
    exact harm.append hrest

end

theorem kept_visit (stmt : Stmt Span) (hs : Ready s) : ∃ new, Kept new s (visit c stmt s).2 :=
  (kept_visit_new c stmt hs).imp fun _ h => h.2

theorem kept_visit_closed {stmt : Stmt Span} (hclosed : binds stmt = false) (hs : Ready s) :
    Kept [] s (visit c stmt s).2 := by
  obtain ⟨new, hnew, hkept⟩ := kept_visit_new c stmt hs
  rwa [hnew hclosed] at hkept

/-! ### Functions -/

/-- What holds before a function is entered, and of all that its regions and parameters do,
holds where its body starts. -/
theorem entryState_induction {P : State → Prop} (hstart : P {})
    (hregion : ∀ s r, P s → P (enterFunctionRegion c s r)) (hparam : ∀ s p, P s → P (defineParam c s p))
    (f : FunDef Span) : P (entryState c f) := by
  have hregions : ∀ (regions : List (Ident Span)) (s : State), P s →
      P (regions.foldl (enterFunctionRegion c) s) := by
    intro regions
    induction regions with
    | nil => exact fun _ hs => hs
    | cons r regions ih => exact fun s hs => ih _ (hregion s r hs)
  have hparams : ∀ (params : List (Slot Span)) (s : State), P s → P (params.foldl (defineParam c) s) := by
    intro params
    induction params with
    | nil => exact fun _ hs => hs
    | cons p params ih => exact fun s hs => ih _ (hparam s p hs)
  exact hparams f.params _ (hregions f.regions _ hstart)

theorem ready_enterFunctionRegion (hs : Ready s) (r : Ident Span) : Ready (enterFunctionRegion c s r) := by
  unfold enterFunctionRegion Regions.enter
  cases s.regions.get? r.name with
  | some prior => exact hs.of_same (report_scopes ..) (report_regions ..)
  | none =>
    refine ⟨hs.coherent.enter r.name .function r.pos, fun q hq => ?_, hs.opened⟩
    rcases List.mem_cons.mp hq with rfl | hq
    · exact fun hkind => (nomatch hkind)
    · exact hs.settled q hq

/-- Before anything is defined or borrowed. -/
theorem ready_initial : Ready {} := by
  refine ⟨⟨?_, ?_, ?_⟩, ?_, ?_⟩
  · intro ref href
    cases href
  · intro id b hb
    simp [Scopes.get?, Scopes.initial, Scopes.getIn, Frame.get?] at hb
  · refine fun _ => .inl fun ref href => ?_
    cases href
  · intro r hr
    cases hr
  · exact List.cons_ne_nil _ _

/-- A function's body may start in its entry state. -/
theorem ready_entryState (f : FunDef Span) : Ready (entryState c f) := by
  refine entryState_induction c (P := Ready) ready_initial (fun s r hs => ready_enterFunctionRegion c hs r)
    (fun s p hs => ?_) f
  obtain ⟨new, hdefine⟩ := kept_define c hs p.name.name p.ty p.pos
  exact hdefine.ready hs

theorem honest_entryState (f : FunDef Span) : Honest (entryState c f) := by
  refine entryState_induction c (P := Honest) (fun he => absurd rfl he) (fun s r hs => ?_) (fun s p hs => hs) f
  unfold enterFunctionRegion
  split
  · exact hs
  · exact honest_report c s _

theorem entryState_scopes (f : FunDef Span) :
    (entryState c f).scopes.barrier = none ∧ (entryState c f).scopes.frames.length = 1 := by
  refine entryState_induction c (P := fun s => s.scopes.barrier = none ∧ s.scopes.frames.length = 1) ⟨rfl, rfl⟩
    (fun s r hs => ?_) (fun s p hs => ?_) f
  · unfold enterFunctionRegion
    split
    · exact hs
    · rw [report_scopes]
      exact hs
  · obtain ⟨hbar, hlen⟩ := hs
    refine ⟨(Scopes.barrier_define ..).trans hbar, ?_⟩
    show (s.scopes.define _).2.frames.length = 1
    unfold Scopes.define
    cases hframes : s.scopes.frames with
    | nil => rfl
    | cons f outer =>
      rw [hframes] at hlen
      exact hlen

end Linearity.Check
