import Linearity.Proofs.Policy
import Linearity.Proofs.Faithful

/-! Two ways that disagree about a binding cannot both go well.

`Conflict id name p q`: the states `p` and `q` look the same to the binding `id`, except
that it holds its value in `p` and is consumed in `q`. Whatever is done next, what is good
for one is bad for the other: to consume, read or borrow the binding is wrong in `q`, to
store into it or leave its scope is wrong in `p`, and all else keeps the conflict. So on
every path from there that returns or leaves the binding's scope, a misuse is reported from
`p` or from `q` (`tells_run`). -/
namespace Linearity

/-- Whether it is a double consumption, a use after consumption, the overwriting of a live
value or a leak, and of what is called `name`. -/
def Violation.misuses (name : String) : Violation → Bool
  | .consumedTwice x .. | .usedAfterConsume x .. | .unconsumed x .. => x == name
  | .discarded x .. => x == some name
  | _ => false

namespace Check

/-- From `s` to `t` a misuse was reported. -/
def Misuse (name : String) (s t : State) : Prop :=
  ∃ w ∈ t.found.drop s.found.length, w.misuses name = true

theorem Misuse.mono {name : String} {s s' t t' : State} (h : Misuse name s t) (hs : s'.found <+: s.found)
    (ht : t.found <+: t'.found) : Misuse name s' t' := by
  obtain ⟨w, hw, hmis⟩ := h
  obtain ⟨more, hmore⟩ := ht
  have hlater : w ∈ t'.found.drop s.found.length := by
    rw [← hmore, List.drop_append]
    exact List.mem_append_left _ hw
  exact ⟨w, (List.drop_suffix_drop_left _ hs.length_le).subset hlater, hmis⟩

section Reports
variable {c : Context} (hc : c.Thorough) {name : String}

include hc

theorem misuse_report {w : Violation} (hw : w.misuses name = true) (s : State) :
    Misuse name s (report c w s) := by
  refine ⟨w, ?_, hw⟩
  rw [hc.report_found, List.drop_left]
  exact List.mem_singleton_self w

theorem misuse_reportAll {w : Violation} {ws : List Violation} (hmem : w ∈ ws) (hw : w.misuses name = true)
    (s : State) : Misuse name s (reportAll c ws s) := by
  refine ⟨w, ?_, hw⟩
  rw [hc.reportAll_found, List.drop_left]
  exact hmem

end Reports

structure Conflict (id : BindingId) (name : String) (p q : State) : Prop where
  skeleton : q.scopes.skeleton = p.scopes.skeleton
  barrier : q.scopes.barrier = p.scopes.barrier
  regions : q.regions.about id = p.regions.about id
  unborrowed : p.regions.refsTo id = []
  holds : ∃ b, p.scopes.get? id = some b ∧ b.isLinear = true ∧ b.name = name ∧ b.state = .unconsumed
  spent : ∃ b, q.scopes.get? id = some b ∧ b.state.isConsumed = true

namespace Conflict
variable {id : BindingId} {name : String} {p q p' q' : State}

theorem of_view (h : Conflict id name p q) (hp : p'.view id = p.view id) (hq : q'.view id = q.view id) :
    Conflict id name p' q' := by
  refine ⟨?_, ?_, ?_, ?_, ?_, ?_⟩
  · rw [skeleton_of_view hp, skeleton_of_view hq, h.skeleton]
  · rw [barrier_of_view hp, barrier_of_view hq, h.barrier]
  · rw [regions_of_view hp, regions_of_view hq, h.regions]
  · rw [← Regions.refsTo_about, regions_of_view hp, Regions.refsTo_about, h.unborrowed]
  · obtain ⟨b, hb, hlin, hname, hstate⟩ := h.holds
    obtain ⟨b', hb', hblank, hfaded⟩ := get?_of_view hp.symm hb
    refine ⟨b', hb', (Binding.isLinear_of_blank hblank).trans hlin, ?_, ?_⟩
    · rw [← Binding.blank_name, hblank, Binding.blank_name, hname]
    · rw [hstate] at hfaded
      cases hs : b'.state <;> simp_all [BindingState.faded]
  · obtain ⟨b, hb, hconsumed⟩ := h.spent
    obtain ⟨b', hb', _, hfaded⟩ := get?_of_view hq.symm hb
    exact ⟨b', hb', (BindingState.isConsumed_of_faded hfaded).trans hconsumed⟩

theorem of_same (h : Conflict id name p q) (hp : p'.scopes = p.scopes) (hp' : p'.regions = p.regions)
    (hq : q'.scopes = q.scopes) (hq' : q'.regions = q.regions) : Conflict id name p' q' :=
  h.of_view (view_of_same hp hp') (view_of_same hq hq')

theorem lookup (h : Conflict id name p q) {x : String} {i : BindingId} {b : Binding}
    (hb : p.scopes.lookup x = some (i, b)) : ∃ b', q.scopes.lookup x = some (i, b') ∧ b'.blank = b.blank :=
  Scopes.lookup_of_skeleton h.skeleton hb

theorem lookup_none (h : Conflict id name p q) {x : String} (hb : p.scopes.lookup x = none) :
    q.scopes.lookup x = none :=
  Scopes.lookup_none_of_skeleton h.skeleton hb

end Conflict

/-- A step that cannot go well from both sides of a conflict, unless it keeps it; if control
does not go on after it, it cannot go well at all. -/
structure Tells (r : Reach) (F : State → State) : Prop where
  grows : ∀ s, s.found <+: (F s).found
  tells : ∀ {id name p q}, Conflict id name p q →
    Misuse name p (F p) ∨ Misuse name q (F q) ∨ r = .continues ∧ Conflict id name (F p) (F q)

namespace Tells
variable {r : Reach} {F G : State → State}

theorem skip : Tells .continues fun s => s :=
  ⟨fun _ => List.prefix_rfl, fun h => .inr (.inr ⟨rfl, h⟩)⟩

theorem seq (hF : Tells .continues F) (hG : Tells r G) : Tells r fun s => G (F s) := by
  refine ⟨fun s => (hF.grows s).trans (hG.grows _), fun {id name p q} h => ?_⟩
  rcases hF.tells h with hp | hq | ⟨_, h'⟩
  · exact .inl (hp.mono List.prefix_rfl (hG.grows _))
  · exact .inr (.inl (hq.mono List.prefix_rfl (hG.grows _)))
  · rcases hG.tells h' with hp | hq | hkept
    · exact .inl (hp.mono (hF.grows p) List.prefix_rfl)
    · exact .inr (.inl (hq.mono (hF.grows q) List.prefix_rfl))
    · exact .inr (.inr hkept)

/-- A step that keeps every conflict. -/
theorem of_kept (hgrows : ∀ s, s.found <+: (F s).found)
    (h : ∀ {id name p q}, Conflict id name p q → Conflict id name (F p) (F q)) : Tells .continues F :=
  ⟨hgrows, fun hpq => .inr (.inr ⟨rfl, h hpq⟩)⟩

/-- A step that does nothing but report. -/
theorem of_still (hgrows : ∀ s, s.found <+: (F s).found) (hscopes : ∀ s, (F s).scopes = s.scopes)
    (hregions : ∀ s, (F s).regions = s.regions) : Tells .continues F :=
  of_kept hgrows fun {_ _ p q} h => h.of_same (hscopes p) (hregions p) (hscopes q) (hregions q)

end Tells

variable {c : Context} (hc : c.Thorough)

/-! ### Moves and borrows -/

/-- A move that is a misuse of a binding that holds its value, or of one that is consumed. -/
def Contrary (move : Binding → Except Violation BindingState) : Prop :=
  ∀ b b', b.state = .unconsumed → b'.state.isConsumed = true →
    (∃ w, move b = .error w ∧ w.misuses b.name = true) ∨ ∃ w, move b' = .error w ∧ w.misuses b'.name = true

theorem contrary_consume (pos : Span) : Contrary fun b => b.consume pos := by
  intro b b' _ hconsumed
  refine .inr ?_
  unfold Binding.consume
  cases hstate : b'.state <;> simp_all [BindingState.isConsumed, Violation.misuses]

theorem contrary_read (reads : LeafReads) (pos : Span) : Contrary fun b => b.read reads pos := by
  intro b b' _ hconsumed
  refine .inr ?_
  unfold Binding.read
  cases hstate : b'.state <;> simp_all [BindingState.isConsumed, Violation.misuses]

theorem contrary_freeze (kind : RefKind) (pos : Span) : Contrary fun b => b.freeze kind pos := by
  intro b b' _ hconsumed
  refine .inr ?_
  unfold Binding.freeze
  cases hstate : b'.state <;> simp_all [BindingState.isConsumed, Violation.misuses]

theorem contrary_overwrite (pos : Span) : Contrary fun b => b.overwrite pos := by
  intro b b' hstate _
  refine .inl ?_
  unfold Binding.overwrite
  simp [hstate, Violation.misuses]

/-- The binding of a conflict, as both sides find it under its name. -/
theorem Conflict.bindings {id : BindingId} {name x : String} {p q : State} (h : Conflict id name p q)
    {b : Binding} (hb : p.scopes.lookup x = some (id, b)) :
    ∃ b', q.scopes.lookup x = some (id, b') ∧ b.isLinear = true ∧ b'.isLinear = true ∧ b.name = name ∧
      b'.name = name ∧ b.state = .unconsumed ∧ b'.state.isConsumed = true := by
  obtain ⟨b₀, hget, hlin, hname, hstate⟩ := h.holds
  rw [(Scopes.get?_of_lookup hb).1] at hget
  cases hget
  obtain ⟨b', hb', hblank⟩ := h.lookup hb
  obtain ⟨b₁, hget', hconsumed⟩ := h.spent
  rw [(Scopes.get?_of_lookup hb').1] at hget'
  cases hget'
  refine ⟨b', hb', hlin, (Binding.isLinear_of_blank hblank).trans hlin, hname, ?_, hstate, hconsumed⟩
  rw [← Binding.blank_name, hblank, Binding.blank_name, hname]

/-- A move of the binding of a conflict: barred on both sides, or a misuse on one. -/
theorem Conflict.attempt {id : BindingId} {name x : String} {p q : State} (h : Conflict id name p q)
    {b : Binding} (hb : p.scopes.lookup x = some (id, b)) (pos : Span)
    {move : Binding → Except Violation BindingState} (hmove : Contrary move) :
    (∃ v v', p.scopes.attempt x pos move = (.error v, p.scopes) ∧
      q.scopes.attempt x pos move = (.error v', q.scopes)) ∨
    (∃ w, w.misuses name = true ∧ p.scopes.attempt x pos move = (.error w, p.scopes)) ∨
    ∃ w, w.misuses name = true ∧ q.scopes.attempt x pos move = (.error w, q.scopes) := by
  obtain ⟨b', hb', hlin, hlin', hname, hname', hstate, hconsumed⟩ := h.bindings hb
  have hout : q.scopes.outsideLoop id = p.scopes.outsideLoop id := by
    unfold Scopes.outsideLoop
    rw [h.barrier]
  rw [Scopes.attempt_of_lookup hb, Scopes.attempt_of_lookup hb', if_pos hlin, if_pos hlin', hout]
  cases p.scopes.outsideLoop id with
  | true => exact .inl ⟨_, _, rfl, rfl⟩
  | false =>
    refine .inr ?_
    rcases hmove b b' hstate hconsumed with ⟨w, hw, hmis⟩ | ⟨w, hw, hmis⟩
    · exact .inl ⟨w, hname ▸ hmis, by rw [hw]; rfl⟩
    · exact .inr ⟨w, hname' ▸ hmis, by rw [hw]; rfl⟩

include hc

theorem tells_settle {x : String} {pos : Span} {move : Binding → Except Violation BindingState}
    (hmove : Contrary move) (event : Event) :
    Tells .continues fun s => settle c (s.scopes.attempt x pos move) event s := by
  refine ⟨fun s => (grown_settle ..).found, fun {id name p q} h => ?_⟩
  cases hb : p.scopes.lookup x with
  | none =>
    rw [Scopes.attempt_of_lookup_none hb, Scopes.attempt_of_lookup_none (h.lookup_none hb)]
    exact .inr (.inr ⟨rfl, h⟩)
  | some e =>
    obtain ⟨i, b⟩ := e
    by_cases hi : i = id
    · subst hi
      rcases h.attempt hb pos hmove with ⟨v, v', hp, hq⟩ | ⟨w, hmis, hp⟩ | ⟨w, hmis, hq⟩
      · rw [hp, hq]
        exact .inr (.inr ⟨rfl, h.of_same (report_scopes ..) (report_regions ..) (report_scopes ..)
          (report_regions ..)⟩)
      · rw [hp]
        exact .inl (misuse_report hc hmis p)
      · rw [hq]
        exact .inr (.inl (misuse_report hc hmis q))
    · obtain ⟨b', hb', _⟩ := h.lookup hb
      exact .inr (.inr ⟨rfl, h.of_view (view_settle_elsewhere c hb hi event)
        (view_settle_elsewhere c hb' hi event)⟩)

theorem tells_borrowNamed (kind : RefKind) (x region : String) (pos : Span) (shareable : Bool) :
    Tells .continues (borrowNamed c kind x region pos shareable) := by
  refine ⟨fun s => (grown_borrowNamed c kind x region pos shareable s).found, fun {id name p q} h => ?_⟩
  cases hb : p.scopes.lookup x with
  | none =>
    unfold borrowNamed
    rw [hb, h.lookup_none hb]
    exact .inr (.inr ⟨rfl, h⟩)
  | some e =>
    obtain ⟨i, b⟩ := e
    obtain ⟨b', hb', _⟩ := h.lookup hb
    rw [borrowNamed_of_lookup c hb, borrowNamed_of_lookup c hb']
    by_cases hi : i = id
    · subst hi
      -- Nothing refers to the binding, so the borrow has to freeze it.
      have hfree : p.regions.referenceTo i = none := Regions.referenceTo_eq_none_iff.mpr h.unborrowed
      have hfree' : q.regions.referenceTo i = none := by
        rw [Regions.referenceTo_eq_none_iff, ← Regions.refsTo_about, h.regions, Regions.refsTo_about, h.unborrowed]
      unfold borrowBinding Scopes.freeze
      rw [hfree, hfree']
      rcases h.attempt hb pos (contrary_freeze kind pos) with ⟨v, v', hp, hq⟩ | ⟨w, hmis, hp⟩ | ⟨w, hmis, hq⟩
      · rw [hp, hq]
        exact .inr (.inr ⟨rfl, h.of_same (report_scopes ..) (report_regions ..) (report_scopes ..)
          (report_regions ..)⟩)
      · rw [hp]
        exact .inl (misuse_report hc hmis p)
      · rw [hq]
        exact .inr (.inl (misuse_report hc hmis q))
    · exact .inr (.inr ⟨rfl, h.of_view (view_borrowBinding_elsewhere c hb hi kind region pos shareable)
        (view_borrowBinding_elsewhere c hb' hi kind region pos shareable)⟩)

omit hc

section Open
variable {id : BindingId} {name : String} {p q : State}

theorem Conflict.get?_region (h : Conflict id name p q) (region : String) :
    (p.regions.get? region = none ∧ q.regions.get? region = none) ∨
    ∃ r r', p.regions.get? region = some r ∧ q.regions.get? region = some r' ∧ r'.kind = r.kind := by
  have hget : (q.regions.get? region).map (Region.about id) = (p.regions.get? region).map (Region.about id) := by
    rw [← Regions.get?_about, h.regions, Regions.get?_about]
  cases hp : p.regions.get? region with
  | none =>
    rw [hp] at hget
    exact .inl ⟨rfl, Option.map_eq_none_iff.mp hget⟩
  | some r =>
    rw [hp] at hget
    obtain ⟨r', hr', habout⟩ := Option.map_eq_some_iff.mp hget
    have hkind : (r'.about id).kind = (r.about id).kind := by rw [habout]
    exact .inr ⟨r, r', rfl, hr', hkind⟩

/-- A region is opened on both sides. -/
theorem Conflict.opened (h : Conflict id name p q) (region : String) (kind : RegionKind) (pos : Span) :
    Conflict id name {p with regions := ⟨region, kind, pos, []⟩ :: p.regions}
      {q with regions := ⟨region, kind, pos, []⟩ :: q.regions} :=
  ⟨h.skeleton, h.barrier, congrArg (List.cons _) h.regions, h.unborrowed, h.holds, h.spent⟩

theorem Conflict.enterStatement (h : Conflict id name p q) (region : String) (pos : Span) :
    (∃ v v', enterStatement region pos p = .error v ∧ enterStatement region pos q = .error v') ∨
    ∃ p' q', enterStatement region pos p = .ok p' ∧ enterStatement region pos q = .ok q' ∧
      p'.found = p.found ∧ q'.found = q.found ∧ Conflict id name p' q' := by
  unfold Check.enterStatement Regions.enter
  rcases h.get?_region region with ⟨hp, hq⟩ | ⟨r, r', hp, hq, hkind⟩ <;> rw [hp, hq]
  · exact .inr ⟨_, _, rfl, rfl, rfl, rfl, h.opened region .statement pos⟩
  · simp only [Option.any_some, hkind]
    split
    · exact .inr ⟨p, q, rfl, rfl, rfl, rfl, h⟩
    · exact .inl ⟨_, _, rfl, rfl⟩

end Open

include hc

theorem tells_borrowExpr (kind : RefKind) (target : String) (ty : Ty) (pos : Span) :
    Tells .continues (borrowExpr c kind target ty pos) := by
  cases ty with
  | ref k region referent =>
    refine ⟨fun s => (grown_borrowExpr c kind target _ pos s).found, fun {id name p q} h => ?_⟩
    rw [borrowExpr_ref, borrowExpr_ref]
    rcases h.enterStatement region pos with ⟨v, v', hp, hq⟩ | ⟨p', q', hp, hq, hfound, hfound', h'⟩ <;> rw [hp, hq]
    · exact .inr (.inr ⟨rfl, h.of_same (report_scopes ..) (report_regions ..) (report_scopes ..)
        (report_regions ..)⟩)
    · unfold Misuse
      rw [← hfound, ← hfound']
      exact (tells_borrowNamed hc kind target region pos true).tells h'
  | _ => exact .skip

omit hc

/-! ### Scopes, loops and the ends of borrows -/

section Kept
variable {id : BindingId} {name : String} {p q : State}

theorem Conflict.regions_length (h : Conflict id name p q) : q.regions.length = p.regions.length := by
  rw [← @Regions.length_about id, h.regions, Regions.length_about]

theorem Conflict.define (h : Conflict id name p q) (c : Context) (x : String) (ty : Ty) (pos : Span) :
    Conflict id name (define c x ty pos p) (define c x ty pos q) := by
  unfold Check.define
  rw [h.regions_length]
  -- The new binding is another one than that of the conflict, which exists.
  have hold : ∀ {s : State} {b : Binding}, s.scopes.get? id = some b →
      ∀ new, (s.scopes.define new).2.get? id = some b := fun {s b} hb new => by
    rw [Scopes.get?_define, if_neg, hb]
    rintro rfl
    rw [Scopes.get?_define_fresh] at hb
    cases hb
  obtain ⟨b, hb, hholds⟩ := h.holds
  obtain ⟨b', hb', hspent⟩ := h.spent
  refine ⟨?_, ?_, h.regions, h.unborrowed, ⟨b, hold hb _, hholds⟩, b', hold hb' _, hspent⟩
  · dsimp only
    rw [Scopes.skeleton_define_eq, Scopes.skeleton_define_eq, h.skeleton]
  · dsimp only
    rw [Scopes.barrier_define, Scopes.barrier_define, h.barrier]

theorem Conflict.pushScope (h : Conflict id name p q) : Conflict id name (pushScope p) (pushScope q) := by
  refine ⟨congrArg (List.cons []) h.skeleton, h.barrier, h.regions, h.unborrowed, ?_, ?_⟩
  · show ∃ b, p.scopes.push.get? id = some b ∧ _
    rw [Scopes.get?_push]
    exact h.holds
  · show ∃ b, q.scopes.push.get? id = some b ∧ _
    rw [Scopes.get?_push]
    exact h.spent

theorem Conflict.frames_length (h : Conflict id name p q) :
    q.scopes.frames.length = p.scopes.frames.length := by
  rw [← Scopes.length_skeleton, h.skeleton, Scopes.length_skeleton]

theorem Conflict.enterLoop (h : Conflict id name p q) : Conflict id name (enterLoop p) (enterLoop q) :=
  ⟨h.skeleton, congrArg some h.frames_length, h.regions, h.unborrowed, h.holds, h.spent⟩

theorem Conflict.exitLoop (h : Conflict id name p q) {before before' : State}
    (hbefore : before'.scopes.barrier = before.scopes.barrier) :
    Conflict id name (exitLoop before p) (exitLoop before' q) :=
  ⟨h.skeleton, hbefore, h.regions, h.unborrowed, h.holds, h.spent⟩

/-- Ends of borrows leave the binding of a conflict alone: it is not borrowed. -/
theorem Conflict.thawAll (h : Conflict id name p q) {ids ids' : List BindingId} {p' q' : State}
    (hp : p'.scopes = p.scopes.thawAll ids) (hq : q'.scopes = q.scopes.thawAll ids')
    (hregions : q'.regions.about id = p'.regions.about id) (hfree : p'.regions.refsTo id = []) :
    Conflict id name p' q' := by
  have hsame : ∀ {scopes : Scopes} {b : Binding} ids, scopes.get? id = some b →
      (∀ kind pos, b.state ≠ .frozen kind pos) → (scopes.thawAll ids).get? id = some b := by
    intro scopes b ids hb hstate
    rw [Scopes.get?_thawAll, hb, Option.map_some]
    have hthawed : b.thawed = b := by
      unfold Binding.thawed
      cases hs : b.state <;> simp_all
    rw [hthawed, ite_self]
  obtain ⟨b, hb, hlin, hname, hstate⟩ := h.holds
  obtain ⟨b', hb', hspent⟩ := h.spent
  refine ⟨?_, ?_, hregions, hfree, ⟨b, ?_, hlin, hname, hstate⟩, b', ?_, hspent⟩
  · rw [hp, hq, Scopes.skeleton_thawAll, Scopes.skeleton_thawAll, h.skeleton]
  · rw [hp, hq, Scopes.barrier_thawAll, Scopes.barrier_thawAll, h.barrier]
  · rw [hp]
    exact hsame ids hb (by simp [hstate])
  · rw [hq]
    refine hsame ids' hb' fun kind pos hfrozen => ?_
    rw [hfrozen] at hspent
    cases hspent

theorem Conflict.closeStatements (h : Conflict id name p q) (base : Nat) (pos : Span) :
    Conflict id name (closeStatements base pos p) (closeStatements base pos q) := by
  have hclose := congrArg (Regions.closeStatements base) h.regions
  rw [Regions.closeStatements_about, Regions.closeStatements_about, Prod.mk.injEq] at hclose
  refine h.thawAll (closeStatements_scopes ..) (closeStatements_scopes ..) ?_ ?_
  · rw [closeStatements_regions, closeStatements_regions, hclose.2]
  · have hfree := h.unborrowed
    rw [← Regions.append_closeStatements base p.regions, Regions.refsTo_append, List.append_eq_nil_iff] at hfree
    rw [closeStatements_regions]
    exact hfree.2

theorem Conflict.closeRegion (h : Conflict id name p q) (pos : Span) :
    Conflict id name (closeRegion pos p) (closeRegion pos q) := by
  have habout := h.regions
  have hfree := h.unborrowed
  cases hp : p.regions with
  | nil =>
    rw [hp] at habout
    have hq : q.regions = [] := List.map_eq_nil_iff.mp habout
    unfold Check.closeRegion
    rw [hp, hq]
    exact h
  | cons r outer =>
    rw [hp] at habout hfree
    obtain ⟨r', outer', hq, hr, houter⟩ := List.map_eq_cons_iff.mp habout
    rw [Regions.refsTo_cons, List.append_eq_nil_iff] at hfree
    rw [closeRegion_eq hp, closeRegion_eq hq]
    exact h.thawAll (release_scopes ..) (release_scopes ..) houter hfree.2

theorem Conflict.leaveBorrow (h : Conflict id name p q) (opened : Bool) (pos : Span) :
    Conflict id name (leaveBorrow opened pos p) (leaveBorrow opened pos q) := by
  cases opened
  · exact h
  · exact h.closeRegion pos

end Kept

include hc

/-- At the end of its scope the value is left behind where it was not consumed. -/
theorem tells_leaveScope (pos : Span) : Tells .continues (leaveScope c .continues pos) := by
  refine ⟨fun s => (grown_leaveScope c .continues pos s).found, fun {id name p q} h => ?_⟩
  obtain ⟨b, hb, hlin, hname, hstate⟩ := h.holds
  obtain ⟨b', hb', hspent⟩ := h.spent
  by_cases hframe : id.frame + 1 = p.scopes.frames.length
  · left
    have hlive : b.isLive = true := by simp [Binding.isLive, hlin, hstate, BindingState.isConsumed]
    have hmem : b.stranded pos ∈ p.scopes.pop.1.exitViolations pos :=
      List.mem_map_of_mem (List.mem_filter.mpr
        ⟨List.mem_reverse.mpr (Scopes.mem_pop.mpr ⟨id, hb, hframe⟩), hlive⟩)
    unfold leaveScope
    rw [if_pos ⟨rfl, hc.halted p⟩]
    exact misuse_reportAll hc hmem (by simp [Binding.stranded, Violation.misuses, hname]) (popScope p)
  · right
    right
    have hinner : id.frame + 1 < p.scopes.frames.length := by
      have hlt := Scopes.get?_lt hb
      omega
    refine ⟨rfl, ⟨?_, ?_, ?_, ?_, ⟨b, ?_, hlin, hname, hstate⟩, b', ?_, hspent⟩⟩
    · rw [leaveScope_scopes, leaveScope_scopes, Scopes.skeleton_pop, Scopes.skeleton_pop, h.skeleton]
    · rw [leaveScope_scopes, leaveScope_scopes, Scopes.barrier_pop, Scopes.barrier_pop, h.barrier]
    · rw [leaveScope_regions, leaveScope_regions, h.regions]
    · rw [leaveScope_regions, h.unborrowed]
    · rw [leaveScope_scopes, Scopes.get?_pop, if_pos hinner, hb]
    · rw [leaveScope_scopes, Scopes.get?_pop, if_pos (h.frames_length ▸ hinner), hb']

/-! ### Actions and brackets -/

theorem tells_act (a : Action) : Tells .continues (act c a) := by
  have hgrows : ∀ s, s.found <+: (act c a s).found := fun s => (grown_act c a s).found
  cases a with
  | consume name pos => exact tells_settle hc (contrary_consume pos) _
  | read name reads pos => exact tells_settle hc (contrary_read _ pos) _
  | overwrite name pos => exact tells_settle hc (contrary_overwrite pos) _
  | borrow kind target ty pos => exact tells_borrowExpr hc kind target ty pos
  | define x ty pos => exact .of_kept hgrows fun h => h.define c x ty pos
  | live => exact .of_still hgrows (fun s => requireLive_scopes ..) (fun s => requireLive_regions ..)
  | outlive => exact .of_still hgrows (fun s => requireOutlives_scopes ..) (fun s => requireOutlives_regions ..)
  | outlast => exact .of_still hgrows (fun s => requireOutlasts_scopes ..) (fun s => requireOutlasts_regions ..)
  | ownRegions => exact .of_still hgrows (fun s => reportEscapes_scopes ..) (fun s => reportEscapes_regions ..)
  | allConsumed => exact .of_still hgrows (fun s => reportAll_scopes ..) (fun s => reportAll_regions ..)
  | forbid => exact .of_still hgrows (fun s => forbidLinear_scopes ..) (fun s => forbidLinear_regions ..)
  | refuse => exact .of_still hgrows (fun s => report_scopes ..) (fun s => report_regions ..)

theorem tells_perform (acts : List Action) : Tells .continues (perform c acts) := by
  induction acts with
  | nil => exact .skip
  | cons a acts ih => exact ((tells_act hc a).seq ih :)

theorem tells_closing (pos : Span) (acts : List Action) : Tells .continues (closing c pos acts) := by
  refine ⟨fun s => (grown_closing c pos acts s).found, fun {id name p q} h => ?_⟩
  unfold closing Misuse
  rw [closeStatements_found, closeStatements_found, h.regions_length]
  rcases (tells_perform hc acts).tells h with hp | hq | ⟨_, h'⟩
  · exact .inl hp
  · exact .inr (.inl hq)
  · exact .inr (.inr ⟨rfl, h'.closeStatements _ pos⟩)

/-- A return leaves the value behind where it was not consumed. -/
theorem tells_ret (ty : Ty) (x : Option String) (pos : Span) :
    Tells .diverges (perform c [.ownRegions ty x pos, .allConsumed pos]) := by
  refine ⟨fun s => (grown_perform c _ s).found, fun {id name p q} h => .inl ?_⟩
  obtain ⟨b, hb, hlin, hname, hstate⟩ := h.holds
  have hlive : b.isLive = true := by simp [Binding.isLive, hlin, hstate, BindingState.isConsumed]
  have hmem : b ∈ (act c (.ownRegions ty x pos) p).scopes.live := by
    rw [show (act c (.ownRegions ty x pos) p).scopes = p.scopes from reportEscapes_scopes ..]
    exact Scopes.mem_live.mpr ⟨id, hb, hlive⟩
  have hstranded : (b.stranded pos).misuses name = true := by
    simp [Binding.stranded, Violation.misuses, hname]
  have hmis := misuse_reportAll hc (List.mem_map_of_mem (f := fun b => b.stranded pos) hmem) hstranded
    (act c (.ownRegions ty x pos) p)
  exact hmis.mono (grown_act c _ p).found List.prefix_rfl

omit hc

/-- The region of a borrow block is opened on both sides, or on neither. -/
theorem Conflict.openBorrow {id : BindingId} {name : String} {p q : State} (h : Conflict id name p q)
    (c : Context) (region : Ident Span) : (openBorrow c region q).1 = (openBorrow c region p).1 ∧
      Conflict id name (openBorrow c region p).2 (openBorrow c region q).2 := by
  unfold Check.openBorrow Regions.enter
  rcases h.get?_region region.name with ⟨hp, hq⟩ | ⟨r, r', hp, hq, _⟩ <;> rw [hp, hq]
  · exact ⟨rfl, h.opened region.name .explicit region.pos⟩
  · exact ⟨rfl, h.of_same (report_scopes ..) (report_regions ..) (report_scopes ..) (report_regions ..)⟩

include hc

theorem tells_lend (kind : RefKind) (source region : Ident Span) : Tells .continues (lend c kind source region) := by
  refine ⟨fun s => ((faithful_lend c kind source region).grown s).found, fun {id name p q} h => ?_⟩
  obtain ⟨hflag, h'⟩ := h.openBorrow c region
  unfold lend
  dsimp only
  rw [hflag]
  split
  · have hp := (grown_openBorrow c region p).found
    have hq := (grown_openBorrow c region q).found
    rcases (tells_borrowNamed hc kind source.name region.name source.pos false).tells h' with hmis | hmis | hkept
    · exact .inl (hmis.mono hp List.prefix_rfl)
    · exact .inr (.inl (hmis.mono hq List.prefix_rfl))
    · exact .inr (.inr hkept)
  · exact .inr (.inr ⟨rfl, h'⟩)

theorem tells_enterBorrow (kind : RefKind) (source name region : Ident Span) :
    Tells .continues fun s => (enterBorrow c kind source name region s).2 := by
  simp only [enterBorrow_state]
  refine ⟨fun s => ((faithful_lend c kind source region).grown s).found, fun {id x p q} h => ?_⟩
  rcases (tells_lend hc kind source region).tells h with hmis | hmis | ⟨_, h'⟩
  · exact .inl hmis
  · exact .inr (.inl hmis)
  · rw [aliasTy_of_skeleton h.skeleton]
    exact .inr (.inr ⟨rfl, h'.pushScope.define c _ _ _⟩)

omit hc

namespace Tells
variable {r : Reach} {F G : State → State}

theorem onward (hF : Tells r F) (hG : Tells .continues G) : Tells r fun s => onward r G (F s) := by
  cases r with
  | continues => exact hF.seq hG
  | diverges => exact hF

/-- The list of reported regions is of no account. -/
theorem secluded (hF : Tells r F) : Tells r (secluded F) := by
  refine ⟨fun s => hF.grows {s with escaped := []}, fun {id name p q} h => ?_⟩
  have h' : Conflict id name {p with escaped := []} {q with escaped := []} := h.of_same rfl rfl rfl rfl
  rcases hF.tells h' with hmis | hmis | ⟨hr, hkept⟩
  · exact .inl hmis
  · exact .inr (.inl hmis)
  · exact .inr (.inr ⟨hr, hkept.of_same rfl rfl rfl rfl⟩)

theorem fenced (hF : Tells r F) : Tells r (fenced true r F) := by
  have hentered : Tells .continues enterLoop := of_kept (fun _ => List.prefix_rfl) fun h => h.enterLoop
  have hbody : Tells r fun s => F (enterLoop s) := hentered.seq hF
  cases r with
  | diverges => exact hbody
  | continues =>
    refine ⟨fun s => hbody.grows s, fun {id name p q} h => ?_⟩
    rcases hbody.tells h with hmis | hmis | ⟨_, hkept⟩
    · exact .inl hmis
    · exact .inr (.inl hmis)
    · exact .inr (.inr ⟨rfl, hkept.exitLoop h.barrier⟩)

end Tells

section Law
include hc

theorem Tells.inScope {r : Reach} {F : State → State} (hF : Tells r F) (pos : Span) :
    Tells r (inScope c r pos F) := by
  have hpushed : Tells .continues pushScope := .of_kept (fun _ => List.prefix_rfl) fun h => h.pushScope
  exact ((hpushed.seq hF).onward (tells_leaveScope hc pos) :)

theorem Tells.lent {r : Reach} {F : State → State} (hF : Tells r F) (pos : Span) (kind : RefKind)
    (source name region : Ident Span) : Tells r (lent c r pos kind source name region F) := by
  have hbody := (tells_enterBorrow hc kind source name region).seq hF
  cases r with
  | diverges => exact hbody
  | continues =>
    have hleft := hbody.seq (tells_leaveScope hc pos)
    refine ⟨fun s => ?_, fun {id x p q} h => ?_⟩
    · exact (hleft.grows s).trans (grown_leaveBorrow ..).found
    · have hflag : (enterBorrow c kind source name region q).1 = (enterBorrow c kind source name region p).1 := by
        rw [enterBorrow_flag, enterBorrow_flag, (h.openBorrow c region).1]
      rcases hleft.tells h with hmis | hmis | ⟨_, hkept⟩
      · exact .inl (hmis.mono List.prefix_rfl (grown_leaveBorrow ..).found)
      · exact .inr (.inl (hmis.mono List.prefix_rfl (grown_leaveBorrow ..).found))
      · refine .inr (.inr ⟨rfl, ?_⟩)
        show Conflict id x (leaveBorrow (enterBorrow c kind source name region p).1 pos _)
          (leaveBorrow (enterBorrow c kind source name region q).1 pos _)
        rw [hflag]
        exact hkept.leaveBorrow _ pos

theorem tells_law : PathLaw c c true true fun r F _ => Tells r F where
  skip := .skip
  seq hF hG := hF.seq hG
  perform _ := tells_perform hc _
  closing pos _ _ := tells_closing hc pos _
  ret := tells_ret hc
  inScope pos hF := hF.inScope hc pos
  lent pos kind source name region hF := hF.lent hc pos kind source name region
  fenced hF := hF.fenced
  secluded hF := hF.secluded

/-- On every path a conflict is kept or leads to a misuse. -/
theorem tells_run {code : Code} {r : Reach} (path : Path code r) : Tells r (path.run c true) :=
  (tells_law hc).run path

end Law

end Check

end Linearity
