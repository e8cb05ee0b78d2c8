import Mathlib
import Linearity.Proofs.Reached

/-! Statement boundaries.

A statement may open regions and scopes, borrow, report and leave early. Where it ends,
the regions are those of its beginning, with the references they had; the barrier, the
regions already reported and the number of scopes are the same; and every binding that was
there is where it was, with all but its state. What is new lies in the innermost scope,
behind the older bindings (`Balanced`). That holds of every statement in every state of a
check (`statements_balanced`), whatever comes of it. So no statement region is open between
two statements, closing them at the end of an evaluation closes all that it opened, and the
region that is closed at the end of a borrow block is the block's own. -/
namespace Linearity

theorem Frame.get?_append_left {new f : Frame} {slot : Nat} (h : slot < f.length) :
    get? slot (new ++ f) = get? slot f := by
  induction new with
  | nil => rfl
  | cons b new ih =>
    have hne : slot ≠ (new ++ f).length := by
      rw [List.length_append]
      omega
    rw [List.cons_append, get?, if_neg hne, ih]

/-- The ids of older bindings stay good when the innermost scope grows. -/
theorem Scopes.getIn_grown (new f : Frame) (outer : List Frame) (id : BindingId) :
    getIn id ((new ++ f) :: outer) = getIn id (f :: outer) ∨ id.frame = outer.length ∧ f.length ≤ id.slot := by
  rw [getIn, getIn]
  by_cases hframe : id.frame = outer.length
  · rw [if_pos hframe, if_pos hframe]
    rcases Nat.lt_or_ge id.slot f.length with hlt | hge
    · exact .inl (Frame.get?_append_left hlt)
    · exact .inr ⟨hframe, hge⟩
  · rw [if_neg hframe, if_neg hframe]
    exact .inl rfl

theorem Binding.eq_of_blank {a b : Binding} (h : a.blank = b.blank) : a = {b with state := a.state} :=
  Binding.ext_blank h rfl

theorem Scopes.length_pop {scopes : Scopes} {f : Frame} {outer : List Frame} (h : scopes.skeleton = f :: outer) :
    scopes.pop.1.length = f.length := by
  unfold Scopes.pop
  unfold Scopes.skeleton at h
  cases hframes : scopes.frames with
  | nil =>
    rw [hframes] at h
    cases h
  | cons g rest =>
    rw [hframes, List.map_cons] at h
    rw [← (List.cons.inj h).1, List.length_map]

namespace Check

/-- What a statement from `s` to `t` leaves as it was. -/
structure Balanced (s t : State) : Prop where
  regions : t.regions = s.regions
  barrier : t.scopes.barrier = s.scopes.barrier
  escaped : t.escaped = s.escaped
  depth : t.scopes.frames.length = s.scopes.frames.length
  /-- A binding keeps its id, its name, its type and all else that is not its state. -/
  old : ∀ {id b}, s.scopes.get? id = some b → ∃ state, t.scopes.get? id = some {b with state}
  /-- A new one lies in the innermost scope, behind those that were there. -/
  new : ∀ {id b}, t.scopes.get? id = some b → s.scopes.get? id = none →
    id.frame + 1 = s.scopes.frames.length ∧ s.scopes.pop.1.length ≤ id.slot

variable {c : Context} {f : FunDef Span} {s t : State}

theorem Kept.balanced {new : Frame} (h : Kept new s t) (hescaped : t.escaped = s.escaped) : Balanced s t := by
  obtain ⟨f, outer, hs, ht⟩ := h.skeleton
  have hdepth : s.scopes.frames.length = outer.length + 1 := by
    rw [← Scopes.length_skeleton, hs, List.length_cons]
  have hgrown := Scopes.getIn_grown new f outer
  rw [← hs, ← ht] at hgrown
  refine ⟨h.regions, h.barrier, hescaped, ?_, fun {id b} hb => ?_, fun {id b} hb hnone => ?_⟩
  · rw [hdepth, ← Scopes.length_skeleton, ht, List.length_cons]
  · have hblank : Scopes.getIn id s.scopes.skeleton = some b.blank := by
      rw [Scopes.get?_skeleton, hb, Option.map_some]
    rcases hgrown id with hsame | ⟨hframe, hslot⟩
    · rw [hblank, Scopes.get?_skeleton] at hsame
      obtain ⟨b', hb', hblank'⟩ := Option.map_eq_some_iff.mp hsame
      exact ⟨b'.state, by rw [hb', ← Binding.eq_of_blank hblank']⟩
    · rw [hs, Scopes.getIn, if_pos hframe] at hblank
      exact absurd (Frame.get?_lt hblank) (Nat.not_lt.mpr hslot)
  · rcases hgrown id with hsame | ⟨hframe, hslot⟩
    · rw [Scopes.get?_skeleton, Scopes.get?_skeleton, hb, hnone] at hsame
      cases hsame
    · rw [Scopes.length_pop hs]
      exact ⟨by omega, hslot⟩

theorem balanced_checkStmt (hs : Ready s) (stmt : Stmt Span) : Balanced s (checkStmt c stmt s).2 := by
  obtain ⟨new, hkept⟩ := kept_apart hs fun u hu => kept_visit c stmt hu
  exact hkept.balanced rfl

/-- The regions that an evaluation opened are those that are closed at its end. -/
theorem Reached.closeStatements {pos : Span} {acts : List Action} (h : Reached c f (.operand pos acts) s) :
    ∃ top, (∀ r ∈ top, r.kind = .statement) ∧ (perform c acts s).regions = top ++ s.regions ∧
      (perform c acts s).regions.closeStatements s.regions.length = (top, s.regions) := by
  have hs := h.ready
  obtain ⟨top, hregions, htop⟩ := (evaluated_perform c hs.settled (.refl hs.coherent) h.plain).grown
  exact ⟨top, htop, hregions, hregions ▸ Regions.closeStatements_append htop⟩

/-- A reference is taken in the region that was opened for it. -/
theorem takeBorrow_regions (kind : RefKind) (source region : Ident Span) {opened : RegionKind} {pos : Span}
    {references : List Reference} {outer : Regions} (hs : s.regions = ⟨region.name, opened, pos, references⟩ :: outer) :
    ∃ references, (takeBorrow c kind source region s).regions = ⟨region.name, opened, pos, references⟩ :: outer := by
  unfold takeBorrow
  split
  · rename_i id b hlookup
    obtain ⟨_, _, _, hsame | ⟨ref, hattach⟩⟩ :=
      borrowBinding_frame c kind region.name source.pos false hlookup
    · exact ⟨references, hsame.trans hs⟩
    · rw [hs] at hattach
      exact ⟨_, hattach.trans (Regions.attach_head ⟨region.name, opened, pos, references⟩ outer ref)⟩
  · exact ⟨references, hs⟩

/-- Inside a borrow block that opened its region, that region is on top. -/
theorem enterBorrow_regions {kind : RefKind} {source name region : Ident Span}
    (hopened : (enterBorrow c kind source name region s).1 = true) :
    ∃ references, (enterBorrow c kind source name region s).2.regions =
      ⟨region.name, .explicit, region.pos, references⟩ :: s.regions := by
  rw [enterBorrow_eq] at hopened ⊢
  rcases openBorrow_cases c region s with ⟨v, hopen⟩ | ⟨_, hopen⟩
  · rw [hopen] at hopened
    cases hopened
  · rw [hopen]
    exact takeBorrow_regions (s := {s with regions := _ :: s.regions}) kind source region rfl

/-- Where a borrow block closes a region, the regions are those that its body found. -/
theorem Reached.closeRegion {pos : Span} {kind : RefKind} {source name region : Ident Span} {body : Block Span}
    (h : Reached c f (.stmt (.borrow pos kind source name region body)) s) :
    let entered := enterBorrow c kind source name region s
    let after := checkBlock c body entered.2
    (leaveScope c after.1 pos after.2).regions = entered.2.regions := by
  obtain ⟨new, hbody⟩ := (Reached.borrow h).kept
  exact (leaveScope_regions ..).trans hbody.regions

/-- In every state of a check, every statement is balanced, and no statement region is open.
An evaluation ends with the regions it began with, and each one that it opened is closed. A
borrow block that opened its region ends by closing that region. -/
theorem statements_balanced (T : TypeTable) (settings : Settings) (f : FunDef Span) :
    let c : Context := ⟨T, .ofParams f.typeParams, settings⟩
    (∀ task s, Reached c f task s → Settled s ∧ ∀ stmt, Balanced s (checkStmt c stmt s).2) ∧
    (∀ pos acts s, Reached c f (.operand pos acts) s →
      ∃ top, (∀ r ∈ top, r.kind = .statement) ∧ (perform c acts s).regions = top ++ s.regions ∧
        (perform c acts s).regions.closeStatements s.regions.length = (top, s.regions)) ∧
    ∀ pos kind source name region body s,
      Reached c f (.stmt (.borrow pos kind source name region body)) s →
      let entered := enterBorrow c kind source name region s
      let after := checkBlock c body entered.2
      let t := leaveScope c after.1 pos after.2
      entered.1 = true → ∃ references : List Reference,
        let r : Region := ⟨region.name, .explicit, region.pos, references⟩
        entered.2.regions = r :: s.regions ∧ t.regions = r :: s.regions ∧
          leaveBorrow entered.1 pos t = release pos {t with regions := s.regions} r := by
  intro c
  refine ⟨fun task s h => ⟨h.ready.settled, balanced_checkStmt h.ready⟩, fun pos acts s h => h.closeStatements, ?_⟩
  intro pos kind source name region body s h entered after t hopened
  obtain ⟨references, hentered⟩ := enterBorrow_regions hopened
  have ht : t.regions = ⟨region.name, .explicit, region.pos, references⟩ :: s.regions :=
    h.closeRegion.trans hentered
  refine ⟨references, hentered, ht, ?_⟩
  rw [leaveBorrow, if_pos hopened, closeRegion_eq ht]

/-- A call that borrows its argument for as long as it runs. -/
def glance : Expr Span :=
  ⟨⟨4, 1⟩, .int, .call ⟨⟨4, 1⟩, "look"⟩ [⟨⟨5, 1⟩, .ref .read "S" (.param "A"), .borrow .read ⟨⟨5, 1⟩, "x"⟩⟩]⟩

/-- A function that glances at its parameter `x` and then borrows it in a block. -/
def visitor : FunDef Span where
  pos := ⟨0, 11⟩
  name := ⟨⟨0, 1⟩, "visit"⟩
  typeParams := [⟨⟨1, 1⟩, ⟨⟨1, 1⟩, "A"⟩, .linear⟩]
  params := [⟨⟨2, 1⟩, ⟨⟨2, 1⟩, "x"⟩, .param "A"⟩]
  ret := .unit
  body := ⟨⟨3, 8⟩, [.bind ⟨4, 1⟩ ⟨⟨4, 1⟩, "n"⟩ .int glance,
    .borrow ⟨6, 4⟩ .read ⟨⟨6, 1⟩, "x"⟩ ⟨⟨7, 1⟩, "r"⟩ ⟨⟨8, 1⟩, "R"⟩ ⟨⟨9, 1⟩, []⟩]⟩

def visitorContext : Context := ⟨⟨[]⟩, .ofParams visitor.typeParams, {}⟩

/-- Where its body begins. -/
def visitorEntry : State := pushScope (entryState visitorContext visitor)

/-- Where its second statement begins. -/
def visitorNext : State := (checkStmt visitorContext (.bind ⟨4, 1⟩ ⟨⟨4, 1⟩, "n"⟩ .int glance) visitorEntry).2

/-- The glance opens and closes the region `S` and leaves one new binding, `n`; the block
opens and closes the region `R`. -/
theorem statements_balanced_visitor :
    let glanced := perform visitorContext (actions glance) {visitorEntry with escaped := []}
    let inside := (enterBorrow visitorContext .read ⟨⟨6, 1⟩, "x"⟩ ⟨⟨7, 1⟩, "r"⟩ ⟨⟨8, 1⟩, "R"⟩
      {visitorNext with escaped := []}).2
    let after := checkBlock visitorContext ⟨⟨9, 1⟩, []⟩ inside
    Balanced visitorEntry visitorNext ∧ (visitorNext.scopes.lookup "n").map Prod.fst = some ⟨1, 0⟩ ∧
    glanced.regions.map Region.name = ["S"] ∧
    (glanced.regions.closeStatements visitorEntry.regions.length).2 = visitorEntry.regions ∧
    ∃ references : List Reference, (leaveScope visitorContext after.1 ⟨6, 4⟩ after.2).regions =
      ⟨"R", .explicit, ⟨8, 1⟩, references⟩ :: visitorNext.regions := by
  have hbody : Reached visitorContext visitor (.stmts visitor.body.stmts) visitorEntry := .inside .body
  have hfirst := Reached.first hbody (by cbv)
  have hnext := Reached.first (Reached.next hbody (by cbv) (by cbv)) (by cbv)
  obtain ⟨hstmt, hoperand, hborrow⟩ := statements_balanced ⟨[]⟩ {} visitor
  refine ⟨(hstmt _ _ hbody).2 _, by cbv, by cbv, ?_, ?_⟩
  · obtain ⟨top, _, _, hclose⟩ := hoperand _ _ _ (.bound hfirst)
    exact congrArg Prod.snd hclose
  · obtain ⟨references, _, hregions, _⟩ := hborrow _ _ _ _ _ _ _ hnext (by cbv)
    exact ⟨references, hregions⟩

end Check

end Linearity
