import Mathlib
import Linearity.Proofs.Reached

/-! Every freeze has its borrow.

`freeze_accounting`: wherever the check of a function is, a linear binding is frozen
exactly if one of the open regions' references froze it, with that reference's kind
and place; a linear binding that is not frozen is not referred to; and a free binding
is never frozen. So when regions are closed, the bindings they froze thaw, and no
others change. -/
namespace Linearity

/-- What becomes of the bindings when the regions on top are closed. -/
theorem Coherent.get?_thawAll {scopes : Scopes} {closed base : Regions} {id : BindingId} {b : Binding}
    (h : Coherent scopes (closed ++ base)) (hb : scopes.get? id = some b) :
    (id ∈ closed.flatMap Region.frozen → (∃ kind pos, b.state = .frozen kind pos) ∧
      (scopes.thawAll (closed.flatMap Region.frozen)).get? id = some {b with state := .unconsumed}) ∧
    (id ∉ closed.flatMap Region.frozen →
      (scopes.thawAll (closed.flatMap Region.frozen)).get? id = some b) := by
  constructor
  · intro hid
    obtain ⟨r, hr, hfrozen⟩ := List.mem_flatMap.mp hid
    obtain ⟨ref, href, hfroze, hbind⟩ := Region.mem_frozen.mp hfrozen
    have hstate := ((h.accounted hb).state_of_froze
      (Regions.mem_refsTo_of_mem (List.mem_append_left _ hr) href hbind) hfroze).2
    refine ⟨⟨_, _, hstate⟩, ?_⟩
    rw [Scopes.get?_thawAll, if_pos hid, hb]
    simp only [Option.map_some, Binding.thawed, hstate]
  · intro hid
    rw [Scopes.get?_thawAll, if_neg hid, hb]

namespace Check

/-- The check of `f` closes the regions `closed`, and that takes it from one state to
another. -/
inductive Closes (c : Context) (f : FunDef Span) : List Region → State → State → Prop where
  /-- An evaluation is over. -/
  | operand {pos : Span} {acts : List Action} {s : State} : Reached c f (.operand pos acts) s →
    Closes c f ((perform c acts s).regions.closeStatements s.regions.length).1 (perform c acts s)
      (closing c pos acts s)
  /-- A borrow block that opened its region is over. -/
  | borrow {pos : Span} {kind : RefKind} {source name region : Ident Span} {body : Block Span} {s t : State}
    {r : Region} {outer : Regions} : Reached c f (.stmt (.borrow pos kind source name region body)) s →
    (enterBorrow c kind source name region s).1 = true →
    (let after := checkBlock c body (enterBorrow c kind source name region s).2
     t = leaveScope c after.1 pos after.2) →
    t.regions = r :: outer → Closes c f [r] t (closeRegion pos t)

variable {c : Context} {f : FunDef Span} {closed : List Region} {s t : State}

/-- The regions that are closed were on top, and what they froze is what thaws. -/
theorem Closes.frame (h : Closes c f closed s t) :
    s.regions = closed ++ t.regions ∧ t.scopes = s.scopes.thawAll (closed.flatMap Region.frozen) ∧
      Coherent s.scopes s.regions := by
  cases h with
  | @operand pos acts s h =>
    have hs := h.ready
    have heval := evaluated_perform c hs.settled (Evaluated.refl hs.coherent) h.plain
    obtain ⟨top, hregions, htop⟩ := heval.grown
    refine ⟨?_, closeStatements_scopes .., heval.coherent⟩
    rw [closing, closeStatements_regions, hregions, Regions.closeStatements_append htop]
  | @borrow pos kind source name region body s t r outer h hopened ht hregions =>
    obtain ⟨u, hu, hentered, hcases⟩ := enterBorrow_cases c h.ready kind source name region
    have hbody : ∀ v, Ready v → ∃ new, Kept new v (checkBlock c body v).2 :=
      fun _ hv => ⟨[], kept_checkBlock c body hv⟩
    have hkept := kept_alias c hu name (aliasTy kind source region s.scopes) pos hbody
    dsimp only at hkept ht
    rw [← hentered, ← ht] at hkept
    rw [closeRegion_eq hregions, release_scopes, List.flatMap_singleton]
    exact ⟨hregions, rfl, hkept.coherent⟩

/-- In every state of a check, freezes and borrows account for each other, and closing
regions thaws what they froze. -/
theorem freeze_accounting (T : TypeTable) (settings : Settings) (f : FunDef Span) :
    let c : Context := ⟨T, .ofParams f.typeParams, settings⟩
    (∀ s, Visited c f s → ∀ id b, s.scopes.get? id = some b →
      (b.isLinear = true →
        (∀ kind pos, b.state = .frozen kind pos ↔
          (s.regions.refsTo id).filter Reference.froze = [⟨kind, id, pos, true⟩]) ∧
        ((b.state = .unconsumed ∨ b.state.isConsumed = true) → s.regions.refsTo id = [])) ∧
      (b.isLinear = false →
        b.state = .unconsumed ∧ ∀ ref ∈ s.regions.refsTo id, ref.froze = false)) ∧
    (∀ closed s t, Closes c f closed s t → s.regions = closed ++ t.regions ∧
      ∀ id b, s.scopes.get? id = some b →
        (id ∈ closed.flatMap Region.frozen → (∃ kind pos, b.state = .frozen kind pos) ∧
          t.scopes.get? id = some {b with state := .unconsumed}) ∧
        (id ∉ closed.flatMap Region.frozen → t.scopes.get? id = some b)) := by
  intro c
  refine ⟨fun s hs id b hb => ⟨fun hlin => ⟨fun kind pos => ⟨?_, ?_⟩, ?_⟩, ?_⟩, fun closed s t hclose => ?_⟩
  · exact (hs.coherent.accounted hb).frozen hlin
  · intro hone
    have hmem : (⟨kind, id, pos, true⟩ : Reference) ∈ (s.regions.refsTo id).filter Reference.froze := by
      rw [hone]
      exact List.mem_singleton_self _
    exact ((hs.coherent.accounted hb).state_of_froze (List.mem_filter.mp hmem).1 rfl).2
  · intro hstate
    refine (hs.coherent.accounted hb).idle hlin fun kind pos hfrozen => ?_
    rw [hfrozen] at hstate
    rcases hstate with h | h <;> cases h
  · exact (hs.coherent.accounted hb).free
  · obtain ⟨hregions, hscopes, hcoh⟩ := hclose.frame
    rw [hregions] at hcoh
    refine ⟨hregions, fun id b hb => ?_⟩
    rw [hscopes]
    exact hcoh.get?_thawAll hb

/-- A function that borrows its linear parameter `x` in a block. -/
def lender : FunDef Span where
  pos := ⟨9, 1⟩
  name := ⟨⟨0, 1⟩, "lend"⟩
  typeParams := [⟨⟨1, 1⟩, ⟨⟨1, 1⟩, "A"⟩, .linear⟩]
  params := [⟨⟨2, 1⟩, ⟨⟨2, 1⟩, "x"⟩, .param "A"⟩]
  ret := .param "A"
  body := ⟨⟨8, 1⟩, [.borrow ⟨7, 1⟩ .read ⟨⟨3, 1⟩, "x"⟩ ⟨⟨4, 1⟩, "r"⟩ ⟨⟨5, 1⟩, "R"⟩ ⟨⟨6, 1⟩, []⟩]⟩

/-- Inside its borrow block the parameter is frozen, by the one reference to it. -/
theorem freeze_accounting_lender :
    let c : Context := ⟨⟨[]⟩, .ofParams lender.typeParams, {}⟩
    let s := (enterBorrow c .read ⟨⟨3, 1⟩, "x"⟩ ⟨⟨4, 1⟩, "r"⟩ ⟨⟨5, 1⟩, "R"⟩
      (pushScope (entryState c lender))).2
    Visited c lender s ∧ ∃ b, s.scopes.get? ⟨0, 0⟩ = some b ∧ b.isLinear = true ∧
      b.state = .frozen .read ⟨3, 1⟩ ∧
      (s.regions.refsTo ⟨0, 0⟩).filter Reference.froze = [⟨.read, ⟨0, 0⟩, ⟨3, 1⟩, true⟩] := by
  intro c s
  have hstart : Reached c lender (.stmts lender.body.stmts) (pushScope (entryState c lender)) := .inside .body
  have hvisited : Visited c lender s := .start (.borrow (.first hstart (by cbv)))
  have hx : (s.scopes.get? ⟨0, 0⟩).map (fun b => (b.isLinear, b.state)) =
      some (true, .frozen .read ⟨3, 1⟩) := by cbv
  obtain ⟨b, hb, hfacts⟩ := Option.map_eq_some_iff.mp hx
  obtain ⟨hlin, hstate⟩ := Prod.mk.inj hfacts
  exact ⟨hvisited, b, hb, hlin, hstate,
    (((freeze_accounting ⟨[]⟩ {} lender).1 s hvisited ⟨0, 0⟩ b hb).1 hlin).1 _ _ |>.mp hstate⟩

end Check

end Linearity
