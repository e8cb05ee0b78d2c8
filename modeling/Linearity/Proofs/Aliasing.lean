import Mathlib
import Linearity.Proofs.Moments

/-! Many readers or one writer.

At every moment of a check, whatever has been reported, the references to a binding all
read, or there is just one and it writes; and a borrow block does not share a linear
binding with anyone (`readers_or_writer`). A new borrow is admitted by a look at one
earlier reference only. That one speaks for all of them: it may be shared if and only if
each of the others may (`Coherent.mayShare_iff`). -/
namespace Linearity

/-- The reference that a borrow is compared with is representative. -/
theorem Coherent.mayShare_iff {scopes : Scopes} {regions : Regions} (h : Coherent scopes regions)
    {id : BindingId} {b : Binding} (hb : scopes.get? id = some b) {holder : Region} {prior : Reference}
    (hprior : regions.referenceTo id = some (holder, prior)) (kind : RefKind) (shareable : Bool) :
    Check.mayShare kind b.isLinear shareable holder prior = true ↔
      ∀ r ∈ regions, ∀ ref ∈ r.references, ref.binding = id →
        Check.mayShare kind b.isLinear shareable r ref = true := by
  obtain ⟨hholder, hmem, hid⟩ := Regions.referenceTo_mem hprior
  constructor
  · intro hshare r hr ref href hbind
    obtain ⟨hkind, hread, hlin⟩ := Check.mayShare_eq_true hshare
    have hread' : ref.kind = .read := by
      have href' := Regions.mem_refsTo_of_mem hr href hbind
      rcases h.shared id with hall | ⟨only, hone⟩
      · exact hall ref href'
      · -- There is one reference only, and `prior` is it.
        have hprior' := Regions.mem_refsTo_of_mem hholder hmem hid
        rw [hone, List.mem_singleton] at href' hprior'
        rw [href', ← hprior', hread]
    have hstatement : b.isLinear = true → r.kind = .statement := by
      intro hlinear
      by_contra hkind'
      -- A borrow block's region would hold the only reference, but `prior` is another.
      have hne : holder ≠ r := fun heq => hkind' (heq ▸ (hlin hlinear).2)
      exact Regions.refsTo_ne_singleton hholder hr hne hmem hid href hbind ref
        ((h.accounted hb).exclusive hlinear r hr hkind' ref href hbind)
    cases hlinear : b.isLinear with
    | true => simp [Check.mayShare, hkind, hread', (hlin hlinear).1, hstatement hlinear]
    | false => simp [Check.mayShare, hkind, hread']
  · intro hall
    exact hall holder hholder prior hmem hid

theorem Coherent.reads_or_write {scopes : Scopes} {regions : Regions} (h : Coherent scopes regions)
    (id : BindingId) : (∀ ref ∈ regions.refsTo id, ref.kind = .read) ∨
      ∃ ref, regions.refsTo id = [ref] ∧ ref.kind = .write := by
  rcases h.shared id with hall | ⟨ref, hone⟩
  · exact .inl hall
  · cases hkind : ref.kind with
    | write => exact .inr ⟨ref, hone, hkind⟩
    | read =>
      refine .inl fun ref' href' => ?_
      rw [hone, List.mem_singleton] at href'
      rw [href', hkind]

namespace Check

/-- At every moment of a check the references to a binding are reads, or one write. What
a borrow block holds of a linear binding is not shared. And of the references to a
binding, the one that a borrow is compared with admits it exactly if all of them do. -/
theorem readers_or_writer {c : Context} {f : FunDef Span} {s : State} (h : Moment c f s) (id : BindingId) :
    ((∀ ref ∈ s.regions.refsTo id, ref.kind = .read) ∨
      ∃ ref, s.regions.refsTo id = [ref] ∧ ref.kind = .write) ∧
    ∀ b, s.scopes.get? id = some b →
      (b.isLinear = true → ∀ r ∈ s.regions, r.kind = .explicit → ∀ ref ∈ r.references, ref.binding = id →
        s.regions.refsTo id = [ref]) ∧
      ∀ holder prior, s.regions.referenceTo id = some (holder, prior) → ∀ kind shareable,
        (mayShare kind b.isLinear shareable holder prior = true ↔
          ∀ r ∈ s.regions, ∀ ref ∈ r.references, ref.binding = id →
            mayShare kind b.isLinear shareable r ref = true) := by
  have hcoh := h.coherent
  refine ⟨hcoh.reads_or_write id, fun b hb => ⟨fun hlin r hr hkind ref href hbind => ?_, ?_⟩⟩
  · exact (hcoh.accounted hb).exclusive hlin r hr (by rw [hkind]; decide) ref href hbind
  · exact fun holder prior hprior kind shareable => hcoh.mayShare_iff hb hprior kind shareable

/-- A borrow of `x` inside an expression, in a region of its own. -/
def borrowOf (region : String) (pos : Span) : Expr Span :=
  ⟨pos, .ref .read region (.param "A"), .borrow .read ⟨pos, "x"⟩⟩

/-- A call that borrows `x` twice. -/
def bothOf : Expr Span :=
  ⟨⟨4, 1⟩, .unit, .call ⟨⟨4, 1⟩, "both"⟩ [borrowOf "R" ⟨5, 1⟩, borrowOf "S" ⟨6, 1⟩]⟩

/-- A function that reads its linear parameter `x` twice in one statement. -/
def sharer : FunDef Span where
  pos := ⟨9, 1⟩
  name := ⟨⟨0, 1⟩, "sharer"⟩
  typeParams := [⟨⟨1, 1⟩, ⟨⟨1, 1⟩, "A"⟩, .linear⟩]
  params := [⟨⟨2, 1⟩, ⟨⟨2, 1⟩, "x"⟩, .param "A"⟩]
  ret := .param "A"
  body := ⟨⟨8, 1⟩, [.discard ⟨3, 1⟩ bothOf, .ret ⟨7, 1⟩ ⟨⟨7, 2⟩, .param "A", .var "x"⟩]⟩

def sharerContext : Context := ⟨⟨[]⟩, .ofParams sharer.typeParams, {}⟩

/-- Where both its borrows are taken. -/
def sharing : State := eval sharerContext bothOf {pushScope (entryState sharerContext sharer) with escaped := []}

/-- There are two references to `x` then, so neither writes. -/
theorem readers_or_writer_sharer : Moment sharerContext sharer sharing ∧
    (sharing.regions.refsTo ⟨0, 0⟩).length = 2 ∧ ∀ ref ∈ sharing.regions.refsTo ⟨0, 0⟩, ref.kind = .read := by
  have hmoment : Moment sharerContext sharer sharing := by
    rw [sharing, eval_eq]
    exact .visited (.between (.discarded (.first (.inside .body) (by cbv))))
  have htwo : (sharing.regions.refsTo ⟨0, 0⟩).length = 2 := by cbv
  refine ⟨hmoment, htwo, (readers_or_writer hmoment ⟨0, 0⟩).1.resolve_right ?_⟩
  rintro ⟨ref, hone, _⟩
  rw [hone] at htwo
  cases htwo

end Check

end Linearity
