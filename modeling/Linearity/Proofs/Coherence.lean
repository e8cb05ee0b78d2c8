import Linearity.Proofs.Steps

/-! Scopes and regions tell one story about borrows.

`Accounted` is what the open regions hold about one binding. A frozen binding is
frozen by exactly one of their references; a linear binding that is not frozen has
none; one that a borrow block refers to has no other; and no region refers to a
binding defined further inside. `Coherent` says so of all bindings in scope. Every
change that a check makes to scopes and regions keeps it. -/
namespace Linearity

structure Accounted (regions : Regions) (id : BindingId) (b : Binding) : Prop where
  frozen : ∀ {kind pos}, b.isLinear = true → b.state = .frozen kind pos →
    (regions.refsTo id).filter Reference.froze = [⟨kind, id, pos, true⟩]
  idle : b.isLinear = true → (∀ kind pos, b.state ≠ .frozen kind pos) → regions.refsTo id = []
  free : b.isLinear = false → b.state = .unconsumed ∧ ∀ ref ∈ regions.refsTo id, ref.froze = false
  exclusive : b.isLinear = true → ∀ r ∈ regions, r.kind ≠ .statement →
    ∀ ref ∈ r.references, ref.binding = id → regions.refsTo id = [ref]
  deep : b.regionDepth ≤ regions.length
  sheltered : ∀ {inner r outer}, regions = inner ++ r :: outer → r.kind ≠ .statement →
    ∀ ref ∈ r.references, ref.binding = id → b.regionDepth ≤ outer.length

structure Coherent (scopes : Scopes) (regions : Regions) : Prop where
  /-- A reference leads to a binding in scope. -/
  valid : ∀ ref ∈ regions.refs, ∃ b, scopes.get? ref.binding = some b
  accounted : ∀ {id b}, scopes.get? id = some b → Accounted regions id b
  /-- All references to a binding read, or there is only one. -/
  shared : ∀ id, (∀ ref ∈ regions.refsTo id, ref.kind = .read) ∨ ∃ ref, regions.refsTo id = [ref]

namespace Accounted
variable {regions : Regions} {id : BindingId} {b : Binding}

/-- A binding that some reference froze is linear and frozen by it. -/
theorem state_of_froze (h : Accounted regions id b) {ref : Reference} (href : ref ∈ regions.refsTo id)
    (hfroze : ref.froze = true) : b.isLinear = true ∧ b.state = .frozen ref.kind ref.pos := by
  have hlin : b.isLinear = true := by
    cases hlin : b.isLinear
    · have := (h.free hlin).2 ref href
      rw [hfroze] at this
      cases this
    · rfl
  refine ⟨hlin, ?_⟩
  cases hstate : b.state with
  | frozen kind pos =>
    have hmem : ref ∈ (regions.refsTo id).filter Reference.froze := List.mem_filter.mpr ⟨href, hfroze⟩
    rw [h.frozen hlin hstate, List.mem_singleton] at hmem
    rw [hmem]
  | unconsumed =>
    rw [h.idle hlin (by simp [hstate])] at href
    cases href
  | consumed pos =>
    rw [h.idle hlin (by simp [hstate])] at href
    cases href

theorem isLinear_of_consumed (h : Accounted regions id b) {pos : Span} (hstate : b.state = .consumed pos) :
    b.isLinear = true := by
  cases hl : b.isLinear with
  | true => rfl
  | false =>
    have hidle := (h.free hl).1
    rw [hstate] at hidle
    cases hidle

/-- A move of a linear binding between states that are not frozen. -/
theorem setState (h : Accounted regions id b) (hlin : b.isLinear = true)
    (hold : ∀ kind pos, b.state ≠ .frozen kind pos) {state : BindingState}
    (hnew : ∀ kind pos, state ≠ .frozen kind pos) : Accounted regions id {b with state} where
  frozen _ hstate := absurd hstate (hnew _ _)
  idle _ _ := h.idle hlin hold
  free hfree := absurd (hlin.symm.trans hfree) (by decide)
  exclusive := h.exclusive
  deep := h.deep
  sheltered := h.sheltered

/-- A reference to another binding changes nothing. -/
theorem attach_ne (h : Accounted regions id b) {name : String} {r : Region} {ref : Reference}
    (hget : regions.get? name = some r) (hne : ref.binding ≠ id) :
    Accounted (regions.attach name ref) id b := by
  have hrefs := Regions.refsTo_attach_ne name ref hne regions
  refine ⟨?_, ?_, ?_, ?_, ?_, ?_⟩
  · rw [hrefs]
    exact h.frozen
  · rw [hrefs]
    exact h.idle
  · rw [hrefs]
    exact h.free
  · intro hlin q hq hkind ref' href' hbind
    obtain ⟨inner, outer, hsplit⟩ := List.append_of_mem hq
    obtain ⟨inner', q', outer', hsplit', _, hkind', hmem⟩ := Regions.split_attach_ne hget hsplit href'
      (fun heq => hne (heq ▸ hbind))
    rw [hrefs]
    exact h.exclusive hlin q' (by rw [hsplit']; simp) (hkind' ▸ hkind) ref' hmem hbind
  · rw [Regions.length_attach]
    exact h.deep
  · intro inner q outer hsplit hkind ref' href' hbind
    obtain ⟨inner', q', outer', hsplit', hlen, hkind', hmem⟩ := Regions.split_attach_ne hget hsplit href'
      (fun heq => hne (heq ▸ hbind))
    rw [← hlen]
    exact h.sheltered hsplit' (hkind' ▸ hkind) ref' hmem hbind

/-- The position of the region that a reference goes to bounds the binding's depth. -/
theorem sheltered_attach (h : Accounted regions id b) {name : String} {r : Region} {ref : Reference}
    (hget : regions.get? name = some r)
    (hdepth : r.kind ≠ .statement → ∀ inner outer, regions = inner ++ r :: outer →
      b.regionDepth ≤ outer.length) {inner outer : Regions} {q : Region}
    (hsplit : regions.attach name ref = inner ++ q :: outer) (hkind : q.kind ≠ .statement)
    {ref' : Reference} (href : ref' ∈ q.references) (hbind : ref'.binding = id) :
    b.regionDepth ≤ outer.length := by
  rcases Regions.split_attach hget hsplit with
    ⟨inner', outer', hsplit', hlen⟩ | ⟨inner', outer', hsplit', hlen, rfl⟩
  · rw [← hlen]
    exact h.sheltered hsplit' hkind ref' href hbind
  · rw [← hlen]
    exact hdepth hkind inner' outer' hsplit'

/-- The first reference to a linear binding freezes it. -/
theorem freeze (h : Accounted regions id b) (hlin : b.isLinear = true) {name : String} {r : Region}
    (hget : regions.get? name = some r) (hnone : regions.refsTo id = []) (kind : RefKind) (pos : Span)
    (hdepth : r.kind ≠ .statement → ∀ inner outer, regions = inner ++ r :: outer →
      b.regionDepth ≤ outer.length) :
    Accounted (regions.attach name ⟨kind, id, pos, true⟩) id {b with state := .frozen kind pos} := by
  have hrefs : (regions.attach name ⟨kind, id, pos, true⟩).refsTo id = [⟨kind, id, pos, true⟩] := by
    obtain ⟨before, after, hbefore, hafter⟩ := Regions.refsTo_attach ⟨kind, id, pos, true⟩ hget
    rw [hnone] at hbefore
    obtain ⟨rfl, rfl⟩ := List.append_eq_nil_iff.mp hbefore.symm
    exact hafter
  refine ⟨?_, ?_, ?_, ?_, ?_, ?_⟩
  · intro kind' pos' _ hstate
    cases hstate
    rw [hrefs]
    rfl
  · intro _ hstate
    exact absurd rfl (hstate kind pos)
  · intro hfree
    exact absurd (hlin.symm.trans hfree) (by decide)
  · intro _ q hq _ ref href hbind
    have hmem : ref ∈ (regions.attach name ⟨kind, id, pos, true⟩).refsTo id :=
      Regions.mem_refsTo.mpr ⟨Regions.mem_refs.mpr ⟨q, hq, href⟩, hbind⟩
    rw [hrefs, List.mem_singleton] at hmem
    rw [hrefs, hmem]
  · rw [Regions.length_attach]
    exact h.deep
  · intro inner q outer hsplit hkind ref href hbind
    exact h.sheltered_attach hget hdepth hsplit hkind href hbind

/-- A reference that freezes nothing: the binding is free, or it is borrowed already
within the same statement. -/
theorem share (h : Accounted regions id b) {name : String} {r : Region}
    (hget : regions.get? name = some r) (kind : RefKind) (pos : Span)
    (hlin : b.isLinear = true → r.kind = .statement ∧ ∃ holder ∈ regions, holder.kind = .statement ∧
      ∃ prior ∈ holder.references, prior.binding = id)
    (hdepth : r.kind ≠ .statement → ∀ inner outer, regions = inner ++ r :: outer →
      b.regionDepth ≤ outer.length) :
    Accounted (regions.attach name ⟨kind, id, pos, false⟩) id b := by
  obtain ⟨before, after, hbefore, hafter⟩ := Regions.refsTo_attach ⟨kind, id, pos, false⟩ hget
  change regions.refsTo id = _ at hbefore
  change (regions.attach name _).refsTo id = _ at hafter
  refine ⟨?_, ?_, ?_, ?_, ?_, ?_⟩
  · intro kind' pos' hlin' hstate
    have := h.frozen hlin' hstate
    rw [hbefore] at this
    rw [hafter]
    simpa using this
  · intro hlin' hstate
    obtain ⟨_, holder, hholder, _, prior, hprior, hbind⟩ := hlin hlin'
    have := Regions.mem_refsTo_of_mem hholder hprior hbind
    rw [h.idle hlin' hstate] at this
    cases this
  · intro hfree
    refine ⟨(h.free hfree).1, fun ref href => ?_⟩
    rw [hafter, List.mem_append, List.mem_cons] at href
    rcases href with href | rfl | href
    · exact (h.free hfree).2 ref (by rw [hbefore]; exact List.mem_append_left _ href)
    · rfl
    · exact (h.free hfree).2 ref (by rw [hbefore]; exact List.mem_append_right _ href)
  · intro hlin' q hq hkind ref href hbind
    obtain ⟨hr, holder, hholder, hkind', prior, hprior, hbind'⟩ := hlin hlin'
    obtain ⟨inner, outer, hsplit⟩ := List.append_of_mem hq
    rcases Regions.split_attach hget hsplit with
      ⟨inner', outer', hsplit', _⟩ | ⟨inner', outer', hsplit', _, rfl⟩
    · -- Another region would already have held a second reference.
      have hmem : q ∈ regions := by
        rw [hsplit']
        simp
      have hne : holder ≠ q := fun heq => hkind (heq ▸ hkind')
      exact absurd (h.exclusive hlin' q hmem hkind ref href hbind)
        (Regions.refsTo_ne_singleton hholder hmem hne hprior hbind' href hbind ref)
    · exact absurd hr hkind
  · rw [Regions.length_attach]
    exact h.deep
  · intro inner q outer hsplit hkind ref href hbind
    exact h.sheltered_attach hget hdepth hsplit hkind href hbind

/-- Closing the inner regions ends the freeze, if it was one of theirs. -/
theorem close {top base : Regions} (h : Accounted (top ++ base) id b)
    (hexcl : id ∈ top.flatMap Region.frozen → base.refsTo id = [])
    (hdeep : b.regionDepth ≤ base.length) :
    Accounted base id (if id ∈ top.flatMap Region.frozen then b.thawed else b) := by
  by_cases hid : id ∈ top.flatMap Region.frozen
  · obtain ⟨r, hr, hfrozen⟩ := List.mem_flatMap.mp hid
    obtain ⟨ref, href, hfroze, hbind⟩ := Region.mem_frozen.mp hfrozen
    obtain ⟨hlin, hstate⟩ := h.state_of_froze
      (Regions.mem_refsTo_of_mem (List.mem_append_left _ hr) href hbind) hfroze
    have hthawed : b.thawed = {b with state := .unconsumed} := by
      simp only [Binding.thawed, hstate]
    have hnone := hexcl hid
    rw [if_pos hid, hthawed]
    refine ⟨fun _ h => (nomatch h), fun _ _ => hnone, fun hfree => ?_, fun _ q hq _ ref' href' hbind' => ?_,
      hdeep, fun {inner q outer} hsplit _ ref' href' hbind' => ?_⟩
    · exact absurd (hlin.symm.trans hfree) (by decide)
    · have := Regions.mem_refsTo_of_mem hq href' hbind'
      rw [hnone] at this
      cases this
    · have hq : q ∈ base := by
        rw [hsplit]
        simp
      have := Regions.mem_refsTo_of_mem hq href' hbind'
      rw [hnone] at this
      cases this
  · have htop : ((Regions.refsTo top id).filter Reference.froze) = [] := by
      rw [List.filter_eq_nil_iff]
      intro ref href hfroze
      obtain ⟨hmem, hbind⟩ := Regions.mem_refsTo.mp href
      obtain ⟨r, hr, href⟩ := Regions.mem_refs.mp hmem
      exact hid (List.mem_flatMap.mpr ⟨r, hr, Region.mem_frozen.mpr ⟨ref, href, hfroze, hbind⟩⟩)
    rw [if_neg hid]
    refine ⟨fun hlin hstate => ?_, fun hlin hstate => ?_, fun hfree => ?_, fun hlin q hq hkind ref href hbind => ?_,
      hdeep, fun {inner q outer} hsplit hkind ref href hbind => ?_⟩
    · have := h.frozen hlin hstate
      rwa [Regions.refsTo_append, List.filter_append, htop, List.nil_append] at this
    · have := h.idle hlin hstate
      rw [Regions.refsTo_append] at this
      exact (List.append_eq_nil_iff.mp this).2
    · refine ⟨(h.free hfree).1, fun ref href => (h.free hfree).2 ref ?_⟩
      rw [Regions.refsTo_append]
      exact List.mem_append_right _ href
    · have honly := h.exclusive hlin q (List.mem_append_right _ hq) hkind ref href hbind
      have hmem := Regions.mem_refsTo_of_mem hq href hbind
      rw [Regions.refsTo_append] at honly
      rcases List.append_eq_singleton_iff.mp honly with ⟨_, hbase⟩ | ⟨_, hbase⟩
      · exact hbase
      · rw [hbase] at hmem
        cases hmem
    · have hsplit' : top ++ base = (top ++ inner) ++ q :: outer := by
        rw [hsplit, List.append_assoc]
      exact h.sheltered hsplit' hkind ref href hbind

end Accounted

namespace Coherent
variable {scopes : Scopes} {regions : Regions} {id : BindingId} {b : Binding}

/-- A binding that is not in scope is not referred to. -/
theorem refsTo_of_none (h : Coherent scopes regions) (hb : scopes.get? id = none) :
    regions.refsTo id = [] := by
  rw [List.eq_nil_iff_forall_not_mem]
  intro ref href
  obtain ⟨hmem, rfl⟩ := Regions.mem_refsTo.mp href
  obtain ⟨b, hb'⟩ := h.valid ref hmem
  rw [hb] at hb'
  cases hb'

/-! ### Moves and borrows -/

theorem setState (h : Coherent scopes regions) (hb : scopes.get? id = some b) (hlin : b.isLinear = true)
    (hold : ∀ kind pos, b.state ≠ .frozen kind pos) {state : BindingState}
    (hnew : ∀ kind pos, state ≠ .frozen kind pos) : Coherent (scopes.setState id state) regions := by
  refine ⟨fun ref href => ?_, fun {j b'} hj => ?_, h.shared⟩
  · obtain ⟨b', hb'⟩ := h.valid ref href
    exact Scopes.get?_setState_isSome hb'
  · rcases Scopes.get?_setState_cases hb hj with ⟨_, hj⟩ | ⟨rfl, rfl⟩
    · exact h.accounted hj
    · exact (h.accounted hb).setState hlin hold hnew

theorem freeze (h : Coherent scopes regions) (hb : scopes.get? id = some b) (hlin : b.isLinear = true)
    {name : String} {r : Region} (hget : regions.get? name = some r) (hnone : regions.refsTo id = [])
    (kind : RefKind) (pos : Span)
    (hdepth : r.kind ≠ .statement → ∀ inner outer, regions = inner ++ r :: outer →
      b.regionDepth ≤ outer.length) :
    Coherent (scopes.setState id (.frozen kind pos)) (regions.attach name ⟨kind, id, pos, true⟩) := by
  refine ⟨fun ref href => ?_, fun {j b'} hj => ?_, fun j => ?_⟩
  · rcases Regions.mem_refs_attach href with href | rfl
    · obtain ⟨b', hb'⟩ := h.valid ref href
      exact Scopes.get?_setState_isSome hb'
    · exact Scopes.get?_setState_isSome hb
  · rcases Scopes.get?_setState_cases hb hj with ⟨hne, hj⟩ | ⟨rfl, rfl⟩
    · exact (h.accounted hj).attach_ne hget (Ne.symm hne)
    · exact (h.accounted hb).freeze hlin hget hnone kind pos hdepth
  · by_cases hj : id = j
    · subst hj
      obtain ⟨before, after, hbefore, hafter⟩ := Regions.refsTo_attach ⟨kind, id, pos, true⟩ hget
      change regions.refsTo id = _ at hbefore
      rw [hnone] at hbefore
      obtain ⟨rfl, rfl⟩ := List.append_eq_nil_iff.mp hbefore.symm
      exact .inr ⟨_, hafter⟩
    · rw [Regions.refsTo_attach_ne name _ hj]
      exact h.shared j

theorem share (h : Coherent scopes regions) (hb : scopes.get? id = some b) {name : String} {r : Region}
    (hget : regions.get? name = some r) (kind : RefKind) (pos : Span)
    (hlin : b.isLinear = true → r.kind = .statement ∧ ∃ holder ∈ regions, holder.kind = .statement ∧
      ∃ prior ∈ holder.references, prior.binding = id)
    (hkinds : regions.refsTo id = [] ∨ kind = .read ∧ ∃ prior ∈ regions.refsTo id, prior.kind = .read)
    (hdepth : r.kind ≠ .statement → ∀ inner outer, regions = inner ++ r :: outer →
      b.regionDepth ≤ outer.length) :
    Coherent scopes (regions.attach name ⟨kind, id, pos, false⟩) := by
  refine ⟨fun ref href => ?_, fun {j b'} hj => ?_, fun j => ?_⟩
  · rcases Regions.mem_refs_attach href with href | rfl
    · exact h.valid ref href
    · exact ⟨b, hb⟩
  · by_cases hij : id = j
    · subst hij
      rw [hb] at hj
      cases hj
      exact (h.accounted hb).share hget kind pos hlin hdepth
    · exact (h.accounted hj).attach_ne hget hij
  · by_cases hij : id = j
    · subst hij
      obtain ⟨before, after, hbefore, hafter⟩ := Regions.refsTo_attach ⟨kind, id, pos, false⟩ hget
      change regions.refsTo id = _ at hbefore
      change (regions.attach name _).refsTo id = _ at hafter
      rcases hkinds with hnone | ⟨rfl, prior, hprior, hread⟩
      · rw [hnone] at hbefore
        obtain ⟨rfl, rfl⟩ := List.append_eq_nil_iff.mp hbefore.symm
        exact .inr ⟨_, hafter⟩
      · have hall : ∀ ref ∈ regions.refsTo id, ref.kind = .read := by
          rcases h.shared id with hall | ⟨ref, hone⟩
          · exact hall
          · rw [hone, List.mem_singleton] at hprior
            subst hprior
            intro ref href
            rw [hone, List.mem_singleton] at href
            rw [href]
            exact hread
        refine .inl fun ref href => ?_
        rw [hafter, List.mem_append, List.mem_cons] at href
        rcases href with href | rfl | href
        · exact hall ref (by rw [hbefore]; exact List.mem_append_left _ href)
        · rfl
        · exact hall ref (by rw [hbefore]; exact List.mem_append_right _ href)
    · rw [Regions.refsTo_attach_ne name _ hij]
      exact h.shared j

/-! ### Opening and closing regions -/

theorem enter (h : Coherent scopes regions) (name : String) (kind : RegionKind) (pos : Span) :
    Coherent scopes (⟨name, kind, pos, []⟩ :: regions) := by
  have hrefs : ∀ id, Regions.refsTo (⟨name, kind, pos, []⟩ :: regions) id = regions.refsTo id := fun id => by
    rw [Regions.refsTo_cons]
    rfl
  refine ⟨h.valid, fun {id b} hb => ?_, fun id => by rw [hrefs]; exact h.shared id⟩
  have hacc := h.accounted hb
  refine ⟨?_, ?_, ?_, ?_, ?_, ?_⟩
  · rw [hrefs]
    exact hacc.frozen
  · rw [hrefs]
    exact hacc.idle
  · rw [hrefs]
    exact hacc.free
  · intro hlin r hr hkind ref href hbind
    rw [hrefs]
    rcases List.mem_cons.mp hr with rfl | hr
    · cases href
    · exact hacc.exclusive hlin r hr hkind ref href hbind
  · exact Nat.le_succ_of_le hacc.deep
  · intro inner r outer hsplit hkind ref href hbind
    cases inner with
    | nil =>
      simp only [List.nil_append, List.cons.injEq] at hsplit
      obtain ⟨rfl, rfl⟩ := hsplit
      cases href
    | cons q inner =>
      simp only [List.cons_append, List.cons.injEq] at hsplit
      exact hacc.sheltered hsplit.2 hkind ref href hbind

theorem close {top base : Regions} (h : Coherent scopes (top ++ base))
    (hexcl : ∀ id b, scopes.get? id = some b → id ∈ top.flatMap Region.frozen → base.refsTo id = [])
    (hdeep : ∀ id b, scopes.get? id = some b → b.regionDepth ≤ base.length) :
    Coherent (scopes.thawAll (top.flatMap Region.frozen)) base := by
  refine ⟨fun ref href => ?_, fun {id b} hb => ?_, fun id => ?_⟩
  · have hmem : ref ∈ Regions.refs (top ++ base) := by
      obtain ⟨r, hr, href⟩ := Regions.mem_refs.mp href
      exact Regions.mem_refs.mpr ⟨r, List.mem_append_right _ hr, href⟩
    obtain ⟨b, hb⟩ := h.valid ref hmem
    rw [Scopes.get?_thawAll, hb]
    split
    · exact ⟨_, rfl⟩
    · exact ⟨_, rfl⟩
  · rw [Scopes.get?_thawAll] at hb
    cases hb' : scopes.get? id with
    | none =>
      rw [hb'] at hb
      split at hb <;> cases hb
    | some b' =>
      have hclose := (h.accounted hb').close (hexcl id b' hb') (hdeep id b' hb')
      rw [hb'] at hb
      split at hb
      · rename_i hid
        cases hb
        rwa [if_pos hid] at hclose
      · rename_i hid
        cases hb
        rwa [if_neg hid] at hclose
  · rcases h.shared id with hall | ⟨ref, hone⟩
    · refine .inl fun ref href => hall ref ?_
      rw [Regions.refsTo_append]
      exact List.mem_append_right _ href
    · rw [Regions.refsTo_append] at hone
      rcases List.append_eq_singleton_iff.mp hone with ⟨_, hbase⟩ | ⟨_, hbase⟩
      · exact .inr ⟨ref, hbase⟩
      · exact .inl fun ref href => by rw [hbase] at href; cases href

/-! ### Opening and closing scopes -/

theorem push (h : Coherent scopes regions) : Coherent scopes.push regions := by
  refine ⟨fun ref href => ?_, fun {id b} hb => ?_, h.shared⟩
  · rw [Scopes.get?_push]
    exact h.valid ref href
  · rw [Scopes.get?_push] at hb
    exact h.accounted hb

theorem pop (h : Coherent scopes regions)
    (hvalid : ∀ ref ∈ regions.refs, ref.binding.frame + 1 < scopes.frames.length) :
    Coherent scopes.pop.2 regions := by
  refine ⟨fun ref href => ?_, fun {id b} hb => ?_, h.shared⟩
  · rw [Scopes.get?_pop, if_pos (hvalid ref href)]
    exact h.valid ref href
  · rw [Scopes.get?_pop] at hb
    split at hb
    · exact h.accounted hb
    · cases hb

theorem define (h : Coherent scopes regions) (b : Binding) (hstate : b.state = .unconsumed)
    (hdepth : b.regionDepth = regions.length) : Coherent (scopes.define b).2 regions := by
  have hnone : regions.refsTo (scopes.define b).1 = [] :=
    h.refsTo_of_none (Scopes.get?_define_fresh scopes b)
  refine ⟨fun ref href => ?_, fun {id b'} hb => ?_, h.shared⟩
  · rw [Scopes.get?_define]
    split
    · exact ⟨b, rfl⟩
    · exact h.valid ref href
  · rw [Scopes.get?_define] at hb
    split at hb
    · rename_i hid
      cases hb
      subst hid
      refine ⟨fun _ hs => ?_, fun _ _ => hnone, fun _ => ⟨hstate, fun ref href => ?_⟩,
        fun _ r hr _ ref href hbind => ?_, Nat.le_of_eq hdepth, fun {inner r outer} hsplit _ ref href hbind => ?_⟩
      · rw [hstate] at hs
        cases hs
      · rw [hnone] at href
        cases href
      · have := Regions.mem_refsTo_of_mem hr href hbind
        rw [hnone] at this
        cases this
      · have hr : r ∈ regions := by
          rw [hsplit]
          simp
        have := Regions.mem_refsTo_of_mem hr href hbind
        rw [hnone] at this
        cases this
    · exact h.accounted hb

end Coherent

end Linearity
