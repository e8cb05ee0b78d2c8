import Linearity.Proofs.Translation

/-! What a check of a retyped copy looks like beside that of the program.

In the copy fewer bindings are linear, so fewer are followed. `Mirrors g i` says that `i`
is what `g` looks like then: the same names and regions, the retyped types, and for each
binding that is still linear the same state. What froze a binding that is free in the copy
froze nothing there (`Region.restrict`). -/
namespace Linearity

/-! ### Regions in which fewer references freeze -/

variable {L L' : BindingId → Bool}

def Reference.restrict (L : BindingId → Bool) (ref : Reference) : Reference :=
  {ref with froze := ref.froze && L ref.binding}

def Region.restrict (L : BindingId → Bool) (r : Region) : Region :=
  {r with references := r.references.map (Reference.restrict L)}

theorem Region.mem_frozen_restrict {r : Region} {id : BindingId} :
    id ∈ (r.restrict L).frozen ↔ id ∈ r.frozen ∧ L id = true := by
  simp only [mem_frozen, restrict, List.mem_map, exists_exists_and_eq_and, Reference.restrict, Bool.and_eq_true]
  constructor
  · rintro ⟨ref, href, ⟨hfroze, hL⟩, rfl⟩
    exact ⟨⟨ref, href, hfroze, rfl⟩, hL⟩
  · rintro ⟨⟨ref, href, hfroze, rfl⟩, hL⟩
    exact ⟨ref, href, ⟨hfroze, hL⟩, rfl⟩

namespace Regions
variable {rs : Regions} {name : String} {id : BindingId}

theorem mem_frozen_restrict : id ∈ (rs.map (Region.restrict L)).flatMap Region.frozen ↔
    id ∈ rs.flatMap Region.frozen ∧ L id = true := by
  simp only [List.mem_flatMap, List.mem_map, exists_exists_and_eq_and, Region.mem_frozen_restrict]
  constructor
  · rintro ⟨r, hr, hid, hL⟩
    exact ⟨⟨r, hr, hid⟩, hL⟩
  · rintro ⟨⟨r, hr, hid⟩, hL⟩
    exact ⟨r, hr, hid, hL⟩

theorem restrict_congr (h : ∀ ref ∈ refs rs, L ref.binding = L' ref.binding) :
    rs.map (Region.restrict L) = rs.map (Region.restrict L') := by
  apply List.map_congr_left
  intro r hr
  have hrefs : r.references.map (Reference.restrict L) = r.references.map (Reference.restrict L') := by
    apply List.map_congr_left
    intro ref href
    simp only [Reference.restrict, h ref (mem_refs.mpr ⟨r, hr, href⟩)]
  simp only [Region.restrict, hrefs]

theorem referenceTo_restrict : referenceTo (rs.map (Region.restrict L)) id =
    (referenceTo rs id).map fun e => (e.1.restrict L, e.2.restrict L) := by
  induction rs with
  | nil => rfl
  | cons r rs ih =>
    have hfind : (r.restrict L).references.find? (fun ref => ref.binding == id) =
        (r.references.find? fun ref => ref.binding == id).map (Reference.restrict L) := by
      simp only [Region.restrict, List.find?_map]
      rfl
    simp only [referenceTo, List.map_cons, List.findSome?_cons, hfind] at ih ⊢
    cases r.references.find? fun ref => ref.binding == id with
    | some ref => rfl
    | none => exact ih

theorem attach_restrict (ref : Reference) : ∀ rs : Regions, (attach name ref rs).map (Region.restrict L) =
    attach name (ref.restrict L) (rs.map (Region.restrict L))
  | [] => rfl
  | r :: outer => by
    by_cases hname : r.name = name
    · simp [attach, hname, Region.restrict]
    · simp [attach, hname, Region.restrict, ← attach_restrict ref outer]

end Regions

namespace Check

/-! ### What mirrors what -/

/-- In the second context retyped types are linear only if they are in the first. -/
structure Specialises (σ : Ty → Ty) (c c' : Context) : Prop extends KeepsRegions σ where
  settings : c'.settings = c.settings
  linear : ∀ {t}, isLinear c' (σ t) = true → isLinear c t = true

/-- The binding as the copy's check defines it. -/
def retyped (σ : Ty → Ty) (c' : Context) (b : Binding) : Binding :=
  {b with ty := σ b.ty, univ := c'.table.classify c'.kinds (σ b.ty)}

/-- Whether an id leads to a linear binding. -/
def followed (scopes : Scopes) (id : BindingId) : Bool := (scopes.get? id).any Binding.isLinear

variable (σ : Ty → Ty) (c' : Context)

structure Mirrored (g i : Scopes) : Prop where
  skeleton : i.skeleton = g.skeleton.map fun f => f.map (retyped σ c')
  barrier : i.barrier = g.barrier
  bound : ∀ {id b b'}, g.get? id = some b → i.get? id = some b' → b'.isLinear = true →
    b.isLinear = true ∧ b'.state = b.state

structure Mirrors (g i : State) : Prop where
  scopes : Mirrored σ c' g.scopes i.scopes
  regions : i.regions = g.regions.map (Region.restrict (followed i.scopes))
  clean : i.found = []

variable {σ c'}

theorem followed_of_skeleton {i j : Scopes} (h : j.skeleton = i.skeleton) : followed j = followed i := by
  funext id
  have hlinear : ∀ s : Scopes, followed s id = (Scopes.getIn id s.skeleton).any Binding.isLinear := by
    intro s
    rw [Scopes.get?_skeleton, Option.any_map]
    rfl
  rw [hlinear, hlinear, h]

namespace Mirrored
variable {g i : Scopes} {id : BindingId} {b b' : Binding} {name : String}

theorem length (h : Mirrored σ c' g i) : i.frames.length = g.frames.length := by
  rw [← Scopes.length_skeleton, h.skeleton, List.length_map, Scopes.length_skeleton]

theorem outsideLoop (h : Mirrored σ c' g i) (id : BindingId) : i.outsideLoop id = g.outsideLoop id := by
  simp only [Scopes.outsideLoop, h.barrier]

theorem get?_eq (h : Mirrored σ c' g i) (id : BindingId) :
    (i.get? id).map Binding.blank = (g.get? id).map fun b => retyped σ c' b.blank := by
  rw [← Scopes.get?_skeleton, h.skeleton, Scopes.getIn_map, Scopes.get?_skeleton, Option.map_map]
  rfl

theorem get? (h : Mirrored σ c' g i) (hb : g.get? id = some b) :
    ∃ b', i.get? id = some b' ∧ b'.blank = retyped σ c' b.blank := by
  have heq := h.get?_eq id
  rw [hb] at heq
  exact Option.map_eq_some_iff.mp heq

/-- Of a binding that the copy follows. -/
theorem source (h : Mirrored σ c' g i) (hb' : i.get? id = some b') (hlin : b'.isLinear = true) :
    ∃ b, g.get? id = some b ∧ b.isLinear = true ∧ b'.state = b.state := by
  have heq := h.get?_eq id
  rw [hb'] at heq
  obtain ⟨b, hb, _⟩ := Option.map_eq_some_iff.mp heq.symm
  exact ⟨b, hb, h.bound hb hb' hlin⟩

theorem lookup_eq (h : Mirrored σ c' g i) (name : String) :
    (i.lookup name).map (fun e => (e.1, e.2.blank)) =
      (g.lookup name).map fun e => (e.1, retyped σ c' e.2.blank) := by
  rw [← Scopes.lookup_skeleton, h.skeleton, Scopes.lookupIn_map (g := retyped σ c') (fun _ => rfl),
    Scopes.lookup_skeleton, Option.map_map]
  rfl

theorem lookup_none (h : Mirrored σ c' g i) (hb : g.lookup name = none) : i.lookup name = none := by
  have heq := h.lookup_eq name
  rw [hb] at heq
  exact Option.map_eq_none_iff.mp heq

theorem lookup (h : Mirrored σ c' g i) (hb : g.lookup name = some (id, b)) :
    ∃ b', i.lookup name = some (id, b') ∧ b'.blank = retyped σ c' b.blank := by
  have heq := h.lookup_eq name
  rw [hb] at heq
  obtain ⟨⟨id', b'⟩, hb', hblank⟩ := Option.map_eq_some_iff.mp heq
  obtain ⟨rfl, hblank⟩ := Prod.mk.inj hblank
  exact ⟨b', hb', hblank⟩

/-- Steps that change states only. -/
theorem of_states {g₁ i₁ : Scopes} (h : Mirrored σ c' g i) (hg : g₁.skeleton = g.skeleton)
    (hgbar : g₁.barrier = g.barrier) (hi : i₁.skeleton = i.skeleton) (hibar : i₁.barrier = i.barrier)
    (hstate : ∀ {id b b'}, g₁.get? id = some b → i₁.get? id = some b' → b'.isLinear = true →
      b'.state = b.state) : Mirrored σ c' g₁ i₁ := by
  refine ⟨?_, ?_, fun {id b b'} hb hb' hlin => ⟨?_, hstate hb hb' hlin⟩⟩
  · rw [hi, hg, h.skeleton]
  · rw [hibar, hgbar, h.barrier]
  · obtain ⟨b₀, hb₀, hblank⟩ := Scopes.get?_of_skeleton hg.symm hb
    obtain ⟨b₀', hb₀', hblank'⟩ := Scopes.get?_of_skeleton hi.symm hb'
    rw [← Binding.isLinear_of_blank hblank]
    exact (h.bound hb₀ hb₀' ((Binding.isLinear_of_blank hblank').trans hlin)).1

/-- A move that the copy makes too. -/
theorem setState (h : Mirrored σ c' g i) (id : BindingId) (state : BindingState) :
    Mirrored σ c' (g.setState id state) (i.setState id state) := by
  apply h.of_states (Scopes.skeleton_setState ..) rfl (Scopes.skeleton_setState ..) rfl
  intro j b b' hb hb' hlin
  rw [Scopes.get?_setState] at hb hb'
  by_cases hid : id = j
  · rw [if_pos hid] at hb hb'
    obtain ⟨_, _, rfl⟩ := Option.map_eq_some_iff.mp hb
    obtain ⟨_, _, rfl⟩ := Option.map_eq_some_iff.mp hb'
    rfl
  · rw [if_neg hid] at hb hb'
    exact (h.bound hb hb' hlin).2

/-- A move of a binding that is free in the copy. -/
theorem setState_free (h : Mirrored σ c' g i) (hb' : i.get? id = some b') (hfree : b'.isLinear = false)
    (state : BindingState) : Mirrored σ c' (g.setState id state) i := by
  apply h.of_states (Scopes.skeleton_setState ..) rfl rfl rfl
  intro j b b₁ hb hb₁ hlin
  rw [Scopes.get?_setState] at hb
  by_cases hid : id = j
  · subst hid
    rw [hb'] at hb₁
    cases hb₁
    rw [hfree] at hlin
    cases hlin
  · rw [if_neg hid] at hb
    exact (h.bound hb hb₁ hlin).2

theorem thawAll (h : Mirrored σ c' g i) {ids ids' : List BindingId}
    (hids : ∀ id, id ∈ ids' ↔ id ∈ ids ∧ followed i id = true) :
    Mirrored σ c' (g.thawAll ids) (i.thawAll ids') := by
  apply h.of_states (Scopes.skeleton_thawAll ..) (Scopes.barrier_thawAll ..) (Scopes.skeleton_thawAll ..)
    (Scopes.barrier_thawAll ..)
  intro id b b' hb hb' hlin
  obtain ⟨b₀', hb₀', hblank⟩ := Scopes.get?_of_skeleton (Scopes.skeleton_thawAll ids' i).symm hb'
  have hlin₀ : b₀'.isLinear = true := (Binding.isLinear_of_blank hblank).trans hlin
  obtain ⟨b₀, hb₀, _, hstate⟩ := h.source hb₀' hlin₀
  have hmem : id ∈ ids' ↔ id ∈ ids := by
    rw [hids, followed, hb₀', Option.any_some, hlin₀]
    simp
  rw [Scopes.get?_thawAll, hb₀] at hb
  rw [Scopes.get?_thawAll, hb₀'] at hb'
  by_cases hid : id ∈ ids
  · rw [if_pos hid] at hb
    rw [if_pos (hmem.mpr hid)] at hb'
    cases hb
    cases hb'
    simp only [Binding.thawed, hstate]
    split <;> simp [hstate]
  · rw [if_neg hid] at hb
    rw [if_neg (fun hid' => hid (hmem.mp hid'))] at hb'
    cases hb
    cases hb'
    exact hstate

theorem push (h : Mirrored σ c' g i) : Mirrored σ c' g.push i.push := by
  refine ⟨?_, h.barrier, fun {id b b'} hb hb' => ?_⟩
  · simp [h.skeleton]
  · rw [Scopes.get?_push] at hb hb'
    exact h.bound hb hb'

theorem pop (h : Mirrored σ c' g i) : Mirrored σ c' g.pop.2 i.pop.2 := by
  refine ⟨?_, ?_, fun {id b b'} hb hb' => ?_⟩
  · rw [Scopes.skeleton_pop, Scopes.skeleton_pop, h.skeleton, List.map_tail]
  · simp [h.barrier]
  · rw [Scopes.get?_pop] at hb hb'
    rw [h.length] at hb'
    by_cases hid : id.frame + 1 < g.frames.length
    · rw [if_pos hid] at hb hb'
      exact h.bound hb hb'
    · rw [if_neg hid] at hb
      cases hb

theorem define_id (h : Mirrored σ c' g i) (b b' : Binding) : (i.define b').1 = (g.define b).1 := by
  rw [Scopes.define_id, Scopes.define_id, h.skeleton]
  cases g.skeleton <;> simp

theorem define (h : Mirrored σ c' g i) {b b' : Binding} (hb : b'.blank = retyped σ c' b.blank)
    (hlinear : b'.isLinear = true → b.isLinear = true) (hstate : b'.state = b.state) :
    Mirrored σ c' (g.define b).2 (i.define b').2 := by
  refine ⟨?_, ?_, fun {id a a'} ha ha' => ?_⟩
  · rw [Scopes.skeleton_define_eq, Scopes.skeleton_define_eq, h.skeleton, hb]
    cases g.skeleton <;> rfl
  · simp [h.barrier]
  · rw [Scopes.get?_define] at ha ha'
    rw [h.define_id b b'] at ha'
    by_cases hid : id = (g.define b).1
    · rw [if_pos hid] at ha ha'
      cases ha
      cases ha'
      exact fun hlin => ⟨hlinear hlin, hstate⟩
    · rw [if_neg hid] at ha ha'
      exact h.bound ha ha'

end Mirrored

end Check

end Linearity
