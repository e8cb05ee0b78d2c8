import Linearity.Proofs.Steps

/-! What a check sees of one binding.

The steps of a check hardly mix bindings. What a step does to one of them depends on
the names in scope, the open regions, the barrier, and the state of that one binding
alone: its `view`. Branches are joined binding by binding, so a path can follow a check
as one binding sees it, even if no path follows it as all of them do. -/
namespace Linearity

/-- The region with the references to one binding only. -/
def Region.about (id : BindingId) (r : Region) : Region :=
  {r with references := r.references.filter fun ref => ref.binding = id}

theorem Region.mem_frozen_about {id : BindingId} {r : Region} : id ∈ (r.about id).frozen ↔ id ∈ r.frozen := by
  simp only [mem_frozen, about, List.mem_filter, decide_eq_true_eq]
  constructor
  · rintro ⟨ref, ⟨hmem, _⟩, hfroze, hid⟩
    exact ⟨ref, hmem, hfroze, hid⟩
  · rintro ⟨ref, hmem, hfroze, hid⟩
    exact ⟨ref, ⟨hmem, hid⟩, hfroze, hid⟩

namespace Regions

def about (id : BindingId) (rs : Regions) : Regions := rs.map (Region.about id)

variable {id : BindingId} {rs : Regions} {name : String}

@[simp] theorem length_about : (rs.about id).length = rs.length := List.length_map _

theorem get?_about : get? (rs.about id) name = (get? rs name).map (Region.about id) :=
  get?_map fun _ => rfl

@[simp] theorem isLive_about : isLive (rs.about id) name = isLive rs name :=
  isLive_map fun _ => rfl

@[simp] theorem isFunctionRegion_about : isFunctionRegion (rs.about id) name = isFunctionRegion rs name :=
  isFunctionRegion_map (fun _ => rfl) fun _ => rfl

@[simp] theorem position?_about : position? name (rs.about id) = position? name rs :=
  position?_map (g := Region.about id) fun _ => rfl

theorem referenceTo_about :
    referenceTo (rs.about id) id = (referenceTo rs id).map fun e => (e.1.about id, e.2) := by
  unfold referenceTo about
  rw [List.findSome?_map, List.map_findSome?]
  refine congrFun (congrArg _ (funext fun r => ?_)) rs
  simp only [Function.comp_apply, Region.about, Option.map_map, List.find?_filter]
  congr 1
  refine congrFun (congrArg _ (funext fun ref => ?_)) r.references
  by_cases hid : ref.binding = id <;> simp [hid]

/-- A new reference is seen only by its own binding. -/
theorem about_attach (ref : Reference) : ∀ rs : Regions, about id (attach name ref rs) =
    if ref.binding = id then attach name ref (rs.about id) else rs.about id
  | [] => by split <;> rfl
  | r :: outer => by
    have ih := about_attach ref outer
    simp only [attach, about, List.map_cons] at ih ⊢
    by_cases hname : r.name = name <;> by_cases hid : ref.binding = id <;>
      simp_all [Region.about]

theorem closeStatements_about (base : Nat) (rs : Regions) : closeStatements base (rs.about id) =
    ((closeStatements base rs).1.map (Region.about id), about id (closeStatements base rs).2) :=
  closeStatements_map (g := Region.about id) (fun _ => rfl) base rs

theorem refsTo_about : refsTo (rs.about id) id = refsTo rs id := by
  induction rs with
  | nil => rfl
  | cons r rs ih =>
    show refsTo (r.about id :: about id rs) id = refsTo (r :: rs) id
    rw [refsTo_cons, refsTo_cons, ih]
    simp [Region.about]

end Regions

/-- A state without the place of a consumption, which is for messages only. -/
def BindingState.faded : BindingState → BindingState
  | .consumed _ => .consumed ⟨0, 0⟩
  | .unconsumed => .unconsumed
  | .frozen kind pos => .frozen kind pos

theorem BindingState.isConsumed_faded (state : BindingState) : state.faded.isConsumed = state.isConsumed := by
  cases state <;> rfl

theorem BindingState.isConsumed_of_faded {a b : BindingState} (h : a.faded = b.faded) :
    a.isConsumed = b.isConsumed := by
  rw [← isConsumed_faded, h, isConsumed_faded]

theorem Binding.isLive_of_faded {b b' : Binding} (hblank : b'.blank = b.blank)
    (hstate : b'.state.faded = b.state.faded) : b.isLive = b'.isLive := by
  have hlin : b'.isLinear = b.isLinear := isLinear_of_blank hblank
  unfold isLive
  rw [hlin, BindingState.isConsumed_of_faded hstate]

theorem Binding.thawed_of_faded {b b' : Binding} (hstate : b'.state.faded = b.state.faded) :
    b'.thawed.state.faded = b.thawed.state.faded := by
  unfold thawed
  cases hb : b.state <;> cases hb' : b'.state <;> simp_all [BindingState.faded]

namespace Check

structure View where
  skeleton : List Frame
  barrier : Option Nat
  regions : Regions
  state : Option BindingState

/-- All that a binding's fate depends on. -/
def State.view (id : BindingId) (s : State) : View :=
  ⟨s.scopes.skeleton, s.scopes.barrier, s.regions.about id, (s.scopes.get? id).map fun b => b.state.faded⟩

section Views
variable {id : BindingId} {s p : State}

theorem view_of_same (hscopes : p.scopes = s.scopes) (hregions : p.regions = s.regions) :
    p.view id = s.view id := by
  unfold State.view
  rw [hscopes, hregions]

theorem skeleton_of_view (h : s.view id = p.view id) : s.scopes.skeleton = p.scopes.skeleton :=
  congrArg View.skeleton h

theorem barrier_of_view (h : s.view id = p.view id) : s.scopes.barrier = p.scopes.barrier :=
  congrArg View.barrier h

theorem regions_of_view (h : s.view id = p.view id) : s.regions.about id = p.regions.about id :=
  congrArg View.regions h

theorem state_of_view (h : s.view id = p.view id) : (s.scopes.get? id).map (fun b => b.state.faded) =
    (p.scopes.get? id).map fun b => b.state.faded :=
  congrArg View.state h

theorem view_ext (hskel : s.scopes.skeleton = p.scopes.skeleton) (hbar : s.scopes.barrier = p.scopes.barrier)
    (hregions : s.regions.about id = p.regions.about id)
    (hstate : (s.scopes.get? id).map (fun b => b.state.faded) =
      (p.scopes.get? id).map fun b => b.state.faded) : s.view id = p.view id := by
  unfold State.view
  rw [hskel, hbar, hregions, hstate]

theorem outsideLoop_of_view (h : s.view id = p.view id) (i : BindingId) :
    s.scopes.outsideLoop i = p.scopes.outsideLoop i := by
  unfold Scopes.outsideLoop
  rw [barrier_of_view h]

theorem lookup_of_view (h : s.view id = p.view id) {name : String} {i : BindingId} {b : Binding}
    (hb : s.scopes.lookup name = some (i, b)) :
    ∃ b', p.scopes.lookup name = some (i, b') ∧ b'.blank = b.blank :=
  Scopes.lookup_of_skeleton (skeleton_of_view h).symm hb

theorem lookup_none_of_view (h : s.view id = p.view id) {name : String}
    (hb : s.scopes.lookup name = none) : p.scopes.lookup name = none :=
  Scopes.lookup_none_of_skeleton (skeleton_of_view h).symm hb

/-- The binding itself, in both states. -/
theorem get?_of_view (h : s.view id = p.view id) {b : Binding} (hb : s.scopes.get? id = some b) :
    ∃ b', p.scopes.get? id = some b' ∧ b'.blank = b.blank ∧ b'.state.faded = b.state.faded := by
  obtain ⟨b', hb', hblank⟩ := Scopes.get?_of_skeleton (skeleton_of_view h).symm hb
  have hstate := state_of_view h
  rw [hb, hb'] at hstate
  exact ⟨b', hb', hblank, (Option.some.inj hstate).symm⟩

theorem regions_length_of_view (h : s.view id = p.view id) : s.regions.length = p.regions.length := by
  rw [← @Regions.length_about id, regions_of_view h, Regions.length_about]

theorem isLive_of_view (h : s.view id = p.view id) (r : String) : s.regions.isLive r = p.regions.isLive r := by
  rw [← @Regions.isLive_about id, regions_of_view h, Regions.isLive_about]

theorem position?_of_view (h : s.view id = p.view id) (r : String) :
    s.regions.position? r = p.regions.position? r := by
  rw [← @Regions.position?_about id, regions_of_view h, Regions.position?_about]

theorem isFunctionRegion_of_view (h : s.view id = p.view id) (r : String) :
    s.regions.isFunctionRegion r = p.regions.isFunctionRegion r := by
  rw [← @Regions.isFunctionRegion_about id, regions_of_view h, Regions.isFunctionRegion_about]

end Views

end Check

end Linearity
