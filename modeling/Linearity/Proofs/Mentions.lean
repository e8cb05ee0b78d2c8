import Mathlib
import Linearity.Ty

/-! The regions of an instance.

A type mentions a region as that of a reference, or as one that stands alone, for an
argument. Substitution treats the two differently: the region of a reference gives way to
its image, and one that stands alone stays. `regions_instance` gives the regions of an
instance, mention by mention; the regions that the images of parameters mention come in
where the parameters are.

So a region that is substituted by another may still be mentioned afterwards, and this is
so exactly where it stands alone (`substituted_region_stays_iff`). -/
namespace Linearity

/-- Where a region is mentioned, or may come to be. -/
inductive Mention where
  | alone (region : String)
  | reference (region : String)
  | parameter (name : String)
deriving DecidableEq

/-- The regions it is in an instance. -/
def Mention.instantiate (s : Subst) : Mention → List String
  | .alone r => [r]
  | .reference r => [s.region r]
  | .parameter name => ((s.get? name).map Ty.regions).getD []

namespace Ty

mutual

def mentions : Ty → List Mention
  | .prim _ => []
  | .named _ args => mentionsAll args
  | .param name => [.parameter name]
  | .ref _ r referent => .reference r :: mentions referent
  | .region name => [.alone name]

def mentionsAll : List Ty → List Mention
  | [] => []
  | a :: as => mentions a ++ mentionsAll as

end

mutual

theorem mem_regions {r : String} : ∀ {t : Ty}, r ∈ t.regions ↔ .alone r ∈ t.mentions ∨ .reference r ∈ t.mentions
  | .prim _ => by simp [regions, mentions]
  | .named _ args => by
    rw [regions, mentions]
    exact mem_regionsAll
  | .param _ => by simp [regions, mentions]
  | .ref _ q referent => by
    have ih := @mem_regions r referent
    simp only [regions, mentions, List.mem_cons, ih, reduceCtorEq, false_or, Mention.reference.injEq]
    exact or_left_comm
  | .region name => by simp [regions, mentions]

theorem mem_regionsAll {r : String} :
    ∀ {args : List Ty}, r ∈ regionsAll args ↔ .alone r ∈ mentionsAll args ∨ .reference r ∈ mentionsAll args
  | [] => by simp [regionsAll, mentionsAll]
  | a :: args => by
    simp only [regionsAll, mentionsAll, List.mem_append, @mem_regions r a, @mem_regionsAll r args]
    exact or_or_or_comm

end

mutual

/-- The regions of an instance, mention by mention. -/
theorem regions_instance (s : Subst) : ∀ t : Ty, (t.substitute s).regions = t.mentions.flatMap (Mention.instantiate s)
  | .prim _ => rfl
  | .named _ args => regionsAll_instance s args
  | .param name => by
    rw [substitute, mentions, List.flatMap_singleton, Mention.instantiate]
    cases s.get? name <;> rfl
  | .ref _ r referent => by
    rw [substitute, regions, mentions, List.flatMap_cons, regions_instance s referent]
    rfl
  | .region _ => rfl

theorem regionsAll_instance (s : Subst) :
    ∀ args : List Ty, regionsAll (substituteAll s args) = (mentionsAll args).flatMap (Mention.instantiate s)
  | [] => rfl
  | a :: args => by
    rw [substituteAll, regionsAll, mentionsAll, List.flatMap_append, regions_instance s a, regionsAll_instance s args]

end

/-- No reference of an instance leads into a region that is substituted, unless an image mentions it. -/
theorem substituted_ne {s : Subst} {r q : String} (hr : s.get? r = some (.region q))
    (hrange : ∀ name u, s.get? name = some u → r ∉ u.regions) (p : String) : s.region p ≠ r := by
  intro hp
  unfold Subst.region at hp
  split at hp
  · rename_i image himage
    exact hrange p _ himage (by simp [regions, hp])
  · rename_i hother
    subst hp
    exact hother q hr

/-- **A region that is substituted is gone, but where it stands alone.** A type mentions a region
alone or as that of a reference. Let `r` be substituted by `q`, and let no image mention `r`. Where
`r` was the region of a reference, the instance mentions `q`; and it mentions `r` if and only if `r`
stands alone in the type. -/
theorem substituted_region_stays_iff (s : Subst) (r q : String) (hr : s.get? r = some (.region q))
    (hrange : ∀ name u, s.get? name = some u → r ∉ u.regions) (t : Ty) :
    (r ∈ t.regions ↔ .alone r ∈ t.mentions ∨ .reference r ∈ t.mentions) ∧
    (.reference r ∈ t.mentions → q ∈ (t.substitute s).regions) ∧
    (r ∈ (t.substitute s).regions ↔ .alone r ∈ t.mentions) := by
  rw [regions_instance]
  refine ⟨mem_regions, fun href => ?_, ?_⟩
  · exact List.mem_flatMap.mpr ⟨_, href, by simp [Mention.instantiate, Subst.region, hr]⟩
  rw [List.mem_flatMap]
  constructor
  · rintro ⟨m, hm, hmem⟩
    cases m with
    | alone p =>
      rw [List.mem_singleton.mp hmem]
      exact hm
    | reference p => exact absurd (List.mem_singleton.mp hmem).symm (substituted_ne hr hrange p)
    | parameter name =>
      rw [Mention.instantiate] at hmem
      cases hname : s.get? name with
      | none => simp [hname] at hmem
      | some u => exact absurd (by simpa [hname] using hmem) (hrange name u hname)
  · exact fun halone => ⟨_, halone, List.mem_singleton_self r⟩

/-- `Q` for the region `R`, and a file for `T`. -/
def opened : Subst := ⟨[("R", .region "Q"), ("T", .named "File" [])]⟩

theorem opened_image {name : String} {u : Ty} (h : opened.get? name = some u) : "R" ∉ u.regions := by
  rcases List.mem_cons.mp (Dict.get?_mem h) with heq | hmem
  · cases heq
    simp [regions]
  · cases List.mem_singleton.mp hmem
    simp [regions, regionsAll]

/-- References at any depth lead into `Q` in the place of `R`. -/
theorem substituted_region_stays_iff_opened :
    opened.get? "R" = some (.region "Q") ∧
    "R" ∉ ((Ty.named "Pair" [.ref .read "R" (.ref .write "R" (.param "T")), .param "R"]).substitute opened).regions ∧
    "Q" ∈ ((Ty.named "Pair" [.ref .read "R" (.ref .write "R" (.param "T")), .param "R"]).substitute opened).regions := by
  have hr : opened.get? "R" = some (.region "Q") := rfl
  obtain ⟨_, himage, hstays⟩ := substituted_region_stays_iff opened "R" "Q" hr (fun _ _ => opened_image)
    (.named "Pair" [.ref .read "R" (.ref .write "R" (.param "T")), .param "R"])
  exact ⟨hr, fun hmem => absurd (hstays.mp hmem) (by simp [mentions, mentionsAll]),
    himage (by simp [mentions, mentionsAll])⟩

/-- `R` is substituted and no image mentions it, and still the instance of `Cell[R]` mentions it. -/
theorem region_argument_stays : opened.get? "R" = some (.region "Q") ∧
    (∀ name u, opened.get? name = some u → "R" ∉ u.regions) ∧
    ((Ty.named "Cell" [.region "R"]).substitute opened).regions = ["R"] :=
  ⟨rfl, fun _ _ => opened_image, rfl⟩

end Ty

end Linearity
