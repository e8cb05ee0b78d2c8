import Linearity.Regions

/-! The references that a stack of regions holds.

`refsTo` lists the references to a binding. The lemmas say where `attach` puts a
reference, what `referenceTo` answers for, and what closing takes away. -/
namespace Linearity

/-- The bindings that a region froze. -/
def Region.frozen (r : Region) : List BindingId :=
  (r.references.filter Reference.froze).map Reference.binding

theorem Region.mem_frozen {r : Region} {id : BindingId} :
    id ∈ r.frozen ↔ ∃ ref ∈ r.references, ref.froze = true ∧ ref.binding = id := by
  simp [frozen, and_assoc]

namespace Regions
variable {rs : Regions} {name : String} {id : BindingId}

/-- All references of the open regions. -/
def refs (rs : Regions) : List Reference := rs.flatMap Region.references

/-- The references to a binding, those of inner regions first. -/
def refsTo (rs : Regions) (id : BindingId) : List Reference := (refs rs).filter fun r => r.binding = id

theorem mem_refs {ref : Reference} : ref ∈ refs rs ↔ ∃ r ∈ rs, ref ∈ r.references :=
  List.mem_flatMap

theorem mem_refsTo {ref : Reference} : ref ∈ refsTo rs id ↔ ref ∈ refs rs ∧ ref.binding = id := by
  simp [refsTo]

theorem refsTo_cons (r : Region) (rs : Regions) (id : BindingId) :
    refsTo (r :: rs) id = r.references.filter (fun ref => ref.binding = id) ++ refsTo rs id := by
  simp [refsTo, refs]

theorem refsTo_append (top base : Regions) (id : BindingId) :
    refsTo (top ++ base) id = refsTo top id ++ refsTo base id := by
  simp [refsTo, refs]

theorem mem_refsTo_of_mem {r : Region} {ref : Reference} (hr : r ∈ rs) (href : ref ∈ r.references)
    (hbind : ref.binding = id) : ref ∈ refsTo rs id :=
  mem_refsTo.mpr ⟨mem_refs.mpr ⟨r, hr, href⟩, hbind⟩

/-- With two regions that refer to a binding there are two references to it. -/
theorem refsTo_ne_singleton {q r : Region} {ref ref' : Reference} (hq : q ∈ rs) (hr : r ∈ rs)
    (hne : q ≠ r) (href : ref ∈ q.references) (hbind : ref.binding = id) (href' : ref' ∈ r.references)
    (hbind' : ref'.binding = id) (only : Reference) : refsTo rs id ≠ [only] := by
  obtain ⟨inner, outer, rfl⟩ := List.append_of_mem hr
  have hother : q ∈ inner ∨ q ∈ outer := by
    simpa [hne] using hq
  have hmid : 0 < (r.references.filter fun ref => ref.binding = id).length :=
    List.length_pos_of_mem (List.mem_filter.mpr ⟨href', by simpa using hbind'⟩)
  have hrest : 0 < (refsTo inner id).length + (refsTo outer id).length := by
    rcases hother with hq | hq
    · exact Nat.add_pos_left (List.length_pos_of_mem (mem_refsTo_of_mem hq href hbind)) _
    · exact Nat.add_pos_right _ (List.length_pos_of_mem (mem_refsTo_of_mem hq href hbind))
  intro honly
  have hlen := congrArg List.length honly
  rw [refsTo_append, refsTo_cons] at hlen
  simp only [List.length_append, List.length_singleton] at hlen
  omega

/-! ### Regions by name -/

theorem get?_eq_some_iff {r : Region} : get? rs name = some r ↔
    ∃ inner outer, rs = inner ++ r :: outer ∧ r.name = name ∧ ∀ q ∈ inner, q.name ≠ name := by
  simp only [get?, List.find?_eq_some_iff_append, beq_iff_eq]
  constructor
  · rintro ⟨hname, inner, outer, rfl, hinner⟩
    exact ⟨inner, outer, rfl, hname, fun q hq => by simpa using hinner q hq⟩
  · rintro ⟨inner, outer, rfl, hname, hinner⟩
    exact ⟨hname, inner, outer, rfl, fun q hq => by simpa using hinner q hq⟩

theorem isLive_iff : isLive rs name = true ↔ ∃ r ∈ rs, r.name = name := by
  simp [isLive, get?, List.find?_isSome]

theorem position?_append_of_ne {r : Region} {inner outer : Regions} (hname : r.name = name)
    (hinner : ∀ q ∈ inner, q.name ≠ name) : position? name (inner ++ r :: outer) = some outer.length := by
  induction inner with
  | nil => simp [position?, hname]
  | cons q inner ih =>
    rw [List.cons_append, position?, if_neg (hinner q (List.mem_cons_self ..))]
    exact ih fun q hq => hinner q (List.mem_cons_of_mem _ hq)

theorem position?_eq_none : ∀ {rs : Regions}, position? name rs = none ↔ get? rs name = none
  | [] => by simp [position?, get?]
  | r :: outer => by
    rw [position?, get?, List.find?_cons]
    by_cases hname : r.name = name
    · simp [hname]
    · have hname' : (r.name == name) = false := by simpa using hname
      rw [if_neg hname, hname']
      exact position?_eq_none

/-- A live region has a position. -/
theorem position?_of_isLive (h : isLive rs name = true) : ∃ p, position? name rs = some p := by
  refine Option.ne_none_iff_exists'.mp fun hnone => ?_
  rw [isLive, position?_eq_none.mp hnone] at h
  cases h

theorem isLive_of_position? {p : Nat} (h : position? name rs = some p) : isLive rs name = true := by
  rw [isLive, Option.isSome_iff_ne_none]
  intro hnone
  rw [position?_eq_none.mpr hnone] at h
  cases h

/-- A position below the length of the outer regions is a position there. -/
theorem position?_outer {top base : Regions} {p : Nat} (h : position? name (top ++ base) = some p)
    (hp : p < base.length) : position? name base = some p := by
  induction top with
  | nil => exact h
  | cons r top ih =>
    rw [List.cons_append, position?] at h
    split at h
    · cases h
      simp only [List.length_append] at hp
      omega
    · exact ih h

theorem position?_lt {p : Nat} : ∀ {rs : Regions}, position? name rs = some p → p < rs.length
  | r :: outer, h => by
    rw [position?] at h
    split at h
    · cases h
      exact Nat.lt_succ_self _
    · exact Nat.lt_succ_of_lt (position?_lt h)

/-- A region that is open keeps its position while one of another name is opened. -/
theorem position?_cons_of_fresh {r : Region} {p : Nat} (hfresh : get? rs r.name = none)
    (h : position? name rs = some p) : position? name (r :: rs) = some p := by
  rw [position?, if_neg]
  · exact h
  · rintro rfl
    rw [position?_eq_none.mpr hfresh] at h
    cases h

/-- A name of one of the regions on top stands for a region on top. -/
theorem length_le_position? {top base : Regions} {r : Region} {p : Nat} (hr : r ∈ top)
    (h : position? r.name (top ++ base) = some p) : base.length ≤ p := by
  induction top with
  | nil => cases hr
  | cons q top ih =>
    rw [List.cons_append, position?] at h
    by_cases hq : q.name = r.name
    · rw [if_pos hq, List.length_append] at h
      cases h
      exact Nat.le_add_left ..
    · rw [if_neg hq] at h
      rcases List.mem_cons.mp hr with rfl | hr
      · exact absurd rfl hq
      · exact ih hr h

/-! ### Changing every region

What depends on the names and the kinds of regions only. -/

section Map
variable {g : Region → Region} (hname : ∀ r, (g r).name = r.name) (hkind : ∀ r, (g r).kind = r.kind)

include hname

theorem get?_map : get? (rs.map g) name = (get? rs name).map g := by
  unfold get?
  rw [List.find?_map]
  simp only [Function.comp_def, hname]

theorem isLive_map : isLive (rs.map g) name = isLive rs name := by
  rw [isLive, get?_map hname, Option.isSome_map, isLive]

theorem position?_map : ∀ {rs : Regions}, position? name (rs.map g) = position? name rs
  | [] => rfl
  | r :: outer => by rw [List.map_cons, position?, position?, hname, List.length_map, position?_map]

include hkind

theorem isFunctionRegion_map : isFunctionRegion (rs.map g) name = isFunctionRegion rs name := by
  rw [isFunctionRegion, get?_map hname, Option.any_map]
  simp only [hkind, isFunctionRegion]

omit hname

theorem closeStatements_map (base : Nat) : ∀ rs : Regions,
    closeStatements base (rs.map g) = ((closeStatements base rs).1.map g, (closeStatements base rs).2.map g)
  | [] => rfl
  | r :: outer => by
    rw [List.map_cons, closeStatements, closeStatements, List.length_map, hkind, closeStatements_map base outer]
    split <;> rfl

end Map

/-! ### Attaching -/

theorem attach_of_get? {r : Region} {inner outer : Regions} (ref : Reference) (hname : r.name = name)
    (hinner : ∀ q ∈ inner, q.name ≠ name) :
    attach name ref (inner ++ r :: outer) =
      inner ++ {r with references := r.references ++ [ref]} :: outer := by
  induction inner with
  | nil => simp [attach, hname]
  | cons q inner ih =>
    rw [List.cons_append, attach, if_neg (hinner q (List.mem_cons_self ..)),
      ih fun q hq => hinner q (List.mem_cons_of_mem _ hq)]
    rfl

theorem attach_of_not_live (ref : Reference) : ∀ {rs : Regions}, isLive rs name = false →
    attach name ref rs = rs
  | [], _ => rfl
  | r :: outer, h => by
    have hall : ∀ q ∈ r :: outer, q.name ≠ name := fun q hq hqname => by
      rw [isLive_iff.mpr ⟨q, hq, hqname⟩] at h
      cases h
    rw [attach, if_neg (hall r (List.mem_cons_self ..)), attach_of_not_live ref]
    exact Bool.eq_false_iff.mpr fun hlive => by
      obtain ⟨q, hq, hqname⟩ := isLive_iff.mp hlive
      exact hall q (List.mem_cons_of_mem _ hq) hqname

@[simp] theorem length_attach (ref : Reference) : ∀ rs : Regions, (attach name ref rs).length = rs.length
  | [] => rfl
  | r :: outer => by
    unfold attach
    split
    · rfl
    · simp [length_attach ref outer]

/-- Attaching to an open region puts the reference somewhere among the others. -/
theorem refs_attach {r : Region} (ref : Reference) (h : get? rs name = some r) :
    ∃ before after, refs rs = before ++ after ∧ refs (attach name ref rs) = before ++ ref :: after := by
  obtain ⟨inner, outer, rfl, hname, hinner⟩ := get?_eq_some_iff.mp h
  refine ⟨refs inner ++ r.references, refs outer, by simp [refs], ?_⟩
  rw [attach_of_get? ref hname hinner]
  simp [refs]

theorem refsTo_attach_ne (name : String) (ref : Reference) (hne : ref.binding ≠ id) (rs : Regions) :
    refsTo (attach name ref rs) id = refsTo rs id := by
  cases hget : get? rs name with
  | none => rw [attach_of_not_live ref (by simp [isLive, hget])]
  | some r =>
    obtain ⟨before, after, hrefs, hattach⟩ := refs_attach ref hget
    rw [refsTo, refsTo, hrefs, hattach]
    simp [List.filter_append, hne]

/-- Attaching adds the reference to those of its binding and nothing else. -/
theorem refsTo_attach {r : Region} (ref : Reference) (h : get? rs name = some r) :
    ∃ before after, refsTo rs ref.binding = before ++ after ∧
      refsTo (attach name ref rs) ref.binding = before ++ ref :: after := by
  obtain ⟨before, after, hrefs, hattach⟩ := refs_attach ref h
  exact ⟨before.filter fun r => r.binding = ref.binding, after.filter fun r => r.binding = ref.binding,
    by rw [refsTo, hrefs, List.filter_append], by rw [refsTo, hattach]; simp [List.filter_append]⟩

theorem mem_refs_attach {ref q : Reference} (h : q ∈ refs (attach name ref rs)) :
    q ∈ refs rs ∨ q = ref := by
  cases hget : get? rs name with
  | none =>
    rw [attach_of_not_live ref (by simp [isLive, hget])] at h
    exact .inl h
  | some r =>
    obtain ⟨before, after, hrefs, hattach⟩ := refs_attach ref hget
    rw [hattach] at h
    rw [hrefs]
    simp only [List.mem_append, List.mem_cons] at h ⊢
    rcases h with h | rfl | h
    · exact .inl (.inl h)
    · exact .inr rfl
    · exact .inl (.inr h)

/-- A region after an attachment: as before, or the one that the reference went to. -/
theorem split_attach {r : Region} {ref : Reference} (hget : get? rs name = some r)
    {inner outer : Regions} {q : Region} (h : attach name ref rs = inner ++ q :: outer) :
    (∃ inner' outer', rs = inner' ++ q :: outer' ∧ outer'.length = outer.length) ∨
    (∃ inner' outer', rs = inner' ++ r :: outer' ∧ outer'.length = outer.length ∧
      q = {r with references := r.references ++ [ref]}) := by
  obtain ⟨inner₀, outer₀, rfl, hname, hinner⟩ := get?_eq_some_iff.mp hget
  rw [attach_of_get? ref hname hinner] at h
  rcases List.append_eq_append_iff.mp h with ⟨mid, rfl, hmid⟩ | ⟨mid, rfl, hmid⟩
  · cases mid with
    | nil =>
      simp only [List.nil_append, List.cons.injEq] at hmid
      exact .inr ⟨inner₀, outer₀, rfl, by rw [hmid.2], hmid.1.symm⟩
    | cons m mid =>
      simp only [List.cons_append, List.cons.injEq] at hmid
      obtain ⟨rfl, rfl⟩ := hmid
      exact .inl ⟨inner₀ ++ r :: mid, outer, by simp, rfl⟩
  · cases mid with
    | nil =>
      simp only [List.nil_append, List.cons.injEq] at hmid
      exact .inr ⟨inner, outer₀, by simp, by rw [hmid.2], hmid.1⟩
    | cons m mid =>
      simp only [List.cons_append, List.cons.injEq] at hmid
      obtain ⟨rfl, rfl⟩ := hmid
      exact .inl ⟨inner, mid ++ r :: outer₀, by simp, by simp⟩

/-- A reference into an open statement region goes to the regions that evaluation opened. -/
theorem attach_grown {top base : Regions} {region : String} {r : Region} (ref : Reference)
    (hbase : ∀ q ∈ base, q.kind ≠ .statement) (htop : ∀ q ∈ top, q.kind = .statement)
    (hget : get? (top ++ base) region = some r) (hkind : r.kind = .statement) :
    ∃ top', attach region ref (top ++ base) = top' ++ base ∧ ∀ q ∈ top', q.kind = .statement := by
  obtain ⟨inner, outer, hsplit, hname, hinner⟩ := get?_eq_some_iff.mp hget
  rcases List.append_eq_append_iff.mp hsplit with ⟨mid, rfl, hmid⟩ | ⟨mid, rfl, hmid⟩
  · -- The region would be one of those open before.
    have hmem : r ∈ base := by
      rw [hmid]
      simp
    exact absurd hkind (hbase r hmem)
  · cases mid with
    | nil =>
      have hmem : r ∈ base := by
        rw [List.nil_append] at hmid
        rw [← hmid]
        exact List.mem_cons_self ..
      exact absurd hkind (hbase r hmem)
    | cons m mid =>
      simp only [List.cons_append, List.cons.injEq] at hmid
      obtain ⟨rfl, rfl⟩ := hmid
      refine ⟨inner ++ {r with references := r.references ++ [ref]} :: mid, ?_, ?_⟩
      · have hassoc : inner ++ r :: mid ++ base = inner ++ r :: (mid ++ base) := by simp
        rw [hassoc, attach_of_get? ref hname hinner]
        simp
      · intro q hq
        simp only [List.mem_append, List.mem_cons] at hq
        rcases hq with hq | rfl | hq
        · exact htop q (by simp [hq])
        · exact hkind
        · exact htop q (by simp [hq])

/-- What a region after an attachment holds of the references to another binding. -/
theorem split_attach_ne {r : Region} {ref : Reference} (hget : get? rs name = some r)
    {inner outer : Regions} {q : Region} (h : attach name ref rs = inner ++ q :: outer)
    {ref' : Reference} (href : ref' ∈ q.references) (hne : ref' ≠ ref) :
    ∃ inner' q' outer', rs = inner' ++ q' :: outer' ∧ outer'.length = outer.length ∧
      q'.kind = q.kind ∧ ref' ∈ q'.references := by
  rcases split_attach hget h with ⟨inner', outer', hsplit, hlen⟩ | ⟨inner', outer', hsplit, hlen, rfl⟩
  · exact ⟨inner', q, outer', hsplit, hlen, rfl, href⟩
  · refine ⟨inner', r, outer', hsplit, hlen, rfl, ?_⟩
    simpa [hne] using href

/-- A region of a new name stands only where it was put. -/
theorem split_fresh {r : Region} {inner outer : Regions} (h : get? rs r.name = none)
    (hsplit : r :: rs = inner ++ r :: outer) : outer = rs := by
  cases inner with
  | nil => exact (List.cons.inj hsplit).2.symm
  | cons q inner =>
    have hlive : isLive rs r.name = true :=
      isLive_iff.mpr ⟨r, by rw [(List.cons.inj hsplit).2]; simp, rfl⟩
    rw [isLive, h] at hlive
    cases hlive

theorem attach_head (r : Region) (rs : Regions) (ref : Reference) :
    attach r.name ref (r :: rs) = {r with references := r.references ++ [ref]} :: rs :=
  if_pos rfl

/-! ### Looking for a reference -/

theorem referenceTo_eq_none_iff : referenceTo rs id = none ↔ refsTo rs id = [] := by
  simp only [referenceTo, List.findSome?_eq_none_iff, Option.map_eq_none_iff, List.find?_eq_none,
    refsTo, List.filter_eq_nil_iff, mem_refs, beq_iff_eq, decide_eq_true_eq]
  constructor
  · rintro h ref ⟨r, hr, href⟩
    exact h r hr ref href
  · intro h r hr ref href
    exact h ref ⟨r, hr, href⟩

theorem referenceTo_mem {r : Region} {ref : Reference} (h : referenceTo rs id = some (r, ref)) :
    r ∈ rs ∧ ref ∈ r.references ∧ ref.binding = id := by
  obtain ⟨q, hq, hfind⟩ := List.exists_of_findSome?_eq_some h
  obtain ⟨ref', hfind, heq⟩ := Option.map_eq_some_iff.mp hfind
  cases heq
  exact ⟨hq, List.mem_of_find?_eq_some hfind, by simpa using List.find?_some hfind⟩

/-! ### Closing statement regions -/

/-- Regions are closed from the top. -/
theorem append_closeStatements (base : Nat) : ∀ rs : Regions,
    (closeStatements base rs).1 ++ (closeStatements base rs).2 = rs
  | [] => rfl
  | r :: outer => by
    rw [closeStatements]
    split
    · exact congrArg (List.cons r) (append_closeStatements base outer)
    · rfl

theorem closeStatements_append {top base : Regions} (h : ∀ r ∈ top, r.kind = .statement) :
    closeStatements base.length (top ++ base) = (top, base) := by
  induction top with
  | nil =>
    cases base with
    | nil => rfl
    | cons r outer =>
      have hlen : ¬ (r :: outer).length ≤ outer.length := by simp
      simp only [List.nil_append, closeStatements, hlen, false_and, if_false]
  | cons r top ih =>
    have hlen : base.length ≤ (top ++ base).length := by simp
    have htop := ih fun q hq => h q (List.mem_cons_of_mem _ hq)
    simp only [List.cons_append, closeStatements, hlen, h r (List.mem_cons_self ..), true_and, if_true,
      htop]

end Regions

end Linearity
