import Mathlib
import Linearity.Proofs.Replacement

/-! Which types are linear, told without a search.

A type is linear if a chain of steps leads from it to one that is linear on its face: a
parameter that admits linear types, or a type that is declared linear. A step goes from
an instance of a definition in the universe `poly` to an argument or to a field
(`TypeTable.Linear`). Such a chain may pass through ever larger instances of one
definition, while the search of `linearIn` enters no definition twice on its way down.
Yet it misses nothing (`classify_exact`): in a chain that costs the least, where a field
costs more than an argument, no definition is entered twice. For what comes after the
second entry either does not depend on the arguments and could have followed the first,
or goes through one of the arguments and could have started there.

Types that stand for parameters bring a new chain only if they start one themselves. So an
instance of a free type is free, if no linear type stands for a parameter that admits none
(`classify_substitute`). -/
namespace Linearity

/-- A field of a record, or a slot of some variant of a union. -/
inductive Shape.Contains : Shape Span → Slot Span → Prop where
  | field {fields : List (Slot Span)} {slot : Slot Span} : slot ∈ fields → Contains (.record fields) slot
  | slot {variants : List (Variant Span)} {variant : Variant Span} {slot : Slot Span} :
    variant ∈ variants → slot ∈ variant.slots → Contains (.union variants) slot

theorem TypeDef.mem_fields {d : TypeDef Span} {slot : Slot Span} : slot ∈ d.fields ↔ d.shape.Contains slot := by
  unfold fields
  constructor
  · intro h
    cases hshape : d.shape with
    | sealed => simp [hshape] at h
    | record fields => exact .field (by simpa [hshape] using h)
    | union variants =>
      simp only [hshape, List.mem_flatMap] at h
      obtain ⟨variant, hvariant, hslot⟩ := h
      exact .slot hvariant hslot
  · intro h
    cases hshape : d.shape with
    | sealed => rw [hshape] at h; cases h
    | record fields =>
      rw [hshape] at h
      cases h with
      | field hfield => exact hfield
    | union variants =>
      rw [hshape] at h
      cases h with
      | slot hvariant hslot => exact List.mem_flatMap.mpr ⟨_, hvariant, hslot⟩

namespace TypeTable
variable (T : TypeTable) (K : Kinds)

/-- From an instance to an argument that may be linear. -/
inductive ArgStep : Ty → Ty → Prop where
  | intro {name : String} {d : TypeDef Span} {args : List Ty} {p : TypeParam Span} {a : Ty}
    (hd : T.get? name = some d) (hpoly : d.univ = .poly) (harg : (p, a) ∈ d.params.zip args)
    (hadmits : p.kind.admitsLinear = true) : ArgStep (.named name args) a

/-- From an instance to one of its fields or slots. -/
inductive FieldStep : Ty → Ty → Prop where
  | intro {name : String} {d : TypeDef Span} {args : List Ty} {field : Slot Span}
    (hd : T.get? name = some d) (hpoly : d.univ = .poly) (hfield : d.shape.Contains field) :
    FieldStep (.named name args) (field.ty.substitute (d.instantiation args))

/-- Linear on its face. -/
inductive Root : Ty → Prop where
  | param {name : String} {u : Universe} (hu : K.get? name = some u) (hadmits : u.admitsLinear = true) :
    Root (.param name)
  | declared {name : String} {d : TypeDef Span} (args : List Ty) (hd : T.get? name = some d)
    (hlinear : d.univ = .linear) : Root (.named name args)

/-- The least relation that holds of what is linear on its face and follows the steps back. -/
inductive Linear : Ty → Prop where
  | root {t : Ty} : T.Root K t → Linear t
  | arg {t u : Ty} : T.ArgStep t u → Linear u → Linear t
  | field {t u : Ty} : T.FieldStep t u → Linear u → Linear t

/-- What steps lead to. -/
def Reaches : Ty → Ty → Prop := Relation.ReflTransGen fun t u => T.ArgStep t u ∨ T.FieldStep t u

/-- As many arguments as parameters, and none linear where no linear one is admitted. -/
def WellApplied (name : String) (args : List Ty) : Prop :=
  ∀ d, T.get? name = some d → args.length = d.params.length ∧
    ∀ p a, (p, a) ∈ d.params.zip args → p.kind.admitsLinear = false → ¬ T.Linear K a

/-! ### The search -/

/-- The chains that the search follows while the definitions in `visiting` are being expanded. -/
inductive Finds : List String → Ty → Prop where
  | root {visiting : List String} {t : Ty} : T.Root K t → Finds visiting t
  | arg {visiting : List String} {t u : Ty} : T.ArgStep t u → Finds visiting u → Finds visiting t
  | field {visiting : List String} {name : String} {args : List Ty} {u : Ty} : T.FieldStep (.named name args) u →
    name ∉ visiting → Finds (name :: visiting) u → Finds visiting (.named name args)

variable {T K}

theorem argLinearIn_iff {visiting : List String} : ∀ {params : List (TypeParam Span)} {args : List Ty},
    T.argLinearIn K visiting params args = true ↔
      ∃ p a, (p, a) ∈ params.zip args ∧ p.kind.admitsLinear = true ∧ T.linearIn K visiting a = true
  | [], _ => by simp [argLinearIn]
  | _ :: _, [] => by simp [argLinearIn]
  | q :: params, b :: args => by
    rw [argLinearIn, Bool.or_eq_true, Bool.and_eq_true, argLinearIn_iff]
    simp only [List.zip_cons_cons, List.mem_cons, Prod.mk.injEq]
    constructor
    · rintro (⟨hadmits, hlin⟩ | ⟨p, a, hmem, hadmits, hlin⟩)
      · exact ⟨q, b, .inl ⟨rfl, rfl⟩, hadmits, hlin⟩
      · exact ⟨p, a, .inr hmem, hadmits, hlin⟩
    · rintro ⟨p, a, ⟨rfl, rfl⟩ | hmem, hadmits, hlin⟩
      · exact .inl ⟨hadmits, hlin⟩
      · exact .inr ⟨p, a, hmem, hadmits, hlin⟩

theorem linearIn_root {visiting : List String} {t : Ty} (h : T.Root K t) : T.linearIn K visiting t = true := by
  cases h with
  | param hu hadmits => simp [linearIn, hu, hadmits]
  | declared args hd hlinear => rw [linearIn_named, hd]; simp [hlinear]

theorem linearIn_poly {visiting : List String} {name : String} {d : TypeDef Span} {args : List Ty}
    (hd : T.get? name = some d) (hpoly : d.univ = .poly) :
    T.linearIn K visiting (.named name args) = true ↔ T.argLinearIn K visiting d.params args = true ∨
      name ∉ visiting ∧ ∃ field ∈ d.fields,
        T.linearIn K (name :: visiting) (field.ty.substitute (d.instantiation args)) = true := by
  rw [linearIn_named, hd]
  simp only [hpoly, Bool.or_eq_true]
  by_cases hv : name ∈ visiting <;> simp [hv]

theorem linearIn_of_finds {visiting : List String} {t : Ty} (h : T.Finds K visiting t) :
    T.linearIn K visiting t = true := by
  induction h with
  | root h => exact linearIn_root h
  | arg hstep _ ih =>
    obtain ⟨hd, hpoly, harg, hadmits⟩ := hstep
    exact (linearIn_poly hd hpoly).mpr (.inl (argLinearIn_iff.mpr ⟨_, _, harg, hadmits, ih⟩))
  | field hstep hv _ ih =>
    obtain ⟨hd, hpoly, hfield⟩ := hstep
    exact (linearIn_poly hd hpoly).mpr (.inr ⟨hv, _, TypeDef.mem_fields.mpr hfield, ih⟩)

theorem finds_of_linearIn (visiting : List String) (t : Ty) :
    T.linearIn K visiting t = true → T.Finds K visiting t := by
  induction visiting, t using linearIn.induct T _ (fun visiting params args =>
    ∀ p a, (p, a) ∈ params.zip args → T.linearIn K visiting a = true → T.Finds K visiting a) with
  | case1 | case3 | case4 => simp [linearIn]
  | case2 visiting name =>
    intro h
    rw [linearIn, Option.any_eq_true] at h
    obtain ⟨u, hu, hadmits⟩ := h
    exact .root (.param hu hadmits)
  | case5 visiting name args hd => simp [linearIn_named, hd]
  | case6 visiting name args d hd huniv => simp [linearIn_named, hd, huniv]
  | case7 visiting name args d hd huniv => simp [linearIn_named, hd, huniv]
  | case8 visiting name args d hd huniv => exact fun _ => .root (.declared args hd huniv)
  | case9 visiting name args d hd hpoly hargs hfields =>
    intro h
    rcases (linearIn_poly hd hpoly).mp h with h | ⟨hv, field, hfield, h⟩
    · obtain ⟨p, a, harg, hadmits, hlin⟩ := argLinearIn_iff.mp h
      exact .arg ⟨hd, hpoly, harg, hadmits⟩ (hargs p a harg hlin)
    · exact .field ⟨hd, hpoly, TypeDef.mem_fields.mp hfield⟩ hv (hfields hv field h)
  | case10 visiting p params a args ha hargs q b hmem hlin =>
    rcases List.mem_cons.mp hmem with heq | hmem
    · obtain ⟨rfl, rfl⟩ := Prod.mk.inj heq
      exact ha hlin
    · exact hargs q b hmem hlin
  | case11 visiting params args hnone q b hmem =>
    cases params with
    | nil => cases hmem
    | cons p params =>
      cases args with
      | nil => cases hmem
      | cons a args => exact (hnone p params a args rfl rfl).elim

/-- The search computes `Finds`. -/
theorem linearIn_iff {visiting : List String} {t : Ty} : T.linearIn K visiting t = true ↔ T.Finds K visiting t :=
  ⟨finds_of_linearIn visiting t, linearIn_of_finds⟩

theorem Finds.linear {visiting : List String} {t : Ty} (h : T.Finds K visiting t) : T.Linear K t := by
  induction h with
  | root h => exact .root h
  | arg hstep _ ih => exact .arg hstep ih
  | field hstep _ _ ih => exact .field hstep ih

/-! ### More and less to search -/

/-- The search finds more the fewer definitions are being expanded. -/
theorem Finds.forget {visiting visiting' : List String} {t : Ty} (h : T.Finds K visiting t)
    (hsub : visiting' ⊆ visiting) : T.Finds K visiting' t := by
  induction h generalizing visiting' with
  | root hroot => exact .root hroot
  | arg hstep _ ih => exact .arg hstep (ih hsub)
  | field hstep hv _ ih => exact .field hstep (fun hmem => hv (hsub hmem)) (ih (List.cons_subset_cons _ hsub))

theorem exists_zip_of_forall₂ {α : Type} {R : Ty → Ty → Prop} {args args' : List Ty} (h : List.Forall₂ R args args') :
    ∀ {params : List α} {p : α} {a : Ty}, (p, a) ∈ params.zip args → ∃ a', (p, a') ∈ params.zip args' ∧ R a a' := by
  induction h with
  | nil =>
    intro params p a hmem
    rw [List.zip_nil_right] at hmem
    cases hmem
  | @cons b b' args args' hb _ ih =>
    intro params p a hmem
    cases params with
    | nil => cases hmem
    | cons q params =>
      rcases List.mem_cons.mp hmem with heq | hmem
      · obtain ⟨rfl, rfl⟩ := Prod.mk.inj heq
        exact ⟨b', List.mem_cons_self, hb⟩
      · obtain ⟨a', hmem', ha'⟩ := ih hmem
        exact ⟨a', List.mem_cons_of_mem _ hmem', ha'⟩

section Free
variable {K' : Kinds} (hK' : ∀ {name k}, K'.get? name = some k → k.admitsLinear = false)

include hK'

/-- What is found where no parameter admits linear types is found in any scope. -/
theorem Finds.weaken {visiting : List String} {t : Ty} (h : T.Finds K' visiting t) : T.Finds K visiting t := by
  induction h with
  | root hroot =>
    cases hroot with
    | param hk hadmits => simp [hK' hk] at hadmits
    | declared args hd hlinear => exact .root (.declared args hd hlinear)
  | arg hstep _ ih => exact .arg hstep ih
  | field hstep hv _ ih => exact .field hstep hv ih

/-- It is found also with parts replaced, if they are found where the parts were. -/
theorem Finds.replace {P : Ty → Ty → Prop}
    (hP : ∀ {visiting a b}, P a b → T.Finds K' visiting a → T.Finds K visiting b) {visiting : List String} {t : Ty}
    (h : T.Finds K' visiting t) : ∀ {u : Ty}, Ty.Replaces P t u → T.Finds K visiting u := by
  induction h with
  | root hroot =>
    intro u hrep
    cases hrep with
    | part hab => exact hP hab (.root hroot)
    | param =>
      obtain ⟨hk, hadmits⟩ := hroot
      simp [hK' hk] at hadmits
    | named name hargs =>
      cases hroot with
      | declared _ hd hlinear => exact .root (.declared _ hd hlinear)
    | _ => cases hroot
  | arg hstep hfinds ih =>
    intro u hrep
    cases hrep with
    | part hab => exact hP hab (.arg hstep hfinds)
    | named name hargs =>
      obtain ⟨hd, hpoly, harg, hadmits⟩ := hstep
      obtain ⟨a', harg', ha'⟩ := exists_zip_of_forall₂ hargs harg
      exact .arg ⟨hd, hpoly, harg', hadmits⟩ (ih ha')
    | _ => cases hstep
  | field hstep hv hfinds ih =>
    intro u hrep
    cases hrep with
    | part hab => exact hP hab (.field hstep hv hfinds)
    | named name hargs =>
      obtain @⟨_, d, _, field, hd, hpoly, hfield⟩ := hstep
      exact .field ⟨hd, hpoly, hfield⟩ hv (ih (d.replaces_field hargs field))

/-- What is found in an instance is found in the type itself, where a parameter admits linear
types or else does not stand for one. -/
theorem Finds.of_substitute {s : Subst}
    (hs : ∀ {name a}, s.get? name = some a → (K.get? name).any Universe.admitsLinear = false → ¬ T.Finds K' [] a)
    {visiting : List String} {t : Ty} (h : T.Finds K' visiting (t.substitute s)) : T.Finds K visiting t := by
  refine h.replace hK' (fun {visiting a b} hpart ha => ?_) (Ty.replaces_image s t)
  obtain ⟨name, hname, rfl⟩ := hpart
  cases hadmits : (K.get? name).any Universe.admitsLinear with
  | true =>
    rw [Option.any_eq_true] at hadmits
    obtain ⟨k, hk, hadmits⟩ := hadmits
    exact .root (.param hk hadmits)
  | false => exact absurd (ha.forget (List.nil_subset _)) (hs hname hadmits)

end Free

theorem classify_eq_free {t : Ty} : T.classify K t = .free ↔ ¬ T.Finds K [] t := by
  rw [← linearIn_iff]
  cases h : T.linearIn K [] t <;> simp [classify, isLinear, h]

/-! ### Chains of least cost -/

variable (T K) in
/-- A chain of a given cost. A field costs two and an argument one, so that to start from
an argument is cheaper than to meet it behind a field. -/
inductive LinearBy : Nat → Ty → Prop where
  | root {t : Ty} : T.Root K t → LinearBy 0 t
  | arg {n : Nat} {t u : Ty} : T.ArgStep t u → LinearBy n u → LinearBy (n + 1) t
  | field {n : Nat} {t u : Ty} : T.FieldStep t u → LinearBy n u → LinearBy (n + 2) t

theorem LinearBy.linear {n : Nat} {t : Ty} (h : T.LinearBy K n t) : T.Linear K t := by
  induction h with
  | root h => exact .root h
  | arg hstep _ ih => exact .arg hstep ih
  | field hstep _ ih => exact .field hstep ih

theorem exists_linearBy {t : Ty} (h : T.Linear K t) : ∃ n, T.LinearBy K n t := by
  induction h with
  | root h => exact ⟨0, .root h⟩
  | arg hstep _ ih =>
    obtain ⟨n, hn⟩ := ih
    exact ⟨n + 1, .arg hstep hn⟩
  | field hstep _ ih =>
    obtain ⟨n, hn⟩ := ih
    exact ⟨n + 2, .field hstep hn⟩

/-- A chain survives the replacement of parts, unless one of the parts starts a chain. -/
theorem LinearBy.replace {P : Ty → Ty → Prop} {n : Nat} {t : Ty} (h : T.LinearBy K n t) :
    ∀ {t' : Ty}, Ty.Replaces P t t' → T.LinearBy K n t' ∨ ∃ a b, P a b ∧ ∃ m ≤ n, T.LinearBy K m a := by
  induction h with
  | root hroot =>
    intro t' hrep
    cases hrep with
    | part hab => exact .inr ⟨_, _, hab, 0, le_rfl, .root hroot⟩
    | prim | ref | region => cases hroot
    | param => exact .inl (.root hroot)
    | named =>
      cases hroot with
      | declared _ hd hlinear => exact .inl (.root (.declared _ hd hlinear))
  | @arg n t u hstep hby ih =>
    intro t' hrep
    obtain ⟨hd, hpoly, harg, hadmits⟩ := hstep
    cases hrep with
    | part hab => exact .inr ⟨_, _, hab, n + 1, le_rfl, .arg ⟨hd, hpoly, harg, hadmits⟩ hby⟩
    | named _ hargs =>
      obtain ⟨u', harg', hrep'⟩ := exists_zip_of_forall₂ hargs harg
      rcases ih hrep' with hby' | ⟨a, b, hab, m, hm, ha⟩
      · exact .inl (.arg ⟨hd, hpoly, harg', hadmits⟩ hby')
      · exact .inr ⟨a, b, hab, m, hm.trans (Nat.le_succ n), ha⟩
  | @field n t u hstep hby ih =>
    intro t' hrep
    obtain ⟨hd, hpoly, hfield⟩ := hstep
    cases hrep with
    | part hab => exact .inr ⟨_, _, hab, n + 2, le_rfl, .field ⟨hd, hpoly, hfield⟩ hby⟩
    | named _ hargs =>
      rcases ih (TypeDef.replaces_field _ hargs _) with hby' | ⟨a, b, hab, m, hm, ha⟩
      · exact .inl (.field ⟨hd, hpoly, hfield⟩ hby')
      · exact .inr ⟨a, b, hab, m, hm.trans (Nat.le_add_right n 2), ha⟩

/-- If the cheapest chain from an instance starts with a field, any other instance of the
definition is linear at the same cost. -/
theorem LinearBy.of_field {name : String} {d : TypeDef Span} {field : Slot Span} {args args' : List Ty} {n : Nat}
    (hd : T.get? name = some d) (hpoly : d.univ = .poly) (hfield : d.shape.Contains field)
    (hby : T.LinearBy K n (field.ty.substitute (d.instantiation args)))
    (hmin : ∀ m, T.LinearBy K m (.named name args) → n + 2 ≤ m)
    (hfree : ∀ p a, (p, a) ∈ d.params.zip args → p.kind.admitsLinear = false → ∀ m ≤ n, ¬ T.LinearBy K m a)
    (hlen : args.length = d.params.length) (hlen' : args'.length = d.params.length) :
    T.LinearBy K (n + 2) (.named name args') := by
  -- The parts that differ between the two instances are arguments.
  have hparts : List.Forall₂ (Ty.Replaces fun a _ => ∃ p, (p, a) ∈ d.params.zip args) args args' := by
    rw [List.forall₂_iff_zip]
    refine ⟨hlen.trans hlen'.symm, fun {a b} hab => .part ?_⟩
    have hmem : a ∈ (d.params.zip args).map Prod.snd := by
      rw [List.map_snd_zip hlen.le]
      exact (List.of_mem_zip hab).1
    obtain ⟨⟨p, _⟩, harg, rfl⟩ := List.mem_map.mp hmem
    exact ⟨p, harg⟩
  rcases hby.replace (TypeDef.replaces_field d hparts field) with hby' | ⟨a, _, ⟨p, harg⟩, m, hm, ha⟩
  · exact .field ⟨hd, hpoly, hfield⟩ hby'
  · cases hadmits : p.kind.admitsLinear with
    | true =>
      have := hmin _ (.arg ⟨hd, hpoly, harg, hadmits⟩ ha)
      omega
    | false => exact absurd ha (hfree p a harg hadmits m hm)

variable (T) in
/-- As many arguments as parameters. -/
def Saturated (name : String) (args : List Ty) : Prop :=
  ∀ d, T.get? name = some d → args.length = d.params.length

variable (T K) in
/-- No chain from an argument that must be free is cheaper than `n`. -/
def FreeBelow (n : Nat) (name : String) (args : List Ty) : Prop :=
  ∀ d, T.get? name = some d → ∀ p a, (p, a) ∈ d.params.zip args → p.kind.admitsLinear = false →
    ∀ m < n, ¬ T.LinearBy K m a

/-- The search follows a cheapest chain: what is being expanded is dearer than all that is left. -/
theorem LinearBy.finds {n : Nat} {t : Ty} (h : T.LinearBy K n t) : ∀ {visiting : List String},
    (∀ m, T.LinearBy K m t → n ≤ m) →
    (∀ name args, T.Reaches t (.named name args) → T.Saturated name args ∧ T.FreeBelow K n name args) →
    (∀ name ∈ visiting, ∃ args, T.Saturated name args ∧ ∀ m, T.LinearBy K m (.named name args) → n < m) →
    T.Finds K visiting t := by
  induction h with
  | root hroot => exact fun _ _ _ => .root hroot
  | @arg n t u hstep _ ih =>
    intro visiting hmin hwell hdear
    refine .arg hstep (ih (fun m hm => ?_) (fun name args hreach => ?_) fun name hname => ?_)
    · exact Nat.le_of_succ_le_succ (hmin (m + 1) (.arg hstep hm))
    · obtain ⟨hlen, hfree⟩ := hwell name args (.head (.inl hstep) hreach)
      exact ⟨hlen, fun d hd p a harg hadmits m hm => hfree d hd p a harg hadmits m (hm.trans (Nat.lt_succ_self n))⟩
    · obtain ⟨args, hlen, hlt⟩ := hdear name hname
      exact ⟨args, hlen, fun m hm => Nat.lt_of_succ_lt (hlt m hm)⟩
  | @field n t u hstep hby ih =>
    intro visiting hmin hwell hdear
    obtain @⟨name, d, args, field, hd, hpoly, hfield⟩ := hstep
    obtain ⟨hself, hfree⟩ := hwell name args .refl
    have hfresh : name ∉ visiting := by
      intro hname
      obtain ⟨args', hargs', hlt⟩ := hdear name hname
      have hfree' : ∀ p a, (p, a) ∈ d.params.zip args → p.kind.admitsLinear = false → ∀ m ≤ n, ¬ T.LinearBy K m a :=
        fun p a harg hadmits m hm => hfree d hd p a harg hadmits m (Nat.lt_add_right 1 (Nat.lt_succ_of_le hm))
      exact (hlt _ (hby.of_field hd hpoly hfield hmin hfree' (hself d hd) (hargs' d hd))).false
    refine .field ⟨hd, hpoly, hfield⟩ hfresh (ih (fun m hm => ?_) (fun name args hreach => ?_) ?_)
    · exact Nat.le_of_add_le_add_right (hmin (m + 2) (.field ⟨hd, hpoly, hfield⟩ hm))
    · obtain ⟨hlen, hfree⟩ := hwell name args (.head (.inr ⟨hd, hpoly, hfield⟩) hreach)
      exact ⟨hlen, fun d hd p a harg hadmits m hm => hfree d hd p a harg hadmits m (Nat.lt_add_right 2 hm)⟩
    · intro entered hentered
      rcases List.mem_cons.mp hentered with rfl | hentered
      · exact ⟨args, hself, fun m hm => Nat.lt_of_succ_lt (hmin m hm)⟩
      · obtain ⟨args', hargs', hlt⟩ := hdear entered hentered
        exact ⟨args', hargs', fun m hm => (Nat.le_add_right n 2).trans_lt (hlt m hm)⟩

theorem finds_of_linear {t : Ty} (hwell : ∀ name args, T.Reaches t (.named name args) → T.WellApplied K name args)
    (h : T.Linear K t) : T.Finds K [] t := by
  classical
  have hex := exists_linearBy h
  refine (Nat.find_spec hex).finds (fun m hm => Nat.find_min' hex hm) (fun name args hreach => ?_) (by simp)
  have happlied := hwell name args hreach
  exact ⟨fun d hd => (happlied d hd).1, fun d hd p a harg hadmits _ _ ha => (happlied d hd).2 p a harg hadmits ha.linear⟩

/-- **Classification is exact.** Where every instance that can be reached has as many
arguments as its definition has parameters, and none that is linear where that is not
admitted, a type is classified linear if and only if it is. -/
theorem classify_exact (T : TypeTable) (K : Kinds) (t : Ty)
    (hwell : ∀ name args, T.Reaches t (.named name args) → T.WellApplied K name args) :
    T.classify K t = .linear ↔ T.Linear K t := by
  have hclass : T.classify K t = .linear ↔ T.linearIn K [] t = true := by
    unfold classify isLinear
    split <;> simp_all
  rw [hclass, linearIn_iff]
  exact ⟨Finds.linear, finds_of_linear hwell⟩

/-- An instance of `Nest` has a slot for a larger one, and in another variant one for a guard that is
linear. -/
def nests : TypeTable := .ofDefs [
  ⟨⟨1, 1⟩, ⟨⟨1, 2⟩, "Guard"⟩, [], .linear, .sealed⟩,
  ⟨⟨2, 1⟩, ⟨⟨2, 2⟩, "Nest"⟩, [⟨⟨2, 3⟩, ⟨⟨2, 3⟩, "A"⟩, .poly⟩], .poly, .union [
    ⟨⟨3, 1⟩, ⟨⟨3, 2⟩, "Inner"⟩, [⟨⟨4, 1⟩, ⟨⟨4, 1⟩, "inner"⟩, .named "Nest" [.named "Nest" [.param "A"]]⟩]⟩,
    ⟨⟨5, 1⟩, ⟨⟨5, 2⟩, "Outer"⟩, [⟨⟨6, 1⟩, ⟨⟨6, 1⟩, "guard"⟩, .named "Guard" []⟩]⟩]⟩]

/-- Nests around an `Int`. -/
def nested : Nat → Ty
  | 0 => .int
  | n + 1 => .named "Nest" [nested n]

theorem step_nested {n : Nat} {t : Ty} (h : nests.ArgStep (nested n) t ∨ nests.FieldStep (nested n) t) :
    t = .named "Guard" [] ∨ ∃ m, t = nested m := by
  cases n with
  | zero => rcases h with h | h <;> cases h
  | succ n =>
    rcases h with ⟨hd, _, harg, _⟩ | ⟨hd, _, hfield⟩
    · cases hd
      simp only [List.zip_cons_cons, List.zip_nil_left, List.mem_singleton, Prod.mk.injEq] at harg
      exact .inr ⟨n, harg.2⟩
    · cases hd
      cases hfield with
      | slot hvariant hslot =>
        simp only [List.mem_cons, List.not_mem_nil, or_false] at hvariant
        rcases hvariant with rfl | rfl <;> cases List.mem_singleton.mp hslot
        · exact .inr ⟨n + 2, rfl⟩
        · exact .inl rfl

theorem reaches_nested {n : Nat} {t : Ty} (h : nests.Reaches (nested n) t) :
    t = .named "Guard" [] ∨ ∃ m, t = nested m := by
  induction h with
  | refl => exact .inr ⟨n, rfl⟩
  | tail _ hstep ih =>
    rcases ih with rfl | ⟨m, rfl⟩
    · rcases hstep with ⟨hd, hpoly, _, _⟩ | ⟨hd, hpoly, _⟩ <;> cases hd <;> cases hpoly
    · exact step_nested hstep

/-- A nest is linear for the guard that may be in it. -/
theorem classify_exact_nested :
    (∀ name args, nests.Reaches (nested 1) (.named name args) → nests.WellApplied .empty name args) ∧
      nests.classify .empty (nested 1) = .linear ∧ nests.Linear .empty (nested 1) := by
  have hwell : ∀ name args, nests.Reaches (nested 1) (.named name args) → nests.WellApplied .empty name args := by
    intro name args hreach d hd
    rcases reaches_nested hreach with heq | ⟨m, heq⟩
    · cases heq
      cases hd
      simp
    · cases m with
      | zero => cases heq
      | succ m =>
        cases heq
        cases hd
        simp [Universe.admitsLinear]
  have hclass : nests.classify .empty (nested 1) = .linear := by cbv
  exact ⟨hwell, hclass, (classify_exact nests .empty (nested 1) hwell).mp hclass⟩

/-! ### Instances -/

theorem admitsLinear_empty {name : String} {k : Universe} (h : (Dict.empty : Kinds).get? name = some k) :
    k.admitsLinear = false := by
  cases h

/-- **Instances of free types are free** if the parameters that admit no linear type stand for
none, and only then. Nothing is asked of the table: its definitions may contain each other and
ever larger instances of themselves, take too few or too many arguments, and mention parameters
that are not theirs. -/
theorem classify_substitute (T : TypeTable) (K : Kinds) (s : Subst) :
    (∀ t, T.classify K t = .free → T.classify .empty (t.substitute s) = .free) ↔
      ∀ name a, s.get? name = some a → (K.get? name).any Universe.admitsLinear = false →
        T.classify .empty a = .free := by
  constructor
  · intro h name a hname hkind
    have hparam := h (.param name) (by simp [classify, isLinear, linearIn, hkind])
    rwa [Ty.substitute, hname] at hparam
  · intro hs t ht
    rw [classify_eq_free] at ht ⊢
    intro hfinds
    exact ht (hfinds.of_substitute admitsLinear_empty fun hname hkind => classify_eq_free.mp (hs _ _ hname hkind))

/-- Two definitions that contain ever larger instances of each other. One mentions a parameter
`P` that is not its own, and leaves the other without an argument. -/
def tangle : TypeTable := .ofDefs [
  ⟨⟨1, 1⟩, ⟨⟨1, 2⟩, "File"⟩, [], .linear, .sealed⟩,
  ⟨⟨2, 1⟩, ⟨⟨2, 2⟩, "Warp"⟩, [⟨⟨2, 3⟩, ⟨⟨2, 3⟩, "A"⟩, .poly⟩], .poly, .record [
    ⟨⟨3, 1⟩, ⟨⟨3, 1⟩, "item"⟩, .param "A"⟩,
    ⟨⟨4, 1⟩, ⟨⟨4, 1⟩, "weft"⟩, .named "Weft" [.named "Warp" [.param "A"]]⟩]⟩,
  ⟨⟨5, 1⟩, ⟨⟨5, 2⟩, "Weft"⟩, [⟨⟨5, 3⟩, ⟨⟨5, 3⟩, "B"⟩, .free⟩], .poly, .record [
    ⟨⟨6, 1⟩, ⟨⟨6, 1⟩, "stray"⟩, .param "P"⟩,
    ⟨⟨7, 1⟩, ⟨⟨7, 1⟩, "bare"⟩, .named "Warp" []⟩,
    ⟨⟨8, 1⟩, ⟨⟨8, 1⟩, "warp"⟩, .named "Warp" [.named "Weft" [.param "B"]]⟩]⟩]

/-- One more argument than `Warp` has parameters, and that a reference to what may be linear. -/
def tangled : Ty := .named "Warp" [.param "P", .ref .read "R" (.param "Q")]

def tangledKinds : Kinds := ⟨[("P", .free), ("Q", .linear)]⟩

def tangledImages : Subst := ⟨[("P", .named "Weft" [.int]), ("Q", .named "File" [])]⟩

theorem classify_substitute_tangle : tangle.classify tangledKinds tangled = .free ∧
    tangle.classify .empty (.named "File" []) = .linear ∧
    tangle.classify .empty (tangled.substitute tangledImages) = .free := by
  have himages : ∀ name a, tangledImages.get? name = some a →
      (tangledKinds.get? name).any Universe.admitsLinear = false → tangle.classify .empty a = .free := by
    intro name a hname hkind
    rcases List.mem_cons.mp (Dict.get?_mem hname) with heq | hmem
    · cases heq
      cbv
    · cases List.mem_singleton.mp hmem
      cases hkind
  have hfree : tangle.classify tangledKinds tangled = .free := by cbv
  exact ⟨hfree, by cbv, (classify_substitute tangle tangledKinds tangledImages).mpr himages tangled hfree⟩

end TypeTable

end Linearity
