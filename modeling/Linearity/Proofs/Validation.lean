import Mathlib
import Linearity.Proofs.Classify

/-! What is declared free holds nothing linear.

A definition that is declared free is checked once, field by field, with its parameters
for unknown types: a field must not be linear even if a linear type stands for every
parameter that admits one. That is one step into the definition, and says nothing of what
lies behind: a field may be an instance of a definition in the universe `poly`, or of
another that is declared free, and so on without end. Yet if every definition passes,
nothing linear can be reached from an instance of a free one, whatever its arguments are
(`validate_sound`).

Going in from the last free definition on the way, every step leads through `poly`; so
what is linear behind such steps makes the field linear that they start at
(`Linear.field`). The search finds that out (`finds_of_parts`), and would have found it
with the parameters in place (`finds_of_instance`). -/
namespace Linearity

theorem Dict.find_mapValues {β γ : Type} (f : β → γ) (name : String) (entries : List (String × β)) :
    find name (entries.map fun e => (e.1, f e.2)) = (find name entries).map f := by
  induction entries with
  | nil => rfl
  | cons e rest ih =>
    rw [List.map_cons, find, find, ih]
    by_cases hname : e.1 = name <;> cases find name rest <;> simp [hname]

theorem Dict.find_of_mem {β : Type} {name : String} {value : β} : ∀ {entries : List (String × β)},
    (entries.map Prod.fst).Nodup → (name, value) ∈ entries → find name entries = some value
  | e :: rest, hnodup, hmem => by
    rw [List.map_cons, List.nodup_cons] at hnodup
    rw [find]
    rcases List.mem_cons.mp hmem with rfl | hmem
    · have hnone : find name rest = none := by
        rw [Option.eq_none_iff_forall_ne_some]
        intro v hv
        exact hnodup.1 (List.mem_map.mpr ⟨(name, v), find_mem hv, rfl⟩)
      simp [hnone]
    · rw [find_of_mem hnodup.2 hmem, Option.some_or]

namespace TypeTable
variable (T : TypeTable)

/-- From an instance to one of its fields or slots, unless it is declared linear. -/
inductive Holds : Ty → Ty → Prop where
  | intro {name : String} {d : TypeDef Span} {args : List Ty} {field : Slot Span}
    (hd : T.get? name = some d) (huniv : d.univ = .free ∨ d.univ = .poly) (hfield : d.shape.Contains field) :
    Holds (.named name args) (field.ty.substitute (d.instantiation args))

/-- From an instance to an argument or to a field. -/
inductive Part : Ty → Ty → Prop where
  | arg {name : String} {d : TypeDef Span} {args : List Ty} {a : Ty} (hd : T.get? name = some d) (ha : a ∈ args) :
    Part (.named name args) a
  | field {t u : Ty} : T.Holds t u → Part t u

/-- The arguments and the fields of an instance. -/
def parts : Ty → List Ty
  | .named name args =>
    match T.get? name with
    | none => []
    | some d =>
      args ++ if d.univ = .free ∨ d.univ = .poly then
        d.fields.map fun field => field.ty.substitute (d.instantiation args)
      else []
  | _ => []

/-- As many arguments as parameters, and free ones where that is asked. -/
def Fits (name : String) (args : List Ty) : Prop :=
  ∀ d, T.get? name = some d → args.length = d.params.length ∧
    ∀ p a, (p, a) ∈ d.params.zip args → p.kind.admitsLinear = false → T.classify .empty a = .free

variable {T} {K : Kinds}

theorem mem_parts {t u : Ty} : u ∈ T.parts t ↔ T.Part t u := by
  constructor
  · intro h
    cases t with
    | named name args =>
      rw [parts] at h
      cases hd : T.get? name with
      | none => simp [hd] at h
      | some d =>
        simp only [hd, List.mem_append] at h
        rcases h with h | h
        · exact .arg hd h
        · split at h
          · rename_i huniv
            obtain ⟨field, hfield, rfl⟩ := List.mem_map.mp h
            exact .field ⟨hd, huniv, TypeDef.mem_fields.mp hfield⟩
          · cases h
    | _ => cases h
  · rintro (⟨hd, ha⟩ | ⟨hd, huniv, hfield⟩)
    · simp [parts, hd, ha]
    · simp only [parts, hd, huniv, if_true, List.mem_append]
      exact .inr (List.mem_map_of_mem (TypeDef.mem_fields.mpr hfield))

theorem Part.of_reaches {t u : Ty} (h : T.Reaches t u) : Relation.ReflTransGen T.Part t u := by
  refine Relation.ReflTransGen.mono (fun t u hstep => ?_) _ _ h
  rcases hstep with ⟨hd, _, harg, _⟩ | ⟨hd, hpoly, hfield⟩
  · exact .arg hd (List.of_mem_zip harg).2
  · exact .field ⟨hd, .inr hpoly, hfield⟩

/-- Where every instance fits, the search finds all that is linear. That an argument is free
is known by the search alone here, and so this is an induction on the cost of a chain: from
an argument that must be free no chain is cheaper than the one at hand. -/
theorem finds_of_parts {t : Ty}
    (hfits : ∀ name args, Relation.ReflTransGen T.Part t (.named name args) → T.Fits name args)
    (h : T.Linear .empty t) : T.Finds .empty [] t := by
  classical
  have hall : ∀ n u, Relation.ReflTransGen T.Part t u → T.LinearBy .empty n u → T.Finds .empty [] u := by
    intro n
    induction n using Nat.strongRecOn with
    | ind n ih =>
      intro u hu hn
      have hex : ∃ m, T.LinearBy .empty m u := ⟨n, hn⟩
      have hleast : Nat.find hex ≤ n := Nat.find_min' hex hn
      refine (Nat.find_spec hex).finds (fun m hm => Nat.find_min' hex hm) (fun name args hreach => ?_) (by simp)
      have hinside := hu.trans (Part.of_reaches hreach)
      have happlied := hfits name args hinside
      refine ⟨fun d hd => (happlied d hd).1, fun d hd p a harg hadmits m hm ha => ?_⟩
      have harg' := hinside.tail (.arg hd (List.of_mem_zip harg).2)
      exact classify_eq_free.mp ((happlied d hd).2 p a harg hadmits) (ih m (by omega) a harg' ha)
  obtain ⟨n, hn⟩ := exists_linearBy h
  exact hall n t .refl hn

/-- An argument is found under the name of a parameter whose kind is the one in scope, also
where a later parameter takes the name of an earlier one. -/
theorem exists_param_of_argument {d : TypeDef Span} {args : List Ty} {name : String} {a : Ty}
    (hlen : args.length = d.params.length) (h : (d.instantiation args).get? name = some a) :
    ∃ p, (p, a) ∈ d.params.zip args ∧ (Kinds.ofParams d.params).get? name = some p.kind := by
  let entries := (d.params.zip args).map fun x => (x.1.name.name, x)
  have hargs : (d.instantiation args).entries = entries.map fun e => (e.1, e.2.2) := by
    simp [TypeDef.instantiation, entries, List.zip_map_left, Prod.map_def]
  have hkinds : (Kinds.ofParams d.params).entries = entries.map fun e => (e.1, e.2.1.kind) := by
    simp only [Kinds.ofParams, entries, List.map_map, Function.comp_def]
    nth_rewrite 1 [← List.map_fst_zip hlen.ge]
    rw [List.map_map]
    rfl
  rw [Dict.get?, hargs, Dict.find_mapValues, Option.map_eq_some_iff] at h
  obtain ⟨⟨p, b⟩, hentry, rfl⟩ := h
  have hkind := Dict.find_mapValues (fun x : TypeParam Span × Ty => x.1.kind) name entries
  refine ⟨p, ?_, by rw [Dict.get?, hkinds, hkind, hentry]; rfl⟩
  obtain ⟨x, hx, heq⟩ := List.mem_map.mp (Dict.find_mem hentry)
  cases heq
  exact hx

/-- What is found in a field of an instance is found in the field itself, where the parameters
stand for themselves. -/
theorem finds_of_instance {d : TypeDef Span} {args : List Ty} (hlen : args.length = d.params.length)
    (hfree : ∀ p a, (p, a) ∈ d.params.zip args → p.kind.admitsLinear = false → T.classify .empty a = .free)
    {t : Ty} (h : T.Finds .empty [] (t.substitute (d.instantiation args))) :
    T.Finds (.ofParams d.params) [] t := by
  refine h.of_substitute admitsLinear_empty fun hname hkind => ?_
  obtain ⟨p, harg, hp⟩ := exists_param_of_argument hlen hname
  rw [hp] at hkind
  exact classify_eq_free.mp (hfree p _ harg hkind)

/-! ### Definitions that pass -/

section Defs
variable {defs : List (TypeDef Span)}

theorem mem_of_get? {name : String} {d : TypeDef Span} (h : (ofDefs defs).get? name = some d) : d ∈ defs := by
  obtain ⟨d', hd', heq⟩ := List.mem_map.mp (Dict.get?_mem h)
  cases heq
  exact hd'

theorem get?_of_mem (hnames : (defs.map fun d => d.name.name).Nodup) {d : TypeDef Span} (hd : d ∈ defs) :
    (ofDefs defs).get? d.name.name = some d := by
  refine Dict.find_of_mem ?_ (List.mem_map_of_mem hd)
  rwa [ofDefs, List.map_map]

/-- A field of a free definition is not linear, if the definition passes. -/
theorem not_finds_of_valid (hvalid : (ofDefs defs).validate defs = []) {d : TypeDef Span} (hd : d ∈ defs)
    (hfree : d.univ = .free) {field : Slot Span} (hfield : d.shape.Contains field) :
    ¬ (ofDefs defs).Finds (.ofParams d.params) [] field.ty := by
  intro hfinds
  have hnone := List.flatMap_eq_nil_iff.mp hvalid d hd
  simp only [misdeclared, hfree, if_true, List.map_eq_nil_iff, List.filter_eq_nil_iff] at hnone
  exact hnone field (TypeDef.mem_fields.mpr hfield) (linearIn_of_finds hfinds)

/-- An instance of a free definition is not linear itself. -/
theorem not_linear_of_free {name : String} {d : TypeDef Span} {args : List Ty} (hd : T.get? name = some d)
    (hfree : d.univ = .free) : ¬ T.Linear K (.named name args) := by
  intro h
  cases h with
  | root hroot =>
    cases hroot with
    | declared _ hd' hlinear =>
      cases hd.symm.trans hd'
      simp [hfree] at hlinear
  | arg hstep =>
    obtain ⟨hd', hpoly, _, _⟩ := hstep
    cases hd.symm.trans hd'
    simp [hfree] at hpoly
  | field hstep =>
    obtain ⟨hd', hpoly, _⟩ := hstep
    cases hd.symm.trans hd'
    simp [hfree] at hpoly

/-- One step into what is not linear. -/
theorem not_linear_of_holds (hvalid : (ofDefs defs).validate defs = []) {t u : Ty} (hstep : (ofDefs defs).Holds t u)
    (hfits : ∀ name args, Relation.ReflTransGen (ofDefs defs).Part t (.named name args) →
      (ofDefs defs).Fits name args)
    (ht : ¬ (ofDefs defs).Linear .empty t) : ¬ (ofDefs defs).Linear .empty u := by
  intro hu
  have hfinds := finds_of_parts (fun name args hpart => hfits name args (hpart.head (.field hstep))) hu
  obtain @⟨name, d, args, field, hd, huniv, hfield⟩ := hstep
  rcases huniv with hfree | hpoly
  · obtain ⟨hlen, hargs⟩ := hfits name args .refl d hd
    exact not_finds_of_valid hvalid (mem_of_get? hd) hfree hfield (finds_of_instance hlen hargs hfinds)
  · exact ht (.field ⟨hd, hpoly, hfield⟩ hu)

/-- **Validation is sound.** If a list of definitions passes, nothing linear can be reached from
an instance of one that is declared free, field by field, where every instance in it fits. -/
theorem validate_sound (hnames : (defs.map fun d => d.name.name).Nodup)
    (hvalid : (ofDefs defs).validate defs = []) {d : TypeDef Span} (hd : d ∈ defs) (hfree : d.univ = .free)
    {args : List Ty} (hfits : ∀ name args', Relation.ReflTransGen (ofDefs defs).Part (.named d.name.name args)
      (.named name args') → (ofDefs defs).Fits name args')
    {t : Ty} (ht : Relation.ReflTransGen (ofDefs defs).Holds (.named d.name.name args) t) :
    (ofDefs defs).classify .empty t = .free := by
  have hreach : Relation.ReflTransGen (ofDefs defs).Part (.named d.name.name args) t ∧
      ¬ (ofDefs defs).Linear .empty t := by
    induction ht with
    | refl => exact ⟨.refl, not_linear_of_free (get?_of_mem hnames hd) hfree⟩
    | tail _ hstep ih =>
      obtain ⟨hpart, hlinear⟩ := ih
      exact ⟨hpart.tail (.field hstep), not_linear_of_holds hvalid hstep
        (fun name args' hrest => hfits name args' (hpart.trans hrest)) hlinear⟩
  exact classify_eq_free.mpr fun hfinds => hreach.2 hfinds.linear

end Defs

def treeDef : TypeDef Span :=
  ⟨⟨7, 1⟩, ⟨⟨7, 2⟩, "Tree"⟩, [⟨⟨7, 3⟩, ⟨⟨7, 3⟩, "T"⟩, .poly⟩, ⟨⟨7, 4⟩, ⟨⟨7, 4⟩, "F"⟩, .free⟩,
      ⟨⟨7, 5⟩, ⟨⟨7, 5⟩, "R"⟩, .region⟩], .free, .record [
    ⟨⟨8, 1⟩, ⟨⟨8, 1⟩, "item"⟩, .ref .read "R" (.param "T")⟩,
    ⟨⟨9, 1⟩, ⟨⟨9, 1⟩, "keys"⟩, .named "List" [.param "F"]⟩,
    ⟨⟨10, 1⟩, ⟨⟨10, 1⟩, "children"⟩, .named "List" [.named "Tree" [.param "T", .param "F", .param "R"]]⟩]⟩

/-- A tree is free, though it refers to items that may be linear and contains a list of trees,
and lists are in the universe `poly`. -/
def orchard : List (TypeDef Span) := [
  ⟨⟨1, 1⟩, ⟨⟨1, 2⟩, "File"⟩, [], .linear, .sealed⟩,
  ⟨⟨2, 1⟩, ⟨⟨2, 2⟩, "List"⟩, [⟨⟨2, 3⟩, ⟨⟨2, 3⟩, "A"⟩, .poly⟩], .poly, .union [
    ⟨⟨3, 1⟩, ⟨⟨3, 1⟩, "Nil"⟩, []⟩,
    ⟨⟨4, 1⟩, ⟨⟨4, 1⟩, "Cons"⟩, [⟨⟨5, 1⟩, ⟨⟨5, 1⟩, "head"⟩, .param "A"⟩,
      ⟨⟨6, 1⟩, ⟨⟨6, 1⟩, "tail"⟩, .named "List" [.param "A"]⟩]⟩]⟩,
  treeDef]

/-- A tree of linear items. -/
def tree : Ty := .named "Tree" [.named "File" [], .int, .region "Q"]

/-- All that is in it. -/
def treeParts : List Ty := [tree, .named "File" [], .int, .region "Q", .ref .read "Q" (.named "File" []),
  .named "List" [.int], .named "List" [tree]]

theorem part_tree {t u : Ty} (ht : t ∈ treeParts) (h : (ofDefs orchard).Part t u) : u ∈ treeParts := by
  have hclosed : ∀ t ∈ treeParts, ∀ u ∈ (ofDefs orchard).parts t, u ∈ treeParts := by decide
  exact hclosed t ht u (mem_parts.mpr h)

theorem mem_treeParts {t : Ty} (h : Relation.ReflTransGen (ofDefs orchard).Part tree t) : t ∈ treeParts := by
  induction h with
  | refl => exact List.mem_cons_self
  | tail _ hstep ih => exact part_tree ih hstep

theorem fits_tree {name : String} {args : List Ty}
    (h : Relation.ReflTransGen (ofDefs orchard).Part tree (.named name args)) : (ofDefs orchard).Fits name args := by
  intro d hd
  have hmem := mem_treeParts h
  simp only [treeParts, tree, List.mem_cons, List.not_mem_nil, or_false, Ty.named.injEq, reduceCtorEq, false_or] at hmem
  rcases hmem with ⟨rfl, rfl⟩ | ⟨rfl, rfl⟩ | ⟨rfl, rfl⟩ | ⟨rfl, rfl⟩ <;> cases hd
  · refine ⟨rfl, fun p a harg hadmits => ?_⟩
    simp only [treeDef, List.zip_cons_cons, List.zip_nil_left, List.mem_cons, List.not_mem_nil, or_false,
      Prod.mk.injEq] at harg
    rcases harg with ⟨rfl, rfl⟩ | ⟨rfl, rfl⟩ | ⟨rfl, rfl⟩
    · cases hadmits
    · cbv
    · cbv
  all_goals simp [Universe.admitsLinear]

/-- The children of a tree of files are no linear value, while a list of files is one. -/
theorem validate_sound_orchard :
    ((orchard.map fun d => d.name.name).Nodup ∧ (ofDefs orchard).validate orchard = []) ∧
      (ofDefs orchard).classify .empty (.named "List" [tree]) = .free ∧
      (ofDefs orchard).classify .empty (.named "List" [.named "File" []]) = .linear := by
  have hnames : (orchard.map fun d => d.name.name).Nodup := by decide
  have hvalid : (ofDefs orchard).validate orchard = [] := by cbv
  have htree : treeDef ∈ orchard := List.mem_cons_of_mem _ (List.mem_cons_of_mem _ List.mem_cons_self)
  have hchildren : (ofDefs orchard).Holds tree (.named "List" [tree]) :=
    .intro (d := treeDef) rfl (.inl rfl) (.field (List.mem_cons_of_mem _ (List.mem_cons_of_mem _ List.mem_cons_self)))
  exact ⟨⟨hnames, hvalid⟩, validate_sound hnames hvalid htree rfl (fun _ _ => fits_tree) (.single hchildren), by cbv⟩

end TypeTable

end Linearity
