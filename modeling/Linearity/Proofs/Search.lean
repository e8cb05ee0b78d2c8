import Mathlib
import Linearity.Proofs.Classify

/-! The search for a linear type with one set of names for all of it.

`linearIn` hands the names that are being expanded down to where they matter. `search` keeps
them in a set of its own: it adds a name before the fields of an instance are searched and
takes it out after them. Nothing about it says that it ends: the fields of an instance may be
larger than the instance, and whether a name is still to be expanded depends on what earlier
parts of the search left in the set. So it is cut where its calls are nested too deep, and has
no result then. A result that it has does not depend on the depth (`search_mono`).

It does end, for every table, and leaves the set as it found it (`search_returns`). Then a
search begun with the same names goes down the same way as `linearIn`, and the names of the
table that are not in the set become fewer where types become larger. -/
namespace Linearity.TypeTable

/-- A search that may be cut, and its set of names. -/
abbrev Searching := StateT (Finset String) Option

namespace Searching

/-- The second part is searched if the first has found nothing. -/
def or (part rest : Searching Bool) : Searching Bool := do
  if ← part then return true
  rest

/-- Searched with one name more in the set, unless the name is in it already. -/
def once (name : String) (part : Searching Bool) : Searching Bool := do
  if name ∈ (← get) then return false
  modify (insert name)
  let found ← part
  modify (Finset.erase · name)
  return found

end Searching

/-- Whether a type is linear, by calls that are nested less than `depth` deep. -/
def search (T : TypeTable) (K : Kinds) : Nat → Ty → Searching Bool
  | 0, _ => failure
  | _ + 1, .prim _ | _ + 1, .ref .. | _ + 1, .region _ => return false
  | _ + 1, .param name => return (K.get? name).any Universe.admitsLinear
  | depth + 1, .named name args =>
    match T.get? name with
    | none => return false
    | some d =>
      match d.univ with
      | .free | .region => return false
      | .linear => return true
      | .poly => .or
        ((d.params.zip args).anyM fun arg =>
          if arg.1.kind.admitsLinear then search T K depth arg.2 else return false)
        (.once name (d.fields.anyM fun field => search T K depth (field.ty.substitute (d.instantiation args))))

/-! ### More depth -/

namespace Searching

/-- Where the one has a result, the other has the same. -/
def Extends {α : Type} (part part' : Searching α) : Prop := ∀ V result, part V = some result → part' V = some result

namespace Extends
variable {α β : Type}

theorem refl (part : Searching α) : Extends part part := fun _ _ h => h

theorem trans {part part' part'' : Searching α} (h : part.Extends part') (h' : part'.Extends part'') :
    part.Extends part'' := fun V result heq => h' V result (h V result heq)

theorem bind {part part' : Searching α} {rest rest' : α → Searching β} (h : part.Extends part')
    (hrest : ∀ a, (rest a).Extends (rest' a)) : (part >>= rest).Extends (part' >>= rest') := by
  intro V result heq
  obtain ⟨⟨a, W⟩, hpart, heq⟩ := Option.bind_eq_some_iff.mp heq
  exact Option.bind_eq_some_iff.mpr ⟨(a, W), h V _ hpart, hrest a W result heq⟩

theorem any {part part' : α → Searching Bool} (h : ∀ a, (part a).Extends (part' a)) (as : List α) :
    (as.anyM part).Extends (as.anyM part') := by
  induction as with
  | nil => exact refl _
  | cons a as ih =>
    refine bind (h a) fun found => ?_
    cases found with
    | false => exact ih
    | true => exact refl _

variable {part part' rest rest' : Searching Bool}

theorem or (h : part.Extends part') (hrest : rest.Extends rest') : (part.or rest).Extends (part'.or rest') := by
  refine bind h fun found => ?_
  cases found with
  | false => exact hrest
  | true => exact refl _

theorem once (name : String) (h : part.Extends part') : (once name part).Extends (once name part') := by
  refine bind (refl _) fun names => ?_
  by_cases hmem : name ∈ names
  · simp only [hmem, if_true]
    exact refl _
  · simp only [hmem, if_false]
    exact bind (refl _) fun _ => bind h fun _ => refl _

end Extends
end Searching

open Searching

theorem search_succ (T : TypeTable) (K : Kinds) (depth : Nat) (t : Ty) :
    (T.search K depth t).Extends (T.search K (depth + 1) t) := by
  induction depth generalizing t with
  | zero => exact fun _ _ h => nomatch h
  | succ depth ih =>
    cases t with
    | prim | ref | region | param => exact .refl _
    | named name args =>
      simp only [search]
      cases T.get? name with
      | none => exact .refl _
      | some d =>
        dsimp only
        cases d.univ with
        | free | region | linear => exact .refl _
        | poly =>
          refine .or (.any (fun arg => ?_) _) (.once name (.any (fun field => ih _) _))
          cases arg.1.kind.admitsLinear with
          | true => exact ih arg.2
          | false => exact .refl _

/-- A search that ends is not changed by more depth. -/
theorem search_mono {T : TypeTable} {K : Kinds} {depth depth' : Nat} (h : depth ≤ depth') (t : Ty) :
    (T.search K depth t).Extends (T.search K depth' t) := by
  induction h with
  | refl => exact .refl _
  | step _ ih => exact ih.trans (search_succ T K _ t)

/-! ### The search ends -/

namespace Searching

/-- It ends with `found` and leaves the set as it was. -/
def Returns (part : Searching Bool) (V : Finset String) (found : Bool) : Prop := part V = some (found, V)

namespace Returns
variable {V : Finset String} {part rest : Searching Bool} {a b : Bool}

theorem found (found : Bool) : Returns (pure found) V found := rfl

theorem or (hpart : part.Returns V a) (hrest : rest.Returns V b) : (part.or rest).Returns V (a || b) := by
  unfold Returns at *
  show (part V >>= _) = _
  rw [hpart]
  cases a with
  | false => exact hrest
  | true => rfl

theorem any {α : Type} {part : α → Searching Bool} {found : α → Bool} : ∀ {as : List α},
    (∀ a ∈ as, (part a).Returns V (found a)) → Returns (as.anyM part) V (as.any found)
  | [], _ => rfl
  | a :: as, h => by
    have ha := h a List.mem_cons_self
    have hrest := any fun b hb => h b (List.mem_cons_of_mem a hb)
    unfold Returns at *
    show (part a V >>= _) = _
    rw [ha, List.any_cons]
    cases found a with
    | false => exact hrest
    | true => rfl

theorem once {name : String} (hpart : name ∉ V → part.Returns (insert name V) a) :
    (once name part).Returns V (if name ∈ V then false else a) := by
  unfold Returns at *
  show ite (name ∈ V) (pure false : Searching Bool) _ V = _
  by_cases hmem : name ∈ V
  · rw [if_pos hmem, if_pos hmem]
    rfl
  · rw [if_neg hmem, if_neg hmem]
    show (part (insert name V) >>= _) = _
    rw [hpart hmem]
    show some (a, (insert name V).erase name) = _
    rw [Finset.erase_insert hmem]

end Returns
end Searching

variable {T : TypeTable} {K : Kinds} {V : Finset String}

/-- Some depth is enough for the search of a type. -/
def Ends (T : TypeTable) (K : Kinds) (t : Ty) (V : Finset String) (found : Bool) : Prop :=
  ∃ depth, (T.search K depth t).Returns V found

/-- Some depth is enough for all of them. -/
theorem Ends.forall {α : Type} {ty : α → Ty} {found : α → Bool} : ∀ {as : List α},
    (∀ a ∈ as, T.Ends K (ty a) V (found a)) →
    ∃ least, ∀ depth ≥ least, ∀ a ∈ as, (T.search K depth (ty a)).Returns V (found a)
  | [], _ => ⟨0, fun _ _ _ hmem => absurd hmem List.not_mem_nil⟩
  | a :: as, h => by
    obtain ⟨⟨first, hfirst⟩, hrest⟩ := List.forall_mem_cons.mp h
    obtain ⟨least, hleast⟩ := Ends.forall hrest
    refine ⟨max first least, fun depth hdepth => List.forall_mem_cons.mpr ⟨?_, ?_⟩⟩
    · exact search_mono (le_of_max_le_left hdepth) (ty a) V _ hfirst
    · exact hleast depth (le_of_max_le_right hdepth)

theorem argLinearIn_eq_any {visiting : List String} : ∀ {params : List (TypeParam Span)} {args : List Ty},
    T.argLinearIn K visiting params args =
      (params.zip args).any fun arg => arg.1.kind.admitsLinear && T.linearIn K visiting arg.2
  | [], _ => by simp [argLinearIn]
  | _ :: _, [] => by simp [argLinearIn]
  | _ :: _, _ :: _ => by rw [argLinearIn, argLinearIn_eq_any, List.zip_cons_cons, List.any_cons]

/-- An instance whose arguments and fields are searched in the end. -/
theorem Ends.poly {visiting : List String} {name : String} {args : List Ty} {d : TypeDef Span}
    (hd : T.get? name = some d) (hpoly : d.univ = .poly)
    (hargs : ∀ arg ∈ d.params.zip args, T.Ends K arg.2 visiting.toFinset (T.linearIn K visiting arg.2))
    (hfields : name ∉ visiting → ∀ field ∈ d.fields, T.Ends K (field.ty.substitute (d.instantiation args))
      (name :: visiting).toFinset (T.linearIn K (name :: visiting) (field.ty.substitute (d.instantiation args)))) :
    T.Ends K (.named name args) visiting.toFinset (T.linearIn K visiting (.named name args)) := by
  obtain ⟨forArgs, hargs⟩ := Ends.forall hargs
  have hfields : ∃ least, ∀ depth ≥ least, name ∉ visiting → ∀ field ∈ d.fields,
      (T.search K depth (field.ty.substitute (d.instantiation args))).Returns (name :: visiting).toFinset
        (T.linearIn K (name :: visiting) (field.ty.substitute (d.instantiation args))) := by
    by_cases hv : name ∈ visiting
    · exact ⟨0, fun _ _ hnot => absurd hv hnot⟩
    · obtain ⟨least, hleast⟩ := Ends.forall (hfields hv)
      exact ⟨least, fun depth hdepth _ => hleast depth hdepth⟩
  obtain ⟨forFields, hfields⟩ := hfields
  refine ⟨max forArgs forFields + 1, ?_⟩
  rw [search, linearIn_named, hd]
  simp only [hpoly, argLinearIn_eq_any, ← List.mem_toFinset]
  refine .or (.any fun arg hmem => ?_) (.once fun hfresh => ?_)
  · cases arg.1.kind.admitsLinear with
    | true => exact hargs _ (le_max_left _ _) arg hmem
    | false => exact .found false
  · rw [← List.toFinset_cons]
    exact .any (hfields _ (le_max_right _ _) fun hv => hfresh (List.mem_toFinset.mpr hv))

/-- The search finds what `linearIn` finds with the same names. -/
theorem ends_search (T : TypeTable) (K : Kinds) (visiting : List String) (t : Ty) :
    T.Ends K t visiting.toFinset (T.linearIn K visiting t) := by
  induction visiting, t using linearIn.induct T _ (fun visiting params args =>
    ∀ arg ∈ params.zip args, T.Ends K arg.2 visiting.toFinset (T.linearIn K visiting arg.2)) with
  | case1 | case2 | case3 | case4 =>
    refine ⟨1, ?_⟩
    rw [search, linearIn]
    exact .found _
  | case5 visiting name args hd =>
    refine ⟨1, ?_⟩
    rw [search, linearIn_named, hd]
    exact .found _
  | case6 visiting name args d hd huniv | case7 visiting name args d hd huniv | case8 visiting name args d hd huniv =>
    refine ⟨1, ?_⟩
    rw [search, linearIn_named, hd]
    simp only [huniv]
    exact .found _
  | case9 visiting name args d hd hpoly hargs hfields => exact .poly hd hpoly hargs fun hv field _ => hfields hv field
  | case10 visiting p params a args ha hargs arg hmem =>
    rcases List.mem_cons.mp hmem with rfl | hmem
    · exact ha
    · exact hargs arg hmem
  | case11 visiting params args hnone arg hmem =>
    cases params with
    | nil => cases hmem
    | cons p params =>
      cases args with
      | nil => cases hmem
      | cons a args => exact (hnone p params a args rfl rfl).elim

/-- **The search ends.** Whatever the table, the kinds of the parameters, the type and the names in the
set: some depth is enough for the search to end; and at whatever depth it ends, it leaves the set as it
was and has found what `linearIn` finds with these names. So a search that starts with no name
classifies the type. -/
theorem search_returns (T : TypeTable) (K : Kinds) (t : Ty) :
    (∀ V : Finset String, (∃ depth, T.search K depth t V = some (T.linearIn K V.toList t, V)) ∧
      ∀ depth result, T.search K depth t V = some result → result = (T.linearIn K V.toList t, V)) ∧
    ∃ depth, T.search K depth t ∅ = some (T.classify K t == .linear, ∅) := by
  have hends : ∀ V : Finset String, T.Ends K t V (T.linearIn K V.toList t) := by
    intro V
    have h := ends_search T K V.toList t
    rwa [Finset.toList_toFinset] at h
  refine ⟨fun V => ⟨hends V, fun depth result hresult => ?_⟩, ?_⟩
  · obtain ⟨enough, henough⟩ := hends V
    have hdeep := search_mono (le_max_left depth enough) t V result hresult
    exact Option.some.inj (hdeep.symm.trans (search_mono (le_max_right depth enough) t V _ henough))
  · obtain ⟨depth, hdepth⟩ := hends ∅
    refine ⟨depth, hdepth.trans ?_⟩
    rw [Finset.toList_empty]
    unfold classify isLinear
    cases T.linearIn K [] t <;> rfl

/-- A nest has a field that is a larger nest. The search finds the guard beside it, or nothing if the
nest is being expanded already; and calls that are nested once do not reach its arguments. -/
theorem search_returns_nested : nests.search .empty 1 (nested 1) ∅ = none ∧
    (∃ depth, nests.search .empty depth (nested 1) ∅ = some (true, ∅)) ∧
    nests.search .empty 4 (nested 1) {"Nest"} = some (false, {"Nest"}) ∧
    nests.linearIn .empty ["Nest"] (nested 1) = false := by
  obtain ⟨hreturns, _⟩ := search_returns nests .empty (nested 1)
  have hlinear : nests.linearIn .empty [] (nested 1) = true := by cbv
  have hresult : nests.search .empty 4 (nested 1) {"Nest"} = some (false, {"Nest"}) := by cbv
  have hempty := (hreturns ∅).1
  rw [Finset.toList_empty, hlinear] at hempty
  have hfound := (hreturns {"Nest"}).2 4 _ hresult
  rw [Finset.toList_singleton] at hfound
  exact ⟨by cbv, hempty, hresult, (congrArg Prod.fst hfound).symm⟩

end Linearity.TypeTable
