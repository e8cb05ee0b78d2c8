import Mathlib
import Linearity.Ty

/-! Types told by their text.

A violation carries its types as texts only, so the text has to tell the type. It does so up
to the nullary forms: a primitive, a named type without arguments, a parameter and a region
that stands alone are each written as their name. `nominal` makes named types of them all.

A name stands in the text as it is, so the names must be words (`IsWord`): none of them may
have a character that the text puts around names. Then the text of a type can be cut off the
front of a longer text in one way only, when the text after it begins as it does inside a type,
with a comma or a closing bracket (`Legible`). This passes from the parts of a type to the
whole, and without a text after it `text_unambiguous` is left: two types have the same text if
and only if they are the same up to their nullary forms. -/
namespace Linearity

/-! ### Words -/

/-- The characters around the names in the text of a type. -/
def marks : List Char := ['[', ']', ',', ' ', '&', '!']

structure IsWord (name : String) : Prop where
  nonempty : name ≠ ""
  unmarked : ∀ c ∈ name.toList, c ∉ marks

theorem Prim.isWord (p : Prim) : IsWord p.name := by
  cases p <;> exact ⟨by simp [name], by simp [name, marks]⟩

/-- A text that does not go on with the name before it. -/
def Marked (rest : List Char) : Prop := ∀ c ∈ rest.head?, c ∈ marks

theorem Marked.bracket (rest : List Char) : Marked ('[' :: rest) := by simp [Marked, marks]

/-- A text that may stand after a type: nothing, a further argument, or the end of the arguments. -/
def AfterType (rest : List Char) : Prop := ∀ c ∈ rest.head?, c = ',' ∨ c = ']'

theorem AfterType.nil : AfterType [] := by simp [AfterType]

theorem AfterType.comma (rest : List Char) : AfterType (',' :: rest) := by simp [AfterType]

theorem AfterType.close (rest : List Char) : AfterType (']' :: rest) := by simp [AfterType]

theorem AfterType.marked {rest : List Char} (h : AfterType rest) : Marked rest := by
  intro c hc
  rcases h c hc with rfl | rfl <;> decide

theorem AfterType.not_open {rest : List Char} : ¬ AfterType ('[' :: rest) := by simp [AfterType]

theorem takeWhile_unmarked {chars rest : List Char} (hchars : ∀ c ∈ chars, c ∉ marks) (hrest : Marked rest) :
    (chars ++ rest).takeWhile (· ∉ marks) = chars := by
  have hstop : rest.takeWhile (· ∉ marks) = [] := by
    cases rest with
    | nil => rfl
    | cons c rest => exact List.takeWhile_cons_of_neg (by simpa using hrest c rfl)
  rw [List.takeWhile_append_of_pos (by simpa using hchars), hstop, List.append_nil]

/-- What is written without marks ends where the first mark stands. -/
theorem unmarked_inj {chars chars' rest rest' : List Char} (hchars : ∀ c ∈ chars, c ∉ marks)
    (hchars' : ∀ c ∈ chars', c ∉ marks) (hrest : Marked rest) (hrest' : Marked rest')
    (h : chars ++ rest = chars' ++ rest') : chars = chars' ∧ rest = rest' := by
  have heq : chars = chars' := by
    rw [← takeWhile_unmarked hchars hrest, h, takeWhile_unmarked hchars' hrest']
  subst heq
  exact ⟨rfl, List.append_cancel_left h⟩

namespace IsWord

variable {name name' : String} {rest rest' : List Char}

theorem inj (hname : IsWord name) (hname' : IsWord name') (hrest : Marked rest) (hrest' : Marked rest')
    (h : name.toList ++ rest = name'.toList ++ rest') : name = name' ∧ rest = rest' := by
  obtain ⟨hchars, htail⟩ := unmarked_inj hname.unmarked hname'.unmarked hrest hrest' h
  exact ⟨String.toList_inj.mp hchars, htail⟩

/-- A word with nothing in brackets after it is told from one with arguments. -/
theorem ne_applied (hname : IsWord name) (hname' : IsWord name') (hrest : AfterType rest) :
    name.toList ++ rest ≠ name'.toList ++ '[' :: rest' := by
  intro h
  obtain ⟨-, rfl⟩ := inj hname hname' hrest.marked (Marked.bracket rest') h
  exact AfterType.not_open hrest

/-- No word begins as a reference does. -/
theorem ne_sigil (hname : IsWord name) (hrest : Marked rest) (kind : RefKind) :
    name.toList ++ rest ≠ (Ty.sigil kind).toList ++ rest' := by
  intro h
  have hmark : Marked ((Ty.sigil kind).toList ++ rest') := by
    cases kind <;> simp [Ty.sigil, Marked, marks]
  -- The sigil is the first mark on the right, so the word in front of it would be empty.
  obtain ⟨hnil, -⟩ : name.toList = [] ∧ _ := unmarked_inj hname.unmarked (by simp) hrest hmark h
  exact hname.nonempty (String.toList_eq_nil_iff.mp hnil)

end IsWord

namespace Ty

/-! ### Types up to their nullary forms -/

mutual

/-- Named types in the place of all nullary forms. -/
def nominal : Ty → Ty
  | .prim p => .named p.name []
  | .named name args => .named name (nominalAll args)
  | .param name => .named name []
  | .ref kind r referent => .ref kind r (nominal referent)
  | .region name => .named name []

def nominalAll : List Ty → List Ty
  | [] => []
  | a :: as => nominal a :: nominalAll as

end

mutual

theorem text_nominal : ∀ t : Ty, t.nominal.text = t.text
  | .prim _ | .param _ | .region _ | .named _ [] => rfl
  | .named name (a :: as) => by rw [nominal, nominalAll, text, text, text_nominal a, textRest_nominalAll as]
  | .ref kind r referent => by rw [nominal, text, text, text_nominal referent]

theorem textRest_nominalAll : ∀ args : List Ty, textRest (nominalAll args) = textRest args
  | [] => rfl
  | a :: as => by rw [nominalAll, textRest, textRest, text_nominal a, textRest_nominalAll as]

end

mutual

/-- The names of types, parameters and regions. -/
def names : Ty → List String
  | .prim _ => []
  | .named name args => name :: namesAll args
  | .param name => [name]
  | .ref _ r referent => r :: names referent
  | .region name => [name]

def namesAll : List Ty → List String
  | [] => []
  | a :: as => names a ++ namesAll as

end

/-- A type as its text shows it, made of words: a word alone, a word with arguments, or a reference. -/
inductive Spelled : Ty → Prop where
  | atom {t : Ty} {name : String} : IsWord name → t.text = name → t.nominal = .named name [] → Spelled t
  | applied {name : String} {a : Ty} {as : List Ty} : IsWord name → Spelled a → (∀ b ∈ as, Spelled b) →
      Spelled (.named name (a :: as))
  | ref {kind : RefKind} {r : String} {referent : Ty} : IsWord r → Spelled referent → Spelled (.ref kind r referent)

mutual

theorem spelled_of_names : ∀ {t : Ty}, (∀ name ∈ t.names, IsWord name) → Spelled t
  | .prim p, _ => .atom p.isWord rfl rfl
  | .named name [], h => .atom (h name (by simp [names])) rfl rfl
  | .named name (a :: as), h => by
    simp only [names, namesAll, List.forall_mem_cons, List.forall_mem_append] at h
    exact .applied h.1 (spelled_of_names h.2.1) (spelled_of_namesAll h.2.2)
  | .param name, h => .atom (h name (by simp [names])) rfl rfl
  | .ref kind r referent, h => by
    simp only [names, List.forall_mem_cons] at h
    exact .ref h.1 (spelled_of_names h.2)
  | .region name, h => .atom (h name (by simp [names])) rfl rfl

theorem spelled_of_namesAll : ∀ {args : List Ty}, (∀ name ∈ namesAll args, IsWord name) → ∀ a ∈ args, Spelled a
  | [], _ => by simp
  | a :: as, h => by
    simp only [namesAll, List.forall_mem_append] at h
    exact List.forall_mem_cons.mpr ⟨spelled_of_names h.1, spelled_of_namesAll h.2⟩

end

/-! ### Reading a type off the front of a text -/

/-- Where a text begins with `t`, it begins with no other type, and what follows `t` is determined. -/
def Legible (t : Ty) : Prop :=
  ∀ {u : Ty} {rest rest' : List Char}, Spelled u → AfterType rest → AfterType rest' →
    t.text.toList ++ rest = u.text.toList ++ rest' → t.nominal = u.nominal ∧ rest = rest'

theorem text_applied_append (name : String) (a : Ty) (as : List Ty) (rest : List Char) :
    (Ty.named name (a :: as)).text.toList ++ rest =
      name.toList ++ '[' :: (a.text.toList ++ ((textRest as).toList ++ ']' :: rest)) := by
  simp [text]

theorem text_ref_append (kind : RefKind) (r : String) (referent : Ty) (rest : List Char) :
    (Ty.ref kind r referent).text.toList ++ rest =
      (sigil kind).toList ++ '[' :: (referent.text.toList ++ ',' :: ' ' :: (r.toList ++ ']' :: rest)) := by
  simp [text]

theorem textRest_cons_append (a : Ty) (as : List Ty) (rest : List Char) :
    (textRest (a :: as)).toList ++ rest = ',' :: ' ' :: (a.text.toList ++ ((textRest as).toList ++ rest)) := by
  simp [textRest]

theorem sigil_inj {kind kind' : RefKind} {rest rest' : List Char}
    (h : (sigil kind).toList ++ '[' :: rest = (sigil kind').toList ++ '[' :: rest') :
    kind = kind' ∧ rest = rest' := by
  cases kind <;> cases kind' <;> simp_all [sigil]

/-- What follows an argument, up to the closing bracket, may stand after a type. -/
theorem afterType_textRest (as : List Ty) (rest : List Char) : AfterType ((textRest as).toList ++ ']' :: rest) := by
  cases as with
  | nil => exact AfterType.close rest
  | cons a as =>
    rw [textRest_cons_append]
    exact AfterType.comma _

theorem legible_atom {t : Ty} {name : String} (hname : IsWord name) (htext : t.text = name)
    (hnominal : t.nominal = .named name []) : Legible t := by
  intro u rest rest' hu hrest hrest' h
  rw [htext] at h
  cases hu with
  | atom hname' htext' hnominal' =>
    rw [htext'] at h
    obtain ⟨rfl, htail⟩ := hname.inj hname' hrest.marked hrest'.marked h
    exact ⟨hnominal.trans hnominal'.symm, htail⟩
  | applied hname' =>
    rw [text_applied_append] at h
    exact absurd h (hname.ne_applied hname' hrest)
  | ref =>
    rw [text_ref_append] at h
    exact absurd h (hname.ne_sigil hrest.marked _)

/-- Arguments that can be read one by one can be read up to the closing bracket: a comma leads to
the next one, and the bracket ends both lists at once. -/
theorem textRest_inj {as bs : List Ty} {rest rest' : List Char} (has : ∀ a ∈ as, Legible a)
    (hbs : ∀ b ∈ bs, Spelled b)
    (h : (textRest as).toList ++ ']' :: rest = (textRest bs).toList ++ ']' :: rest') :
    nominalAll as = nominalAll bs ∧ rest = rest' := by
  induction as generalizing bs with
  | nil =>
    cases bs with
    | nil => exact ⟨rfl, List.tail_eq_of_cons_eq h⟩
    | cons b bs => simp [textRest] at h
  | cons a as ih =>
    cases bs with
    | nil => simp [textRest] at h
    | cons b bs =>
      rw [textRest_cons_append, textRest_cons_append] at h
      obtain ⟨ha, has⟩ := List.forall_mem_cons.mp has
      obtain ⟨hb, hbs⟩ := List.forall_mem_cons.mp hbs
      have hargs := List.tail_eq_of_cons_eq (List.tail_eq_of_cons_eq h)
      obtain ⟨hhead, htail⟩ := ha hb (afterType_textRest as rest) (afterType_textRest bs rest') hargs
      obtain ⟨hall, hrest⟩ := ih has hbs htail
      exact ⟨by rw [nominalAll, nominalAll, hhead, hall], hrest⟩

theorem legible_applied {name : String} {a : Ty} {as : List Ty} (hname : IsWord name) (ha : Legible a)
    (has : ∀ b ∈ as, Legible b) : Legible (.named name (a :: as)) := by
  intro u rest rest' hu hrest hrest' h
  rw [text_applied_append] at h
  cases hu with
  | atom hname' htext' =>
    rw [htext'] at h
    exact absurd h.symm (hname'.ne_applied hname hrest')
  | applied hname' hb hbs =>
    rw [text_applied_append] at h
    obtain ⟨rfl, hargs⟩ := hname.inj hname' (Marked.bracket _) (Marked.bracket _) h
    obtain ⟨hhead, htail⟩ := ha hb (afterType_textRest as rest) (afterType_textRest _ rest')
      (List.tail_eq_of_cons_eq hargs)
    obtain ⟨hall, hrests⟩ := textRest_inj has hbs htail
    exact ⟨by simp only [nominal, nominalAll, hhead, hall], hrests⟩
  | ref =>
    rw [text_ref_append] at h
    exact absurd h (hname.ne_sigil (Marked.bracket _) _)

theorem legible_ref {kind : RefKind} {r : String} {referent : Ty} (hr : IsWord r) (href : Legible referent) :
    Legible (.ref kind r referent) := by
  intro u rest rest' hu hrest hrest' h
  rw [text_ref_append] at h
  cases hu with
  | atom hname' htext' =>
    rw [htext'] at h
    exact absurd h.symm (hname'.ne_sigil hrest'.marked kind)
  | applied hname' =>
    rw [text_applied_append] at h
    exact absurd h.symm (hname'.ne_sigil (Marked.bracket _) kind)
  | ref hq hu =>
    rw [text_ref_append] at h
    obtain ⟨rfl, hinside⟩ := sigil_inj h
    obtain ⟨hreferent, hregion⟩ := href hu (AfterType.comma _) (AfterType.comma _) hinside
    obtain ⟨rfl, hclosed⟩ := hr.inj hq (AfterType.close rest).marked (AfterType.close rest').marked
      (List.tail_eq_of_cons_eq (List.tail_eq_of_cons_eq hregion))
    exact ⟨by rw [nominal, nominal, hreferent], List.tail_eq_of_cons_eq hclosed⟩

theorem Spelled.legible {t : Ty} (h : Spelled t) : Legible t := by
  induction h with
  | atom hname htext hnominal => exact legible_atom hname htext hnominal
  | applied hname _ _ ha has => exact legible_applied hname ha has
  | ref hr _ href => exact legible_ref hr href

/-- **The text of a type is unambiguous.** Let all names in two types be words. They have the same
text if and only if they are the same type up to their nullary forms. -/
theorem text_unambiguous (t u : Ty) (ht : ∀ name ∈ t.names, IsWord name) (hu : ∀ name ∈ u.names, IsWord name) :
    t.text = u.text ↔ t.nominal = u.nominal := by
  constructor
  · intro h
    have hchars : t.text.toList ++ [] = u.text.toList ++ [] := by rw [h]
    exact ((spelled_of_names ht).legible (spelled_of_names hu) AfterType.nil AfterType.nil hchars).1
  · intro h
    rw [← text_nominal t, h, text_nominal u]

/-- `Pair[&[Pair[A, Int], R], R]`, with a parameter `A`, the primitive, and the region of the reference alone. -/
def grouped : Ty := .named "Pair" [.ref .read "R" (.named "Pair" [.param "A", .int]), .region "R"]

/-- The same text, with named types for `A` and `Int`, and a parameter `R`. -/
def renamed : Ty := .named "Pair" [.ref .read "R" (.named "Pair" [.named "A" [], .named "Int" []]), .param "R"]

/-- `Pair[&[Pair[A], R], Int, R]`: the same names, in other brackets. -/
def regrouped : Ty := .named "Pair" [.ref .read "R" (.named "Pair" [.param "A"]), .int, .region "R"]

theorem isWord_sample {name : String} (h : name ∈ ["Pair", "R", "A", "Int"]) : IsWord name := by
  simp only [List.mem_cons, List.not_mem_nil, or_false] at h
  rcases h with rfl | rfl | rfl | rfl <;> exact ⟨by simp, by simp [marks]⟩

/-- The text does not tell `A` the parameter from `A` the named type, but it tells where a list of arguments ends. -/
theorem text_unambiguous_grouped :
    (∀ name ∈ grouped.names, IsWord name) ∧ (∀ name ∈ renamed.names, IsWord name) ∧
    (∀ name ∈ regrouped.names, IsWord name) ∧
    grouped ≠ renamed ∧ grouped.text = renamed.text ∧ grouped.text ≠ regrouped.text := by
  have hgrouped : ∀ name ∈ grouped.names, IsWord name := fun name h =>
    isWord_sample ((show grouped.names ⊆ ["Pair", "R", "A", "Int"] by decide) h)
  have hrenamed : ∀ name ∈ renamed.names, IsWord name := fun name h =>
    isWord_sample ((show renamed.names ⊆ ["Pair", "R", "A", "Int"] by decide) h)
  have hregrouped : ∀ name ∈ regrouped.names, IsWord name := fun name h =>
    isWord_sample ((show regrouped.names ⊆ ["Pair", "R", "A", "Int"] by decide) h)
  refine ⟨hgrouped, hrenamed, hregrouped, by decide, ?_, ?_⟩
  · exact (text_unambiguous grouped renamed hgrouped hrenamed).mpr (by decide)
  · intro h
    exact absurd ((text_unambiguous grouped regrouped hgrouped hregrouped).mp h) (by decide)

end Ty

end Linearity
