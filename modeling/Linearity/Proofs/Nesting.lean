import Mathlib
import Linearity.Proofs.Padding
import Linearity.Proofs.Twins

/-! Chains of conditions.

A chain `if … else if … else …` joins all its branches at once, behind all its conditions. With
everything after its first branch nested in an else block, the inner branches are joined first,
inside a scope more, and the outcome is joined with the first branch. The inner join is alike to
each of its branches or finds something, so the outer join cannot tell it from them
(`join_in_two`): one form is accepted where the other is, with the same events. -/
namespace Linearity.Check

/-- All that comes after the first branch of a chain is nested in an else block. -/
inductive Nests : Stmt Span → Stmt Span → Prop where
  | nest (pos scopeEnd inner : Span) (first second : Branch Span) (rest : List (Branch Span))
    (otherwise : Option (Block Span)) :
    Nests (.choose pos (first :: second :: rest) otherwise)
      (.choose pos [first] (some ⟨scopeEnd, [.choose inner (second :: rest) otherwise]⟩))

variable {c : Context} {s t u : State}

/-- Where a choice stands is only where its missing else block is. -/
theorem checkChoice_elsewhere (pos pos' : Span) (branches : List (Branch Span)) (otherwise : Option (Block Span))
    (s : State) :
    (checkChoice c pos' branches otherwise s).2 = (checkChoice c pos branches otherwise s).2 ∧
      ends (checkChoice c pos' branches otherwise s).1 = ends (checkChoice c pos branches otherwise s).1 := by
  cases otherwise with
  | none =>
    refine ⟨rfl, ?_⟩
    unfold ends checkChoice
    rw [List.filterMap_append, List.filterMap_append]
    rfl
  | some block => exact ⟨rfl, rfl⟩

section InTwo
variable {o last : Outcome} {outcomes inner : List Outcome}

/-- A branch that ends where others are joined ends if one of them does. -/
theorem exit_of_joined
    (hlast : last.exit = if (join c inner s).1 = .continues then some (join c inner s).2.scopes else none)
    {scopes : Scopes} : last.exit = some scopes ↔ ends inner ≠ [] ∧ (join c inner s).2.scopes = scopes := by
  rw [hlast, reach_eq]
  by_cases hnil : ends inner = [] <;> simp [hnil]

/-- Where the inner branches are joined without a report, the outer branches end alike. -/
theorem ends_in_two {mid : State} (hinner : Branched mid inner s) (hends : ends inner = ends outcomes)
    (hlast : last.exit = if (join c inner s).1 = .continues then some (join c inner s).2.scopes else none)
    (hclean : (join c inner s).2.found = []) :
    (∀ a ∈ ends (o :: outcomes), ∃ b ∈ ends [o, last], a.Like b) ∧
      ∀ b ∈ ends [o, last], ∃ a ∈ ends (o :: outcomes), a.Like b := by
  constructor
  · intro a ha
    rcases mem_ends_cons.mp ha with hfirst | hinside
    · exact ⟨a, mem_ends_cons.mpr (.inl hfirst), .refl a⟩
    · rw [← hends] at hinside
      have hexit := (exit_of_joined hlast).mpr ⟨List.ne_nil_of_mem hinside, rfl⟩
      exact ⟨_, mem_ends_cons.mpr (.inr (mem_ends_cons.mpr (.inl hexit))), like_join hinner hclean hinside⟩
  · intro b hb
    rcases mem_ends_cons.mp hb with hfirst | hb
    · exact ⟨b, mem_ends_cons.mpr (.inl hfirst), .refl b⟩
    · rcases mem_ends_cons.mp hb with hexit | hb
      · obtain ⟨hne, rfl⟩ := (exit_of_joined hlast).mp hexit
        obtain ⟨a, ha⟩ := List.exists_mem_of_ne_nil _ hne
        exact ⟨a, mem_ends_cons.mpr (.inr (hends ▸ ha)), like_join hinner hclean ha⟩
      · cases hb

/-- Branches of which some are joined first. -/
theorem join_in_two {start mid : State} (hflat : Branched start (o :: outcomes) s) (hinner : Branched mid inner s)
    (hends : ends inner = ends outcomes) (hnested : Branched start [o, last] u)
    (hlast : last.exit = if (join c inner s).1 = .continues then some (join c inner s).2.scopes else none)
    (hfound : u.found = (join c inner s).2.found) (hregions : u.regions = s.regions) (hevents : u.events = s.events)
    (hs : Honest s) (hu : u.escaped = []) :
    ((join c (o :: outcomes) s).2.found = [] →
        Runs Scopes.Like (Twins Eq) (join c (o :: outcomes) s) (join c [o, last] u)) ∧
      ((join c [o, last] u).2.found = [] →
        Runs Scopes.Like (Twins Eq) (join c [o, last] u) (join c (o :: outcomes) s)) := by
  have htwins : (join c inner s).2.found = [] → Twins Eq s u := by
    intro hclean
    have hsclean := (grown_join c inner s).eq_nil hclean
    refine ⟨?_, ⟨hsclean, hfound.trans hclean⟩, ⟨silent_of_clean hs hsclean, hu⟩, hevents.symm⟩
    show (Relocation.moving nowhere [] []).regions _ = (Relocation.moving nowhere [] []).regions _
    rw [hregions]
  constructor
  · intro hclean
    have hone : (join c inner s).2.found = [] := by
      refine clean_join ((grown_join c _ s).eq_nil hclean) fun a ha b hb => ?_
      rw [hends] at ha hb
      exact (like_join hflat hclean (mem_ends_cons.mpr (.inr ha))).trans
        (like_join hflat hclean (mem_ends_cons.mpr (.inr hb))).symm
    obtain ⟨hleft, hright⟩ := ends_in_two (o := o) hinner hends hlast hone
    exact runs_join hflat hnested (htwins hone) hleft hright hclean
  · intro hclean
    have hone : (join c inner s).2.found = [] := hfound.symm.trans ((grown_join c _ u).eq_nil hclean)
    obtain ⟨hleft, hright⟩ := ends_in_two (o := o) hinner hends hlast hone
    refine runs_join hnested hflat ((htwins hone).symm Eq.symm) (fun b hb => ?_) (fun a ha => ?_) hclean
    · obtain ⟨a, ha, hab⟩ := hright b hb
      exact ⟨a, ha, hab.symm⟩
    · obtain ⟨b, hb, hab⟩ := hleft a ha
      exact ⟨b, hb, hab.symm⟩

end InTwo

/-- The else block that holds the rest of a chain, where nothing has been found so far. -/
theorem last_nested (hs : Inside s) (hclean : s.found = []) (hsilent : s.escaped = []) (scopeEnd pos : Span)
    (branches : List (Branch Span)) (otherwise : Option (Block Span)) :
    let joined := visit c (.choose pos branches otherwise) s
    let last := outcome scopeEnd s (checkBlock c ⟨scopeEnd, [.choose pos branches otherwise]⟩ s)
    last.1.exit = (if joined.1 = .continues then some joined.2.scopes else none) ∧
      last.2 = {joined.2 with scopes := s.scopes, escaped := []} := by
  intro joined last
  have hblock := checkBlock_choose hs (halted_of_clean (c := c) hclean) scopeEnd pos branches otherwise
  have hsame : ({s with escaped := []} : State) = s := by rw [← hsilent]
  rw [hsame] at hblock
  obtain ⟨hreach, hrest, hscopes⟩ := hblock
  refine ⟨?_, ?_⟩
  · show (if _ then _ else _) = (if _ then _ else _)
    rw [hreach]
    split
    · rename_i hcontinues
      exact congrArg some (hscopes hcontinues)
    · rfl
  · show {(checkBlock c ⟨scopeEnd, [.choose pos branches otherwise]⟩ s).2 with scopes := s.scopes} = _
    rw [hrest, hsilent]

section Nest
variable (pos scopeEnd inner : Span) (first second : Branch Span) (rest : List (Branch Span))
  (otherwise : Option (Block Span))

/-- The chain and its nested form, behind a first branch in which nothing is found. -/
theorem runs_nest (hs : Inside s) (hsilent : s.escaped = []) (hclean : (checkBranch c first s).2.found = []) :
    let flat := visit c (.choose pos (first :: second :: rest) otherwise) s
    let nested := visit c (.choose pos [first] (some ⟨scopeEnd, [.choose inner (second :: rest) otherwise]⟩)) s
    (flat.2.found = [] → Runs Scopes.Like (Twins Eq) flat nested) ∧
      (nested.2.found = [] → Runs Scopes.Like (Twins Eq) nested flat) := by
  have hflat := branched_checkChoice (c := c) hs.toReady pos (first :: second :: rest) otherwise
  have hnested := branched_checkChoice (c := c) hs.toReady pos [first]
    (some ⟨scopeEnd, [.choose inner (second :: rest) otherwise]⟩)
  have hfirst := checkChoice_cons c pos (second :: rest) otherwise s first
  have hfirst' := checkChoice_cons c pos [] (some ⟨scopeEnd, [.choose inner (second :: rest) otherwise]⟩) s first
  rw [visit_choose, visit_choose, hfirst, hfirst']
  rw [hfirst] at hflat
  rw [hfirst'] at hnested
  clear hfirst hfirst'
  have hinside : Inside (checkBranch c first s).2 := hs.checkBranch first
  have hhonest : Honest (checkBranch c first s).2 :=
    (grown_checkBranch first s).honest fun hne => absurd hsilent hne
  generalize checkBranch c first s = branch at hflat hnested hinside hhonest hclean ⊢
  have hinner := branched_checkChoice (c := c) hinside.toReady inner (second :: rest) otherwise
  obtain ⟨hexit, hstate⟩ := last_nested (c := c) hinside hclean (silent_of_clean hhonest hclean) scopeEnd inner
    (second :: rest) otherwise
  obtain ⟨hafter, hends⟩ := checkChoice_elsewhere (c := c) pos inner (second :: rest) otherwise branch.2
  rw [visit_choose, hafter] at hexit hstate
  rw [hafter] at hinner
  have hhonest' := (grown_checkChoice c pos (second :: rest) otherwise branch.2).honest hhonest
  obtain ⟨_, _, hregions, hevents, _⟩ := @join_frame c (checkChoice c inner (second :: rest) otherwise branch.2).1
    (checkChoice c pos (second :: rest) otherwise branch.2).2
  exact join_in_two hflat hinner hends hnested hexit (congrArg State.found hstate :)
    ((congrArg State.regions hstate :).trans hregions) ((congrArg State.events hstate :).trans hevents) hhonest'
    (congrArg State.escaped hstate :)

theorem replaces_nest : Replaces Eq (.choose pos (first :: second :: rest) otherwise)
    (.choose pos [first] (some ⟨scopeEnd, [.choose inner (second :: rest) otherwise]⟩)) := by
  intro c s hs hsilent hfound
  refine (runs_nest pos scopeEnd inner first second rest otherwise hs hsilent ?_).1 hfound
  rw [visit_choose, checkChoice_cons] at hfound
  exact ((grown_checkChoice ..).trans (grown_join ..)).eq_nil hfound

theorem replaces_flat : Replaces Eq
    (.choose pos [first] (some ⟨scopeEnd, [.choose inner (second :: rest) otherwise]⟩))
    (.choose pos (first :: second :: rest) otherwise) := by
  intro c s hs hsilent hfound
  refine (runs_nest pos scopeEnd inner first second rest otherwise hs hsilent ?_).2 hfound
  rw [visit_choose, checkChoice_cons] at hfound
  exact ((grown_checkChoice ..).trans (grown_join ..)).eq_nil hfound

end Nest

theorem lasting_eq : Lasting Eq := ⟨fun _ => rfl, Eq.trans, fun _ _ more h => congrArg (· ++ more) h⟩

/-- One round of nesting, anywhere in a body. -/
theorem ok_iff_of_nests {T : TypeTable} {settings : Settings} {f : FunDef Span} {body : Block Span}
    (h : Rewrites Nests (.block f.body) (.block body)) (usage : Usage) :
    checkFunction T settings f = .ok usage ↔ checkFunction T settings {f with body} = .ok usage := by
  have hnest : ∀ ⦃x y⦄, Nests x y → Replaces Eq x y := by
    rintro _ _ ⟨⟩
    exact replaces_nest ..
  have hflat : ∀ ⦃x y⦄, Nests y x → Replaces Eq x y := by
    rintro _ _ ⟨⟩
    exact replaces_flat ..
  have hsame : ∀ {a b : Usage}, b.name = a.name → a.events = b.events → b = a :=
    fun hname hevents => congr (congrArg Usage.mk hname) hevents.symm
  constructor
  · intro hok
    obtain ⟨usage', hok', hname, hevents⟩ := ok_of_rewrites lasting_eq hnest h hok
    rwa [hsame hname hevents] at hok'
  · intro hok
    obtain ⟨usage', hok', hname, hevents⟩ :=
      ok_of_rewrites (f := {f with body}) lasting_eq hflat (h.symm fun _ _ hxy => hxy) hok
    rwa [hsame hname hevents] at hok'

/-- Chains of conditions may be nested in else blocks, and nested ones flattened, in any number of
rounds: a function is accepted with the same events as before, or not as before. -/
theorem nested_chains_equivalent (T : TypeTable) (settings : Settings) (f : FunDef Span) {body : Block Span}
    (h : Relation.ReflTransGen (fun b b' => Rewrites Nests (.block b) (.block b')) f.body body) (usage : Usage) :
    checkFunction T settings f = .ok usage ↔ checkFunction T settings {f with body} = .ok usage := by
  induction h with
  | refl => exact Iff.rfl
  | @tail b b' _ hstep ih => exact ih.trans (ok_iff_of_nests (f := {f with body := b}) hstep usage)

/-- A block that closes the parameter. -/
def shut (n : Nat) : Block Span :=
  ⟨⟨n, 9⟩, [.discard ⟨n, 1⟩ ⟨⟨n, 2⟩, .unit, .call ⟨⟨n, 3⟩, "close"⟩ [⟨⟨n, 4⟩, .param "A", .var "x"⟩]⟩]⟩

def branching (n : Nat) : Branch Span := ⟨⟨n, 0⟩, ⟨⟨n, 5⟩, .bool, .lit (.bool true)⟩, shut n⟩

def chained : Stmt Span := .choose ⟨3, 1⟩ [branching 4, branching 5] (some (shut 6))

def cascaded : Stmt Span := .choose ⟨3, 1⟩ [branching 4] (some ⟨⟨7, 1⟩, [.choose ⟨5, 1⟩ [branching 5] (some (shut 6))]⟩)

/-- A function with such a statement inside a block. -/
def disposer (stmt : Stmt Span) : FunDef Span where
  pos := ⟨9, 1⟩
  name := ⟨⟨0, 1⟩, "disposer"⟩
  typeParams := [⟨⟨1, 1⟩, ⟨⟨1, 1⟩, "A"⟩, .linear⟩]
  params := [⟨⟨2, 1⟩, ⟨⟨2, 1⟩, "x"⟩, .param "A"⟩]
  ret := .unit
  body := ⟨⟨8, 2⟩, [.block ⟨⟨8, 1⟩, [stmt]⟩]⟩

/-- Both forms are accepted, and close the parameter three times, once in each branch. -/
theorem nested_chains_equivalent_disposer :
    Relation.ReflTransGen (fun b b' => Rewrites Nests (.block b) (.block b')) (disposer chained).body
        (disposer cascaded).body ∧
      (finalState ⟨[]⟩ {} (disposer chained)).events =
        [.define "x" ⟨2, 1⟩ true, .consume "x" ⟨4, 4⟩, .consume "x" ⟨5, 4⟩, .consume "x" ⟨6, 4⟩] ∧
      ∃ usage, checkFunction ⟨[]⟩ {} (disposer chained) = .ok usage ∧
        checkFunction ⟨[]⟩ {} (disposer cascaded) = .ok usage := by
  have hstep : Relation.ReflTransGen (fun b b' => Rewrites Nests (.block b) (.block b')) (disposer chained).body
      (disposer cascaded).body := by
    refine .single (.block _ (.next (.nested (.block _ (.next (.rule ?_) .nil))) .nil))
    exact .nest ⟨3, 1⟩ ⟨7, 1⟩ ⟨5, 1⟩ (branching 4) (branching 5) [] (some (shut 6))
  have hclean : (finalState ⟨[]⟩ {} (disposer chained)).found = [] := by cbv
  have hok := ok_of_found hclean
  exact ⟨hstep, by cbv, _, hok, (nested_chains_equivalent ⟨[]⟩ {} (disposer chained) hstep _).mp hok⟩

end Linearity.Check
