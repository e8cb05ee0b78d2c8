import Mathlib
import Linearity.Proofs.Reached

/-! What an assignment may carry into a place.

The regions of a stored value's type must be open for as long as the place. An
assignment to a variable, or to a path that starts at an owned variable, is held to
the regions that were open where the variable was defined. A write through the alias
of a borrow block is held only to the regions around the block's own
(`assigned_regions`), and these may have been opened after the variable was defined:
`stash` carries such a region into its parameter. -/
namespace Linearity

/-- The regions a type mentions are open, at positions below `limit`. -/
def Regions.Below (rs : Regions) (ty : Ty) (limit : Nat) : Prop :=
  ∀ r ∈ ty.regions, ∃ p, rs.position? r = some p ∧ p < limit

namespace Check
variable {c : Context} {s t u : State}

/-! ### Positions -/

theorem position?_attach (name : String) (ref : Reference) (r : String) :
    ∀ rs : Regions, (rs.attach name ref).position? r = rs.position? r
  | [] => rfl
  | q :: outer => by
    unfold Regions.attach
    split
    · rfl
    · simp only [Regions.position?, Regions.length_attach, position?_attach name ref r outer]

/-- A region that is open keeps its position while another is entered. -/
theorem position?_enterStatement {region : String} {pos : Span} (henter : enterStatement region pos s = .ok t)
    {r : String} {p : Nat} (h : s.regions.position? r = some p) : t.regions.position? r = some p := by
  rcases enterStatement_ok henter with ⟨rfl, _⟩ | ⟨hnone, rfl⟩
  · exact h
  · exact Regions.position?_cons_of_fresh hnone h

theorem borrowBinding_regions (kind : RefKind) (name : String) (id : BindingId) (region : String) (pos : Span)
    (shareable : Bool) (s : State) (r : String) :
    (borrowBinding c kind name id region pos shareable s).regions.position? r = s.regions.position? r := by
  have hspec := borrowBinding_spec c kind name id region pos shareable s
  generalize borrowBinding c kind name id region pos shareable s = t at hspec ⊢
  cases hspec with
  | conflict => rw [report_regions]
  | shared => exact position?_attach ..
  | refused => rw [report_regions]
  | taken => exact position?_attach ..

/-- While an expression is evaluated, open regions keep their positions. -/
theorem position?_act {a : Action} {r : String} {p : Nat} (h : s.regions.position? r = some p) :
    (act c a s).regions.position? r = some p := by
  cases a with
  | consume => rw [act, consume, settle_regions]; exact h
  | read => rw [act, read, settle_regions]; exact h
  | overwrite => rw [act, overwrite, settle_regions]; exact h
  | borrow kind target ty pos =>
    show (borrowExpr c kind target ty pos s).regions.position? r = some p
    unfold borrowExpr
    split
    · split
      · rw [report_regions]
        exact h
      · rename_i u henter
        have hu := position?_enterStatement henter h
        split
        · rw [borrowBinding_regions]
          exact hu
        · exact hu
    · exact h
  | define => exact h
  | live => rw [act, requireLive_regions]; exact h
  | outlive => rw [act, requireOutlives_regions]; exact h
  | outlast => rw [act, requireOutlasts_regions]; exact h
  | ownRegions => rw [act, reportEscapes_regions]; exact h
  | allConsumed => rw [act, reportAll_regions]; exact h
  | forbid => rw [act, forbidLinear_regions]; exact h
  | refuse => rw [act, report_regions]; exact h

theorem position?_perform {acts : List Action} {r : String} {p : Nat} (h : s.regions.position? r = some p) :
    (perform c acts s).regions.position? r = some p := by
  induction acts generalizing s with
  | nil => exact h
  | cons a acts ih => exact ih (position?_act h)

/-! ### What a silent check has seen -/

theorem requireLive_silent {ty : Ty} {name : Option String} {pos : Span} (hs : Honest s)
    (h : (requireLive c ty name pos s).found = []) {r : String} (hr : r ∈ ty.regions) :
    ∃ p, s.regions.position? r = some p := by
  refine Regions.position?_of_isLive ?_
  cases hlive : s.regions.isLive r with
  | true => rfl
  | false =>
    refine absurd h (reportEscapes_found c hs (List.ne_nil_of_mem (a := r) ?_) name pos)
    exact List.mem_filter.mpr ⟨hr, by rw [hlive]; rfl⟩

theorem requireBelow_silent {ty : Ty} {limit : Nat} {name : Option String} {pos : Span} (hs : Honest s)
    (h : (requireBelow c ty limit name pos s).found = []) {r : String} (hr : r ∈ ty.regions) {p : Nat}
    (hp : s.regions.position? r = some p) : p < limit := by
  refine Nat.lt_of_not_le fun hle => ?_
  refine absurd h (reportEscapes_found c hs (List.ne_nil_of_mem (a := r) ?_) name pos)
  refine List.mem_filter.mpr ⟨hr, ?_⟩
  rw [hp]
  exact decide_eq_true hle

/-- After an expression has been evaluated without a report, its regions are open. -/
theorem actions_silent {e : Expr Span} (hs : Honest s) (h : (perform c (actions e) s).found = [])
    {r : String} (hr : r ∈ e.ty.regions) : ∃ p, (perform c (actions e) s).regions.position? r = some p := by
  obtain ⟨pos, ty, form⟩ := e
  rw [actions, perform_append] at h ⊢
  have hform : Honest (perform c (formActions pos ty form) s) := (grown_perform ..).honest hs
  obtain ⟨p, hp⟩ := requireLive_silent hform h hr
  exact ⟨p, position?_perform hp⟩

/-- A bound within the regions that were open before the statement. -/
theorem below_of_grown (hgrown : ∃ top, u.regions = top ++ s.regions ∧ ∀ r ∈ top, r.kind = .statement)
    {ty : Ty} {limit : Nat} (hlimit : limit ≤ s.regions.length)
    (hlive : ∀ r ∈ ty.regions, ∃ p, u.regions.position? r = some p)
    (hbelow : ∀ r ∈ ty.regions, ∀ p, u.regions.position? r = some p → p < limit) :
    s.regions.Below ty limit := by
  intro r hr
  obtain ⟨top, hregions, _⟩ := hgrown
  obtain ⟨p, hp⟩ := hlive r hr
  have hlt := hbelow r hr p hp
  rw [hregions] at hp
  exact ⟨p, Regions.position?_outer hp (Nat.lt_of_lt_of_le hlt hlimit), hlt⟩

theorem requireOutlives_silent (hs : Ready s) (hu : Evaluated s u) (hhonest : Honest u) {name : String}
    {id : BindingId} {b : Binding} (hlookup : s.scopes.lookup name = some (id, b)) {ty : Ty} {pos : Span}
    (hlive : ∀ r ∈ ty.regions, ∃ p, u.regions.position? r = some p)
    (h : (requireOutlives c name ty pos u).found = []) : s.regions.Below ty b.regionDepth := by
  obtain ⟨b', hlookup', hblank⟩ := Scopes.lookup_of_skeleton hu.skeleton hlookup
  have hdepth : b'.regionDepth = b.regionDepth := by
    rw [← Binding.blank_regionDepth, hblank, Binding.blank_regionDepth]
  unfold requireOutlives at h
  rw [hlookup'] at h
  dsimp only at h
  rw [hdepth] at h
  have hdeep := (hs.coherent.accounted (Scopes.get?_of_lookup hlookup).1).deep
  exact below_of_grown hu.grown hdeep hlive fun r hr p hp => requireBelow_silent hhonest h hr hp

/-! ### Assignments -/

/-- The binding whose own place an assignment to `target` writes: the target is the
variable, or a path that starts at it. -/
inductive Owns (s : State) (target : Expr Span) : BindingId → Binding → Prop where
  | bare {name : String} {id : BindingId} {b : Binding} : target.form = .var name →
    s.scopes.lookup name = some (id, b) → Owns s target id b
  | path {head : Expr Span} {steps : List (Step Span)} {name : String} {id : BindingId} {b : Binding} :
    target.form = .path head steps → head.var? = some name → head.ty.isRef = false →
    s.scopes.lookup name = some (id, b) → Owns s target id b

/-- The binding that an assignment to `target` writes through a reference: the target is
a path from a write reference into `region` or what it refers to, and `region` is that
of a borrow block that lends the binding for writing. -/
inductive Lends (s : State) (target : Expr Span) (region : String) : BindingId → Binding → Prop where
  | write {head : Expr Span} {referent : Ty} {r : Region} {ref : Reference} {b : Binding} :
    ((∃ steps, target.form = .path head steps) ∨ target.form = .deref head) →
    head.ty = .ref .write region referent → s.regions.get? region = some r → r.kind = .explicit →
    ref ∈ r.references → ref.kind = .write → s.scopes.get? ref.binding = some b →
    Lends s target region ref.binding b

/-- An assignment that reports nothing comes to the admission of its place in a state
where the regions of the value are open. -/
theorem admitted (hs : Ready s) (hhonest : Honest s) {ty : Ty} {head value : Expr Span}
    {steps : List (Step Span)} {pos : Span}
    (h : (perform c (actions value ++ placeActions ty head steps value pos) s).found = []) :
    ∃ u, Evaluated s u ∧ Honest u ∧ (perform c (admitActions head value pos) u).found = [] ∧
      (∀ r ∈ value.ty.regions, ∃ p, u.regions.position? r = some p) ∧
      ∀ r p, s.regions.position? r = some p → u.regions.position? r = some p := by
  let before := actions value ++ (headActions head ++ stepsActions steps)
  have hplain : before.all Action.plain = true := by
    show (actions value ++ (headActions head ++ stepsActions steps)).all Action.plain = true
    rw [List.all_append, List.all_append, plain_actions, plain_headActions, plain_stepsActions]
    rfl
  have hsplit : actions value ++ placeActions ty head steps value pos =
      before ++ (admitActions head value pos ++ [.forbid ty (.discarded head.var? ty.text pos) rfl]) := by
    show _ = (actions value ++ (headActions head ++ stepsActions steps)) ++ _
    rw [placeActions, List.append_assoc, List.append_assoc]
  have hrest := h
  rw [hsplit, perform_append, perform_append] at hrest
  have hvalue : (perform c (actions value) s).found = [] := by
    rw [perform_append] at h
    exact (grown_perform ..).eq_nil h
  refine ⟨perform c before s, ?_, ?_, ?_, fun r hr => ?_, fun r p hp => ?_⟩
  · exact evaluated_perform c hs.settled (Evaluated.refl hs.coherent) hplain
  · exact (grown_perform ..).honest hhonest
  · exact (grown_perform ..).eq_nil hrest
  · obtain ⟨p, hp⟩ := actions_silent hhonest hvalue hr
    refine ⟨p, ?_⟩
    show (perform c (actions value ++ (headActions head ++ stepsActions steps)) s).regions.position? r = some p
    rw [perform_append]
    exact position?_perform hp
  · exact position?_perform hp

theorem admitActions_of_ref {head value : Expr Span} {pos : Span} {region : String} {referent : Ty}
    (hty : head.ty = .ref .write region referent) : admitActions head value pos =
      [.outlast region value.ty head.var? value.pos] := by
  unfold admitActions
  rw [hty]

/-- Of an assignment to a binding's own place. -/
theorem Owns.below (hs : Ready s) (hhonest : Honest s) {target value : Expr Span} {pos : Span}
    (h : (perform c (actions value ++ storeActions target value pos) s).found = []) {id : BindingId}
    {b : Binding} (howns : Owns s target id b) : s.regions.Below value.ty b.regionDepth := by
  cases howns with
  | @bare name _ _ hform hlookup =>
    rw [storeActions, hform, perform_append] at h
    have hvalue := (grown_perform ..).eq_nil h
    have houtlives : (requireOutlives c name value.ty value.pos (perform c (actions value) s)).found = [] :=
      (grown_act c (.overwrite name pos) _).eq_nil h
    exact requireOutlives_silent hs
      (evaluated_perform c hs.settled (Evaluated.refl hs.coherent) (plain_actions value))
      ((grown_perform ..).honest hhonest) hlookup (fun r hr => actions_silent hhonest hvalue hr) houtlives
  | @path head steps name _ _ hform hvar hty hlookup =>
    rw [storeActions, hform] at h
    obtain ⟨u, hu, hhonest', hadmit, hlive, _⟩ := admitted hs hhonest h
    rw [admitActions_of_plain hty, hvar] at hadmit
    have hread := evaluated_read c hu name .unfrozenRoot pos
    refine requireOutlives_silent hs hread ((grown_act c (.read name (some .unfrozenRoot) pos) u).honest hhonest')
      hlookup (fun r hr => ?_) hadmit
    obtain ⟨p, hp⟩ := hlive r hr
    exact ⟨p, @position?_act c u (.read name (some .unfrozenRoot) pos) r p hp⟩

/-- Of a write through a reference of a borrow block. -/
theorem Lends.below (hs : Ready s) (hhonest : Honest s) {target value : Expr Span} {pos : Span}
    (h : (perform c (actions value ++ storeActions target value pos) s).found = []) {region : String}
    {id : BindingId} {b : Binding} (hlends : Lends s target region id b) :
    ∃ limit, s.regions.position? region = some limit ∧ b.regionDepth ≤ limit ∧ s.regions.Below value.ty limit := by
  obtain @⟨head, referent, r, ref, _, hform, hty, hget, hkind, href, _, hb⟩ := hlends
  obtain ⟨inner, outer, hsplit, hname, hinner⟩ := Regions.get?_eq_some_iff.mp hget
  have hpos : s.regions.position? region = some outer.length := by
    rw [hsplit]
    exact Regions.position?_append_of_ne hname hinner
  have hdepth : b.regionDepth ≤ outer.length :=
    (hs.coherent.accounted hb).sheltered hsplit (by rw [hkind]; decide) ref href rfl
  have hplace : ∃ steps, storeActions target value pos = placeActions target.ty head steps value pos := by
    unfold storeActions
    rcases hform with ⟨steps, hform⟩ | hform
    · exact ⟨steps, by rw [hform]⟩
    · exact ⟨[], by rw [hform]⟩
  obtain ⟨steps, hplace⟩ := hplace
  rw [hplace] at h
  obtain ⟨u, hu, hhonest', hadmit, hlive, hstable⟩ := admitted hs hhonest h
  rw [admitActions_of_ref hty] at hadmit
  change (requireOutlasts c region value.ty head.var? value.pos u).found = [] at hadmit
  rw [requireOutlasts, hstable region _ hpos] at hadmit
  refine ⟨outer.length, hpos, hdepth, below_of_grown hu.grown ?_ hlive fun r hr p hp =>
    requireBelow_silent hhonest' hadmit hr hp⟩
  rw [hsplit]
  simp only [List.length_append, List.length_cons]
  omega

/-- In an accepted function, a value assigned to a binding's own place mentions regions
that were open where the binding was defined. One written through a borrow block's
alias mentions regions around the block's own, and so keeps that rule exactly if it
mentions none that was opened between the definition and the block. -/
theorem assigned_regions {T : TypeTable} {settings : Settings} {f : FunDef Span} {usage : Usage}
    (hok : checkFunction T settings f = .ok usage) {pos : Span} {target value : Expr Span} {s : State}
    (h : Reached ⟨T, .ofParams f.typeParams, settings⟩ f (.stmt (.assign pos target value)) s) :
    (∀ id b, Owns s target id b → s.regions.Below value.ty b.regionDepth) ∧
    (∀ region id b, Lends s target region id b →
      ∃ limit, s.regions.position? region = some limit ∧ b.regionDepth ≤ limit ∧
        s.regions.Below value.ty limit ∧
        (s.regions.Below value.ty b.regionDepth ↔
          ∀ r ∈ value.ty.regions, ∀ p, s.regions.position? r = some p → ¬ (b.regionDepth ≤ p ∧ p < limit))) := by
  have hhonest : Honest s := by
    cases h
    exact fun he => absurd rfl he
  have hsilent : (perform ⟨T, .ofParams f.typeParams, settings⟩
      (actions value ++ storeActions target value pos) s).found = [] := by
    have hfound := (Reached.assigned h).found
    rw [found_of_ok hok, List.prefix_nil] at hfound
    rwa [Task.run, closing, closeStatements_found] at hfound
  refine ⟨fun id b howns => howns.below h.ready hhonest hsilent, fun region id b hlends => ?_⟩
  obtain ⟨limit, hlimit, hdepth, hbelow⟩ := hlends.below h.ready hhonest hsilent
  refine ⟨limit, hlimit, hdepth, hbelow, fun hkeeps r hr p hp hgap => ?_, fun hgap r hr => ?_⟩
  · obtain ⟨q, hq, hlt⟩ := hkeeps r hr
    rw [hp] at hq
    cases hq
    omega
  · obtain ⟨p, hp, hlt⟩ := hbelow r hr
    have := hgap r hr p hp
    exact ⟨p, hp, by omega⟩

/-! ### A region that escapes -/

/-- `!w`, where `w` refers to `x`. -/
def stashTarget : Expr Span :=
  ⟨⟨1, 1⟩, .ref .read "P" .int,
    .deref ⟨⟨0, 1⟩, .ref .write "R" (.ref .read "P" .int), .var "w"⟩⟩

/-- `v`, a reference into the region `Q`. -/
def stashValue : Expr Span := ⟨⟨2, 1⟩, .ref .read "Q" .int, .var "v"⟩

/-- A function that stores a reference to its parameter `y` in its parameter `x`: it
borrows `y` in a region `Q`, then `x` in a region `R`, and writes through the alias. -/
def stash : FunDef Span where
  pos := ⟨23, 1⟩
  name := ⟨⟨21, 1⟩, "stash"⟩
  typeParams := [⟨⟨16, 1⟩, ⟨⟨15, 1⟩, "P"⟩, .region⟩]
  params := [⟨⟨18, 1⟩, ⟨⟨17, 1⟩, "x"⟩, .ref .read "P" .int⟩, ⟨⟨20, 1⟩, ⟨⟨19, 1⟩, "y"⟩, .int⟩]
  ret := .unit
  body := ⟨⟨22, 1⟩, [.borrow ⟨13, 1⟩ .read ⟨⟨9, 1⟩, "y"⟩ ⟨⟨10, 1⟩, "v"⟩ ⟨⟨11, 1⟩, "Q"⟩
    ⟨⟨12, 1⟩, [.borrow ⟨8, 1⟩ .write ⟨⟨4, 1⟩, "x"⟩ ⟨⟨5, 1⟩, "w"⟩ ⟨⟨6, 1⟩, "R"⟩
      ⟨⟨7, 1⟩, [.assign ⟨3, 1⟩ stashTarget stashValue]⟩]⟩]⟩

def stashContext : Context := ⟨⟨[]⟩, .ofParams stash.typeParams, {}⟩

/-- Where `stash` comes to its assignment. -/
def stashState : State :=
  let outer := {pushScope (entryState stashContext stash) with escaped := []}
  let inner := (enterBorrow stashContext .read ⟨⟨9, 1⟩, "y"⟩ ⟨⟨10, 1⟩, "v"⟩ ⟨⟨11, 1⟩, "Q"⟩ outer).2
  let body := (enterBorrow stashContext .write ⟨⟨4, 1⟩, "x"⟩ ⟨⟨5, 1⟩, "w"⟩ ⟨⟨6, 1⟩, "R"⟩
    {pushScope inner with escaped := []}).2
  {pushScope body with escaped := []}

theorem stash_reached : Reached stashContext stash (.stmt (.assign ⟨3, 1⟩ stashTarget stashValue)) stashState :=
  have houter : Reached stashContext stash (.stmts stash.body.stmts) _ := .inside .body
  .first (.inside (.borrow (.first (.inside (.borrow (.first houter (by cbv)))) (by cbv)))) (by cbv)

theorem stash_accepted : ∃ usage, checkFunction ⟨[]⟩ {} stash = .ok usage := by
  have hfound : (runFunction stashContext stash).found = [] := by cbv
  refine ⟨⟨"stash", (runFunction stashContext stash).events⟩, ?_⟩
  unfold checkFunction
  exact if_pos (by rw [List.isEmpty_iff]; exact hfound)

theorem stash_lends : Lends stashState stashTarget "R" ⟨0, 0⟩
    ⟨"x", .ref .read "P" .int, .free, ⟨18, 1⟩, 1, .unconsumed⟩ := by
  have hregion : stashState.regions.get? "R" =
      some ⟨"R", .explicit, ⟨6, 1⟩, [⟨.write, ⟨0, 0⟩, ⟨4, 1⟩, false⟩]⟩ := by cbv
  have hx : stashState.scopes.get? ⟨0, 0⟩ =
      some ⟨"x", .ref .read "P" .int, .free, ⟨18, 1⟩, 1, .unconsumed⟩ := by cbv
  exact @Lends.write _ _ _ _ _ _ ⟨.write, ⟨0, 0⟩, ⟨4, 1⟩, false⟩ _ (.inr rfl) rfl hregion rfl
    (List.mem_singleton_self _) rfl hx

/-- `stash` is accepted, though `Q` was not open where `x` was defined. -/
theorem stash_escapes : (∃ usage, checkFunction ⟨[]⟩ {} stash = .ok usage) ∧
    ∃ s id b, Reached stashContext stash (.stmt (.assign ⟨3, 1⟩ stashTarget stashValue)) s ∧
      Lends s stashTarget "R" id b ∧ ¬ s.regions.Below stashValue.ty b.regionDepth := by
  refine ⟨stash_accepted, stashState, _, _, stash_reached, stash_lends, fun hbelow => ?_⟩
  have hq : stashState.regions.position? "Q" = some 1 := by cbv
  have hmem : "Q" ∈ stashValue.ty.regions := by simp [stashValue, Ty.regions]
  obtain ⟨p, hp, hlt⟩ := hbelow "Q" hmem
  rw [hq] at hp
  cases hp
  exact Nat.lt_irrefl 1 hlt

/-- What does hold of `stash`: the value's region lies around `R`, at position 2. -/
theorem assigned_regions_stash : (∃ usage, checkFunction ⟨[]⟩ {} stash = .ok usage) ∧
    Reached stashContext stash (.stmt (.assign ⟨3, 1⟩ stashTarget stashValue)) stashState ∧
    ∃ limit, stashState.regions.position? "R" = some limit ∧ 1 ≤ limit ∧
      stashState.regions.Below stashValue.ty limit := by
  obtain ⟨usage, hok⟩ := stash_accepted
  obtain ⟨limit, hlimit, hdepth, hbelow, _⟩ := (assigned_regions hok stash_reached).2 "R" _ _ stash_lends
  exact ⟨⟨usage, hok⟩, stash_reached, limit, hlimit, hdepth, hbelow⟩

end Check

end Linearity
