import Mathlib
import Linearity.Proofs.Relocate
import Linearity.Proofs.Tandem

/-! How freely parts of borrowed bindings are read.

A check that lets parts of a binding be read while the binding is borrowed for reading, beside
one that does not. They part at such a read only: the one logs it, the other reports it, and
both leave the scopes and the regions as they are. So the two walk on side by side, and what
the freer one finds is what the other finds without some of its borrow conflicts. -/
namespace Linearity

def Violation.isConflict : Violation → Bool
  | .borrowConflict .. => true
  | _ => false

namespace Scopes

/-- A read that is judged by the settings is of a binding that is borrowed for reading. -/
theorem read_any (s : Scopes) (name : String) (pos : Span) :
    s.read name .any pos = s.read name .unfrozenRoot pos ∨
      ∃ x prior id, s.read name .any pos = (.ok (some id), s) ∧
        s.read name .unfrozenRoot pos = (.error (.borrowConflict x prior pos), s) := by
  unfold read
  cases hlookup : s.lookup name with
  | none => exact .inl (by rw [attempt_of_lookup_none hlookup, attempt_of_lookup_none hlookup])
  | some e =>
    obtain ⟨id, b⟩ := e
    rw [attempt_of_lookup hlookup, attempt_of_lookup hlookup]
    cases hlin : b.isLinear with
    | false => exact .inl rfl
    | true =>
      cases hout : s.outsideLoop id with
      | true => exact .inl rfl
      | false =>
        cases hstate : b.state with
        | frozen kind prior =>
          cases kind with
          | read =>
            have hsame : s.setState id (.frozen .read prior) = s :=
              hstate ▸ setState_self (get?_of_lookup hlookup).1
            exact .inr ⟨b.name, prior, id, by simp [Binding.read, hstate, hsame], by simp [Binding.read, hstate]⟩
          | write => exact .inl (by simp [Binding.read, hstate])
        | unconsumed => exact .inl (by simp [Binding.read, hstate])
        | consumed at₀ => exact .inl (by simp [Binding.read, hstate])

end Scopes

namespace Check

/-- The same check, with parts of borrowed bindings read as told. -/
def Context.reading (reads : LeafReads) (c : Context) : Context :=
  {c with settings := {c.settings with leafReads := reads}}

/-- The second check has gone as far as the first. It may have been spared some conflicts. -/
structure Spared (s t : State) : Prop where
  regions : t.regions = s.regions
  escaped : t.escaped = s.escaped
  found : List.Sublist t.found s.found
  others : t.found.filter (fun v => !v.isConflict) = s.found.filter fun v => !v.isConflict
  events : s.found = [] → t.events = s.events

variable {c : Context} {s t : State}

/-- Steps of both checks alike. -/
theorem Spared.step (h : Spared s t) (hscopes : t.scopes = s.scopes) {F : State → State}
    (hF : ∀ u events found, F (u.following events found) = (F u).following events found) :
    Beside (fun a b => b = a) Spared (F s) (F t) := by
  obtain ⟨hregions, hescaped, hfound, hothers, hevents⟩ := h
  have hs : s = s.bare.following s.events s.found := State.eq_following rfl rfl rfl
  have ht : t = s.bare.following t.events t.found := State.eq_following hscopes hregions hescaped
  generalize s.bare = u at hs ht
  have hFs := congrArg F hs
  have hFt := congrArg F ht
  rw [hF] at hFs hFt
  rw [hFs, hFt]
  refine ⟨⟨rfl, rfl, hfound.append (List.Sublist.refl _), ?_, fun hnil => ?_⟩, rfl⟩
  · show (t.found ++ (F u).found).filter _ = (s.found ++ (F u).found).filter _
    rw [List.filter_append, List.filter_append, hothers]
  · show t.events ++ (F u).events = s.events ++ (F u).events
    rw [hevents (List.append_eq_nil_iff.mp hnil).1]

theorem Spared.halted (hc : c.Thorough) (s t : State) : Check.halted c t = Check.halted c s := by
  rw [hc.halted, hc.halted]

/-- All other actions are the same for both. -/
theorem act_reading {a : Action} (ha : ∀ name pos, a ≠ .read name none pos) (reads : LeafReads) (s : State) :
    act (c.reading reads) a s = act c a s := by
  cases a with
  | read name own pos =>
    cases own with
    | none => exact absurd rfl (ha name pos)
    | some reads => rfl
  | _ => rfl

/-- A read that the first check may have to report. -/
theorem spared_read (hc : c.Thorough) (h : Beside (fun a b => b = a) Spared s t) (name : String) (pos : Span) :
    Beside (fun a b => b = a) Spared (read c name .unfrozenRoot pos s) (read c name .any pos t) := by
  rcases s.scopes.read_any name pos with hsame | ⟨x, prior, id, hany, hstrict⟩
  · have hread : read c name .any pos t = read c name .unfrozenRoot pos t := by
      unfold read
      rw [h.scopes, hsame]
    rw [hread]
    exact h.rest.step h.scopes fun u _ _ => following_act (.inl hc) u (.read name (some .unfrozenRoot) pos)
  · have hreported : read c name .unfrozenRoot pos s = report c (.borrowConflict x prior pos) s := by
      unfold read
      rw [hstrict]
      rfl
    have hlogged : read c name .any pos t = {log (.read name pos) t with scopes := s.scopes} := by
      unfold read
      rw [h.scopes, hany]
      rfl
    obtain ⟨⟨hregions, hescaped, hfound, hothers, _⟩, _⟩ := h
    rw [hreported, hlogged]
    refine ⟨⟨?_, ?_, ?_, ?_, fun hnil => absurd hnil (report_found c _ s)⟩, (report_scopes c _ s).symm⟩
    · exact hregions.trans (report_regions ..).symm
    · exact hescaped.trans (report_escaped ..).symm
    · rw [hc.report_found]
      exact hfound.trans (List.sublist_append_left ..)
    · rw [hc.report_found, List.filter_append]
      exact hothers.trans (List.append_nil _).symm

/-- The two checks go side by side. -/
theorem spared_tandem (hc : c.Thorough) :
    Tandem (c.reading .unfrozenRoot) (c.reading .any) (fun a b => b = a) Spared (fun _ => True) 0 where
  prior _ _ := trivial
  apart _ _ h := ⟨h.regions, h.escaped, h.found, h.others, h.events⟩
  seclude h := ⟨h.regions, rfl, h.found, h.others, h.events⟩
  restore h h' := ⟨h'.regions, h.escaped, h'.found, h'.others, h'.events⟩
  halted {s t} _ := Spared.halted hc s t
  length h := congrArg List.length h.regions
  act {s t a} _ h _ := by
    by_cases ha : ∃ name pos, a = .read name none pos
    · obtain ⟨name, pos, rfl⟩ := ha
      exact spared_read hc h name pos
    · have hother : ∀ name pos, a ≠ .read name none pos := fun name pos heq => ha ⟨name, pos, heq⟩
      rw [act_reading hother, act_reading hother]
      exact h.rest.step h.scopes fun u _ _ => following_act (.inl hc) u a
  closeStatements base pos h _ := h.rest.step h.scopes fun u _ _ => following_closeStatements u base pos
  closeRegion pos h := h.rest.step h.scopes fun u _ _ => following_closeRegion u pos
  define name ty pos _ h := h.rest.step h.scopes fun u _ _ => following_act (.inl hc) u (.define name ty pos)
  push _ h := congrArg Scopes.push h
  pop _ h := congrArg (fun scopes => scopes.pop.2) h
  leave pos _ h _ := (h.rest.step h.scopes fun u _ _ => following_leaveScope (.inl hc) u .continues pos).rest
  lend {s t} kind source region h _ := by
    refine ⟨h.rest.step h.scopes fun u _ _ => following_lend (.inl hc) u kind source region, ?_, ?_⟩
    · unfold openBorrow
      rw [h.rest.regions]
      cases s.regions.enter region.name .explicit region.pos <;> rfl
    · rw [h.scopes]
  enterLoop _ h := congrArg (fun scopes => scopes.enterLoop.2) h
  exitLoop h h' := by rw [h, h']
  join {s₀ t₀ s t outcomes outcomes'} _ _ hexits h _ := by
    have hsame : outcomes' = outcomes :=
      (outcomes_of_exits (g := fun a => a) hexits).trans (List.map_id'' (fun o => by rw [Option.map_id']) outcomes)
    rw [hsame]
    have hstep := h.rest.step h.scopes (F := fun u => (join (c.reading .unfrozenRoot) outcomes u).2)
      fun u events found => congrArg Prod.snd (following_join (.inl hc) u outcomes)
    exact ⟨reach_join .., hstep.rest, fun _ => hstep.scopes⟩

/-- What is found when parts of bindings borrowed for reading may be read is what is found when
they may not, in the same order, without some of the borrow conflicts and with everything else.
A function accepted in the stricter way is accepted in the freer one, with the same events. -/
theorem free_reads_spare_conflicts (T : TypeTable) (settings : Settings) (f : FunDef Span) :
    let strict : Settings := {settings with policy := .accumulate, leafReads := .unfrozenRoot}
    let free : Settings := {settings with policy := .accumulate, leafReads := .any}
    List.Sublist (finalState T free f).found (finalState T strict f).found ∧
      (finalState T free f).found.filter (fun v => !v.isConflict) =
        (finalState T strict f).found.filter (fun v => !v.isConflict) ∧
      ∀ usage, checkFunction T strict f = .ok usage → checkFunction T free f = .ok usage := by
  intro strict free
  have hspared : Spared (finalState T strict f) (finalState T free f) := by
    have law := spared_tandem (c := ⟨T, .ofParams f.typeParams, strict⟩) rfl
    exact law.runFunction (law.same (.refl_block _ f.body))
      ⟨⟨rfl, rfl, List.Sublist.refl _, rfl, fun _ => rfl⟩, rfl⟩ trivial
  refine ⟨hspared.found, hspared.others, fun usage hok => ?_⟩
  have hclean : (finalState T strict f).found = [] := found_of_ok hok
  have hclean' : (finalState T free f).found = [] := List.sublist_nil.mp (hclean ▸ hspared.found)
  have hevents : (finalState T free f).events = (finalState T strict f).events := hspared.events hclean
  have hfree : checkFunction T free f = .ok ⟨f.name.name, (finalState T free f).events⟩ := ok_of_found hclean'
  rw [hfree, hevents]
  exact (ok_of_found hclean).symm.trans hok

/-- A function that looks at its parameter inside a borrow block, after it, or both. -/
def peek (inside after : List (Stmt Span)) : FunDef Span where
  pos := ⟨14, 1⟩
  name := ⟨⟨0, 1⟩, "peek"⟩
  typeParams := [⟨⟨1, 1⟩, ⟨⟨1, 1⟩, "A"⟩, .linear⟩]
  params := [⟨⟨2, 1⟩, ⟨⟨2, 1⟩, "x"⟩, .param "A"⟩]
  ret := .param "A"
  body := ⟨⟨13, 1⟩, [.borrow ⟨7, 1⟩ .read ⟨⟨3, 1⟩, "x"⟩ ⟨⟨4, 1⟩, "r"⟩ ⟨⟨5, 1⟩, "R"⟩ ⟨⟨6, 1⟩, inside⟩] ++ after ++
    [.ret ⟨12, 1⟩ ⟨⟨12, 2⟩, .param "A", .var "x"⟩]⟩

def readSize : Stmt Span :=
  .bind ⟨8, 1⟩ ⟨⟨8, 2⟩, "n"⟩ .int
    ⟨⟨9, 1⟩, .int, .path ⟨⟨10, 1⟩, .param "A", .var "x"⟩ [.field ⟨⟨11, 1⟩, "size"⟩]⟩

/-- Inside the borrow block the size may be read in the freer way only; after it, in both. -/
theorem free_reads_spare_conflicts_peek :
    (finalState ⟨[]⟩ {leafReads := .unfrozenRoot} (peek [readSize] [])).found = [.borrowConflict "x" ⟨3, 1⟩ ⟨10, 1⟩] ∧
      (finalState ⟨[]⟩ {leafReads := .any} (peek [readSize] [])).found = [] ∧
      List.Sublist (finalState ⟨[]⟩ {leafReads := .any} (peek [readSize] [])).found
        (finalState ⟨[]⟩ {leafReads := .unfrozenRoot} (peek [readSize] [])).found ∧
      ∃ usage, checkFunction ⟨[]⟩ {leafReads := .unfrozenRoot} (peek [] [readSize]) = .ok usage ∧
        checkFunction ⟨[]⟩ {leafReads := .any} (peek [] [readSize]) = .ok usage := by
  refine ⟨by cbv, by cbv, (free_reads_spare_conflicts ⟨[]⟩ {} (peek [readSize] [])).1, ?_⟩
  have hclean : (finalState ⟨[]⟩ {leafReads := .unfrozenRoot} (peek [] [readSize])).found = [] := by cbv
  exact ⟨_, ok_of_found hclean, (free_reads_spare_conflicts ⟨[]⟩ {} (peek [] [readSize])).2.2 _ (ok_of_found hclean)⟩

end Check

end Linearity
