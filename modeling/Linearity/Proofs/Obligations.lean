import Mathlib
import Linearity.Proofs.Ledger

/-! The log of an accepted function.

Every linear value that the log gives to a name is consumed later under that name, every
use of a name comes after such a value was given, and every borrow is followed by the end
of its region (`event_obligations`). So the names that are moved are those that ever had a
linear value. All of that is about the one list in which the branches and the loops of the
function stand one after the other, whatever way control takes through them. -/
namespace Linearity

namespace Event
variable {x region : String} {e : Event}

theorem gives_iff : e.gives x = true ↔ ∃ pos, e = .define x pos true := by
  cases e with
  | define name pos linear => cases linear <;> simp [gives]
  | _ => simp [gives]

theorem takes_iff : e.takes x = true ↔ ∃ pos, e = .consume x pos := by
  cases e <;> simp [takes]

theorem closes_iff : e.closes region = true ↔ ∃ pos, e = .close region pos := by
  cases e <;> simp [closes]

end Event

theorem Usage.mem_consumes {u : Usage} {x : String} : x ∈ u.consumes ↔ ∃ pos, .consume x pos ∈ u.events := by
  unfold consumes
  rw [List.mem_filterMap]
  constructor
  · rintro ⟨e, he, heq⟩
    cases e <;> cases heq
    exact ⟨_, he⟩
  · rintro ⟨pos, he⟩
    exact ⟨_, he, rfl⟩

theorem Usage.fate_eq_moved {u : Usage} {x : String} : u.fate x = .moved ↔ ∃ pos, .consume x pos ∈ u.events := by
  rw [← mem_consumes, fate]
  by_cases hmoved : x ∈ u.consumes
  · simp [hmoved]
  · by_cases hborrowed : x ∈ u.borrows <;> simp [hmoved, hborrowed]

namespace Check
variable {c : Context} {f : FunDef Span} {s : State} {before after : List Event} {x : String}

/-! ### Reading the ledger -/

namespace Ledger
variable {held : String → Prop}

theorem consumed (h : Ledger held s) (hx : ¬ held x) {pos : Span}
    (hevents : s.events = before ++ .define x pos true :: after) : ∃ pos', .consume x pos' ∈ after := by
  have hnone : pending (Event.gives x) (Event.takes x) (before ++ .define x pos true :: after) = false :=
    Bool.eq_false_iff.mpr fun howed => hx (h.owed (hevents ▸ howed))
  obtain ⟨e, he, htakes⟩ := exists_answer hnone (Event.gives_iff.mpr ⟨pos, rfl⟩)
  obtain ⟨pos', rfl⟩ := Event.takes_iff.mp htakes
  exact ⟨pos', he⟩

theorem defined (h : Ledger held s) {e : Event} (huses : e.uses x = true) (hevents : s.events = before ++ e :: after) :
    ∃ pos, .define x pos true ∈ before := by
  have hlog : before ++ [e] <+: s.events := ⟨after, by rw [hevents, List.append_assoc]; rfl⟩
  obtain ⟨d, hd, hgives⟩ := h.prior hlog huses
  obtain ⟨pos, rfl⟩ := Event.gives_iff.mp hgives
  exact ⟨pos, hd⟩

theorem closed (h : Ledger held s) {kind : RefKind} {region : String} {pos : Span} (hregion : region ∉ s.regions.passing)
    (hevents : s.events = before ++ .borrow x kind region pos :: after) : ∃ pos', .close region pos' ∈ after := by
  have hnone : pending (Event.lends region) (Event.closes region)
      (before ++ .borrow x kind region pos :: after) = false :=
    Bool.eq_false_iff.mpr fun hlent => hregion (h.lent (hevents ▸ hlent))
  obtain ⟨e, he, hcloses⟩ := exists_answer hnone (beq_self_eq_true region)
  obtain ⟨pos', rfl⟩ := Event.closes_iff.mp hcloses
  exact ⟨pos', he⟩

end Ledger

/-! ### Functions -/

theorem ledger_initial : Ledger (fun _ => False) {} where
  owed h := nomatch h
  given h := by
    obtain ⟨id, b, hb, _⟩ := h
    have hentry : (id, b) ∈ Scopes.entriesIn Scopes.initial.frames := Scopes.mem_entriesIn.mpr hb
    cases hentry
  prior {x log e} h := absurd (List.prefix_nil.mp h) (List.append_ne_nil_of_right_ne_nil log (List.cons_ne_nil e []))
  lent h := nomatch h

/-- Where a function begins, nothing is due, and all open regions are its parameters. -/
theorem owing_entryState (c : Context) (f : FunDef Span) :
    Owing (fun _ => False) (.continues, entryState c f) ∧ (entryState c f).regions.passing = [] := by
  refine entryState_induction c
    (P := fun s => Owing (fun _ => False) (.continues, s) ∧ s.regions.passing = []) ⟨ledger_initial.owing, rfl⟩
    (fun s r hs => ?_) (fun s p hs => ?_) f
  · unfold enterFunctionRegion Regions.enter
    cases s.regions.get? r.name with
    | some prior =>
      refine ⟨hs.1.entry (.same (report_events ..) (report_scopes ..) (report_regions ..)) fun _ _ => rfl, ?_⟩
      exact (congrArg Regions.passing (report_regions ..)).trans hs.2
    | none => exact ⟨hs.1.entry (.silent rfl (fun _ => rfl) (fun _ hx => hx) fun _ hr => hr) fun _ _ => rfl, hs.2⟩
  · exact ⟨hs.1.entry (entry_define c p.name.name p.ty p.pos s) fun _ _ => rfl, hs.2⟩

/-- Where an accepted function ends, the log owes nothing, and nothing is lent. -/
theorem ledger_runFunction (harmed : f.body.armed = true) (hclean : (runFunction c f).found = []) :
    Ledger (fun _ => False) (runFunction c f) ∧ (runFunction c f).regions.passing = [] := by
  obtain ⟨hentry, hregions⟩ := owing_entryState c f
  have hready := ready_entryState c f
  have hbody := owing_checkBlock c harmed hready hentry ((grown_leaveScope ..).eq_nil hclean)
  refine ⟨(hbody.leaveScope f.pos hclean).weaken fun x hx => ?_, ?_⟩
  · rcases hx with hdue | ⟨_, hlive⟩
    · exact hdue
    · -- No scope is open, so no binding can be live.
      have hnone : (runFunction c f).scopes.liveNamed x = 0 := by
        rw [Scopes.liveNamed_eq, runFunction_frames]
        rfl
      exact absurd hnone (Nat.ne_of_gt hlive)
  · have hkept : (runFunction c f).regions = (entryState c f).regions :=
      (leaveScope_regions ..).trans (kept_checkBlock c f.body hready).regions
    rw [hkept]
    exact hregions

/-- In the log of an accepted function, each linear value is consumed after it was given, used
only after it was given, and what is borrowed is borrowed up to the end of a region. So a name
is moved exactly if it is ever given a linear value. -/
theorem event_obligations {T : TypeTable} {settings : Settings} {usage : Usage} (harmed : f.body.armed = true)
    (hok : checkFunction T settings f = .ok usage) :
    (∀ before after x pos, usage.events = before ++ .define x pos true :: after →
      ∃ pos', .consume x pos' ∈ after) ∧
    (∀ before after x pos, usage.events = before ++ .consume x pos :: after ∨
      usage.events = before ++ .read x pos :: after → ∃ pos', .define x pos' true ∈ before) ∧
    (∀ before after x kind region pos, usage.events = before ++ .borrow x kind region pos :: after →
      ∃ pos', .close region pos' ∈ after) ∧
    ∀ x, usage.fate x = .moved ↔ ∃ pos, .define x pos true ∈ usage.events := by
  have hclean := found_of_ok hok
  obtain ⟨hledger, hregions⟩ := ledger_runFunction harmed hclean
  obtain rfl := Except.ok.inj (hok.symm.trans (ok_of_found hclean))
  refine ⟨fun before after x pos => hledger.consumed id, fun before after x pos hsplit => ?_,
    fun before after x kind region pos => hledger.closed (hregions ▸ List.not_mem_nil), fun x => ?_⟩
  · rcases hsplit with hsplit | hsplit
    · exact hledger.defined (e := .consume x pos) (beq_self_eq_true x) hsplit
    · exact hledger.defined (e := .read x pos) (beq_self_eq_true x) hsplit
  · rw [Usage.fate_eq_moved]
    constructor
    · rintro ⟨pos, hconsume⟩
      obtain ⟨before, after, hsplit⟩ := List.append_of_mem hconsume
      obtain ⟨pos', hdefine⟩ := hledger.defined (e := .consume x pos) (beq_self_eq_true x) hsplit
      exact ⟨pos', hsplit ▸ List.mem_append_left _ hdefine⟩
    · rintro ⟨pos, hdefine⟩
      obtain ⟨before, after, hsplit⟩ := List.append_of_mem hdefine
      obtain ⟨pos', hconsume⟩ := hledger.consumed id hsplit
      exact ⟨pos', hsplit ▸ List.mem_append_right _ (List.mem_cons_of_mem _ hconsume)⟩

/-- A function that in one branch replaces its parameter and in the other borrows it, and gives
it away after a last look. -/
def renewer : FunDef Span where
  pos := ⟨0, 30⟩
  name := ⟨⟨0, 1⟩, "renew"⟩
  typeParams := [⟨⟨1, 1⟩, ⟨⟨1, 1⟩, "A"⟩, .linear⟩]
  params := [⟨⟨2, 1⟩, ⟨⟨2, 1⟩, "x"⟩, .param "A"⟩]
  ret := .unit
  body := ⟨⟨3, 27⟩, [
    .choose ⟨4, 10⟩ [⟨⟨4, 1⟩, ⟨⟨5, 1⟩, .bool, .lit (.bool true)⟩, ⟨⟨6, 4⟩, [
        .discard ⟨7, 1⟩ ⟨⟨7, 1⟩, .unit, .call ⟨⟨7, 1⟩, "close"⟩ [⟨⟨8, 1⟩, .param "A", .var "x"⟩]⟩,
        .assign ⟨9, 1⟩ ⟨⟨9, 1⟩, .param "A", .var "x"⟩ ⟨⟨10, 1⟩, .param "A", .call ⟨⟨10, 1⟩, "open"⟩ []⟩]⟩⟩]
      (some ⟨⟨11, 3⟩, [.borrow ⟨12, 2⟩ .read ⟨⟨12, 1⟩, "x"⟩ ⟨⟨13, 1⟩, "r"⟩ ⟨⟨14, 1⟩, "R"⟩ ⟨⟨15, 1⟩, []⟩]⟩),
    .discard ⟨16, 1⟩ ⟨⟨16, 1⟩, .int, .call ⟨⟨16, 1⟩, "look"⟩
      [⟨⟨17, 1⟩, .ref .read "S" (.param "A"), .borrow .read ⟨⟨17, 1⟩, "x"⟩⟩]⟩,
    .discard ⟨18, 1⟩ ⟨⟨18, 1⟩, .unit, .call ⟨⟨18, 1⟩, "close"⟩ [⟨⟨19, 1⟩, .param "A", .var "x"⟩]⟩]⟩

/-- What the first branch puts into `x` is consumed at the end of the function, long after the
branch is left behind; and the alias `r`, which never has a linear value, is not moved. -/
theorem event_obligations_renewer :
    let before : List Event := [.define "x" ⟨2, 1⟩ true, .consume "x" ⟨8, 1⟩]
    let after : List Event := [.borrow "x" .read "R" ⟨12, 1⟩, .define "r" ⟨13, 1⟩ false, .close "R" ⟨12, 2⟩,
      .borrow "x" .read "S" ⟨17, 1⟩, .close "S" ⟨16, 1⟩, .consume "x" ⟨19, 1⟩]
    let usage : Usage := ⟨"renew", before ++ .define "x" ⟨9, 1⟩ true :: after⟩
    renewer.body.armed = true ∧ checkFunction ⟨[]⟩ {} renewer = .ok usage ∧ (∃ pos, .consume "x" pos ∈ after) ∧
      usage.fate "x" = .moved ∧ usage.fate "r" ≠ .moved := by
  intro before after usage
  have hok : checkFunction ⟨[]⟩ {} renewer = .ok usage := by cbv
  obtain ⟨hconsumed, _, _, hfate⟩ := event_obligations (f := renewer) rfl hok
  refine ⟨rfl, hok, hconsumed before after "x" ⟨9, 1⟩ rfl, (hfate "x").mpr ⟨⟨9, 1⟩, ?_⟩, fun hmoved => ?_⟩
  · exact List.mem_append_right before List.mem_cons_self
  · obtain ⟨pos, hdefine⟩ := (hfate "r").mp hmoved
    simp [usage, before, after] at hdefine

end Check

end Linearity
