import Linearity.Proofs.Entries

/-! Values defined and values consumed.

The log of a run tells how often a name was given a linear value and how often that
value was consumed. `Tallied`: at any point the log has as many definitions of a name as
it has consumptions and as there are live bindings of that name, and no earlier point had
more consumptions than definitions. Every entry keeps the tally, and so does the run of a
path that finds nothing (`tallied_run`). -/
namespace Linearity.Check
variable (c : Context)

structure Tallied (s : State) : Prop where
  level : ∀ name, s.events.countP (Event.gives name) =
    s.events.countP (Event.takes name) + s.scopes.liveNamed name
  /-- Nothing was consumed before it was there. -/
  ahead : ∀ log, log <+: s.events → ∀ name, log.countP (Event.takes name) ≤ log.countP (Event.gives name)

namespace Tallied
variable {s t : State}

theorem of_same (h : Tallied s) (hevents : t.events = s.events)
    (hlive : ∀ name, t.scopes.liveNamed name = s.scopes.liveNamed name) : Tallied t := by
  constructor
  · intro name
    rw [hevents, hlive, h.level]
  · rw [hevents]
    exact h.ahead

/-- A step that logs one event. -/
theorem logged (h : Tallied s) (event : Event) (hevents : t.events = s.events ++ [event])
    (hlive : ∀ name, (event.gives name).toNat + s.scopes.liveNamed name =
      (event.takes name).toNat + t.scopes.liveNamed name) : Tallied t := by
  have hlevel : ∀ name, t.events.countP (Event.gives name) =
      t.events.countP (Event.takes name) + t.scopes.liveNamed name := by
    intro name
    have hone : ∀ q : Event → Bool, t.events.countP q = s.events.countP q + (q event).toNat := by
      intro q
      rw [hevents, List.countP_append]
      cases hq : q event <;> simp [hq]
    have hold := h.level name
    have hnew := hlive name
    rw [hone, hone]
    omega
  refine ⟨hlevel, fun log hlog name => ?_⟩
  rw [hevents] at hlog
  rcases List.prefix_concat_iff.mp hlog with rfl | hlog
  · have hnew := hlevel name
    rw [hevents] at hnew
    omega
  · exact h.ahead log hlog name

theorem entry {added : Option Event} (h : Tallied s) (hentry : Entry added s t) : Tallied t := by
  cases added with
  | none => exact h.of_same (hentry.events.trans (List.append_nil _)) fun name => (Nat.add_left_cancel (hentry.level name)).symm
  | some event => exact h.logged event hentry.events hentry.level

theorem entries (h : Tallied s) (hentries : Entries s t) : Tallied t := by
  induction hentries with
  | refl => exact h
  | tail _ hstep ih =>
    obtain ⟨added, hentry⟩ := hstep
    exact ih.entry hentry

end Tallied

/-- A step that keeps the tally if it finds nothing. -/
structure Tallies (F : State → State) : Prop where
  grown : ∀ s, Grown s (F s)
  tallied : ∀ {s}, (F s).found = [] → Tallied s → Tallied (F s)

theorem Books.tallies {F : State → State} (h : Books F) : Tallies F :=
  ⟨h.grown, fun hclean hs => hs.entries (h.entries hclean)⟩

theorem tallied_define {s : State} (h : Tallied s) (name : String) (ty : Ty) (pos : Span) :
    Tallied (define c name ty pos s) :=
  h.entry (entry_define c name ty pos s)

theorem tallies_leaveScope (pos : Span) : Tallies (leaveScope c .continues pos) := (books_leaveScope c pos).tallies

theorem tallied_run (barred : Bool) {code : Code} {r : Reach} (path : Path code r) {s : State}
    (hclean : (path.run c barred s).found = []) (h : Tallied s) : Tallied (path.run c barred s) :=
  ((books_law c barred).run path).tallies.tallied hclean h

end Linearity.Check
