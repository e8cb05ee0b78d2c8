import Mathlib
import Linearity.Proofs.Reached

/-! Loops leave the scopes alone.

A loop is checked behind a barrier: all linear bindings lie outside of it, and nothing that
is checked inside touches what lies outside (`Kept.isolated`). So a loop's body ends with
the scopes it began with, and that before the check goes back to them. Nor does it matter
how often the body is run: a loop that is checked round by round, and never goes back, ends
in the scopes that it found (`loops_isolated`). -/
namespace Linearity.Check
variable (c : Context) {s t : State}

/-! ### Rounds -/

/-- What keeps everything can be repeated behind a barrier, and changes no binding. -/
theorem iterate_isolated {step : State → State} (hstep : ∀ t, Ready t → Kept [] t (step t)) (hs : Ready s)
    (hwalled : Walled s) (n : Nat) : Ready (step^[n] s) ∧ (step^[n] s).scopes = s.scopes := by
  induction n with
  | zero => exact ⟨hs, rfl⟩
  | succ n ih =>
    obtain ⟨hready, hsame⟩ := ih
    have hkept := hstep _ hready
    rw [Function.iterate_succ_apply']
    exact ⟨hkept.ready hready, (hkept.scopes_eq hready (hwalled.of_same hsame)).trans hsame⟩

/-- A round of a loop with a condition. -/
def round (cond : Expr Span) (body : Block Span) (s : State) : State :=
  (checkBlock c body (evalClosed c cond s)).2

theorem kept_round (cond : Expr Span) (body : Block Span) (hs : Ready s) : Kept [] s (round c cond body s) := by
  have hcond := kept_evalClosed c hs cond
  exact hcond.trans (kept_checkBlock c body (hcond.ready hs))

/-- Where the body of a counting loop starts: both bounds are evaluated, and the counter has
a scope of its own. -/
def countEntry (var : Ident Span) (first last : Expr Span) (s : State) : State :=
  define c var.name .int var.pos (pushScope (evalClosed c last (evalClosed c first (enterLoop s))))

/-- A loop checked for `n` rounds, up to where its condition fails. -/
def repeated (n : Nat) (cond : Expr Span) (body : Block Span) (s : State) : State :=
  exitLoop s (evalClosed c cond ((round c cond body)^[n] (enterLoop s)))

/-- A counting loop checked for `n` rounds. -/
def counted (n : Nat) (var : Ident Span) (first last : Expr Span) (body : Block Span) (s : State) : State :=
  exitLoop s (popScope ((fun t => (checkBlock c body t).2)^[n] (countEntry c var first last s)))

/-! ### Behind the barrier -/

/-- Where the body of a loop starts, in which state the scopes are still those that the loop
found, behind the barrier, and all linear bindings lie outside. -/
theorem loop_entry (hs : Ready s) (cond : Expr Span) :
    Ready (evalClosed c cond (enterLoop s)) ∧ Walled (evalClosed c cond (enterLoop s)) ∧
      (evalClosed c cond (enterLoop s)).scopes = (enterLoop s).scopes := by
  have hcond := kept_evalClosed c hs.enterLoop cond
  have hsame := hcond.scopes_eq hs.enterLoop (walled_enterLoop s)
  exact ⟨hcond.ready hs.enterLoop, (walled_enterLoop s).of_same hsame, hsame⟩

theorem bounds_entry (hs : Ready s) (first last : Expr Span) :
    Ready (evalClosed c last (evalClosed c first (enterLoop s))) ∧
      Walled (evalClosed c last (evalClosed c first (enterLoop s))) ∧
      (evalClosed c last (evalClosed c first (enterLoop s))).scopes = (enterLoop s).scopes := by
  obtain ⟨hready, hwalled, hfirst⟩ := loop_entry c hs first
  have hlast := kept_evalClosed c hready last
  have hsame := hlast.scopes_eq hready hwalled
  exact ⟨hlast.ready hready, hwalled.of_same hsame, hsame.trans hfirst⟩

theorem count_entry (hs : Ready s) (var : Ident Span) (first last : Expr Span) :
    Ready (countEntry c var first last s) ∧ Walled (countEntry c var first last s) ∧
      (popScope (countEntry c var first last s)).scopes = (enterLoop s).scopes := by
  obtain ⟨hready, hwalled, hsame⟩ := bounds_entry c hs first last
  obtain ⟨new, hvar⟩ := kept_define c hready.pushScope var.name .int var.pos
  exact ⟨hvar.ready hready.pushScope, hwalled.counter var, hsame⟩

/-! ### Loops -/

theorem visit_loop_scopes (hs : Ready s) (pos : Span) (cond : Expr Span) (body : Block Span) :
    (visit c (.loop pos cond body) s).2.scopes = s.scopes := by
  obtain ⟨_, _, hsame⟩ := loop_entry c hs cond
  show (evalClosed c cond (enterLoop s)).scopes.exitLoop s.scopes.barrier = s.scopes
  rw [hsame, exitLoop_enterLoop]

theorem visit_count_scopes (hs : Ready s) (pos : Span) (var : Ident Span) (first last : Expr Span)
    (body : Block Span) : (visit c (.count pos var first last body) s).2.scopes = s.scopes := by
  obtain ⟨_, _, hsame⟩ := count_entry c hs var first last
  show (popScope (countEntry c var first last s)).scopes.exitLoop s.scopes.barrier = s.scopes
  rw [hsame, exitLoop_enterLoop]

theorem repeated_scopes (hs : Ready s) (n : Nat) (cond : Expr Span) (body : Block Span) :
    (repeated c n cond body s).scopes = s.scopes := by
  obtain ⟨hready, hrounds⟩ := iterate_isolated (fun _ ht => kept_round c cond body ht) hs.enterLoop
    (walled_enterLoop s) n
  have hwalled := (walled_enterLoop s).of_same hrounds
  have hlast := (kept_evalClosed c hready cond).scopes_eq hready hwalled
  show (evalClosed c cond _).scopes.exitLoop s.scopes.barrier = s.scopes
  rw [hlast, hrounds, exitLoop_enterLoop]

theorem counted_scopes (hs : Ready s) (n : Nat) (var : Ident Span) (first last : Expr Span) (body : Block Span) :
    (counted c n var first last body s).scopes = s.scopes := by
  obtain ⟨hready, hwalled, hsame⟩ := count_entry c hs var first last
  obtain ⟨_, hrounds⟩ := iterate_isolated (fun _ ht => kept_checkBlock c body ht) hready hwalled n
  have hpop : (popScope ((fun t => (checkBlock c body t).2)^[n] (countEntry c var first last s))).scopes =
      (enterLoop s).scopes := by
    rw [popScope, hrounds]
    exact hsame
  show Scopes.exitLoop (popScope _).scopes s.scopes.barrier = s.scopes
  rw [hpop, exitLoop_enterLoop]

/-- **Loops are isolated.** In every state of a check, a loop leaves the scopes exactly as they
were: every binding of every scope with its state, and the barrier. That is so where its body
ends already, before the scopes are put back, and after any number of rounds. -/
theorem loops_isolated (T : TypeTable) (settings : Settings) (f : FunDef Span) :
    let c : Context := ⟨T, .ofParams f.typeParams, settings⟩
    ∀ task s, Reached c f task s →
      (∀ pos cond body,
        let entry := evalClosed c cond (enterLoop s)
        (checkStmt c (.loop pos cond body) s).2.scopes = s.scopes ∧ entry.scopes = (enterLoop s).scopes ∧
          (checkBlock c body entry).2.scopes = entry.scopes ∧ ∀ n, (repeated c n cond body s).scopes = s.scopes) ∧
      ∀ pos var first last body,
        let entry := countEntry c var first last s
        (checkStmt c (.count pos var first last body) s).2.scopes = s.scopes ∧
          (popScope entry).scopes = (enterLoop s).scopes ∧ (checkBlock c body entry).2.scopes = entry.scopes ∧
          ∀ n, (counted c n var first last body s).scopes = s.scopes := by
  intro c task s h
  have hs := h.ready
  have hs' : Ready {s with escaped := []} := hs.of_same rfl rfl
  refine ⟨fun pos cond body => ?_, fun pos var first last body => ?_⟩
  · obtain ⟨hready, hwalled, hsame⟩ := loop_entry c hs cond
    exact ⟨visit_loop_scopes c hs' pos cond body, hsame,
      (kept_checkBlock c body hready).scopes_eq hready hwalled, fun n => repeated_scopes c hs n cond body⟩
  · obtain ⟨hready, hwalled, hsame⟩ := count_entry c hs var first last
    exact ⟨visit_count_scopes c hs' pos var first last body, hsame,
      (kept_checkBlock c body hready).scopes_eq hready hwalled,
      fun n => counted_scopes c hs n var first last body⟩

/-- `make()`, a new value of a linear type. -/
def made : Expr Span := ⟨⟨9, 1⟩, .param "A", .call ⟨⟨9, 1⟩, "make"⟩ []⟩

/-- An inner loop that makes a value in each round and closes it. -/
def spinning : Stmt Span := .count ⟨6, 6⟩ ⟨⟨6, 1⟩, "i"⟩ ⟨⟨7, 1⟩, .int, .lit (.int 0)⟩ ⟨⟨7, 1⟩, .int, .lit (.int 3)⟩
  ⟨⟨8, 4⟩, [.bind ⟨8, 1⟩ ⟨⟨8, 1⟩, "y"⟩ (.param "A") made,
    .discard ⟨10, 1⟩ ⟨⟨10, 1⟩, .unit, .call ⟨⟨10, 1⟩, "close"⟩ [⟨⟨11, 1⟩, .param "A", .var "y"⟩]⟩]⟩

/-- The body of an outer loop: it closes `x`, and goes round the inner one. -/
def spinnerBody : Block Span := ⟨⟨4, 8⟩,
  [.discard ⟨5, 1⟩ ⟨⟨5, 1⟩, .unit, .call ⟨⟨5, 1⟩, "close"⟩ [⟨⟨5, 1⟩, .param "A", .var "x"⟩]⟩, spinning]⟩

def spinnerCond : Expr Span := ⟨⟨3, 1⟩, .bool, .lit (.bool true)⟩

/-- A function that closes its parameter `x` in a loop, where it must not, and then for good. -/
def spinner : FunDef Span where
  pos := ⟨0, 16⟩
  name := ⟨⟨0, 1⟩, "spin"⟩
  typeParams := [⟨⟨1, 1⟩, ⟨⟨1, 1⟩, "A"⟩, .linear⟩]
  params := [⟨⟨2, 1⟩, ⟨⟨2, 1⟩, "x"⟩, .param "A"⟩]
  ret := .unit
  body := ⟨⟨3, 12⟩, [.loop ⟨3, 9⟩ spinnerCond spinnerBody,
    .discard ⟨13, 1⟩ ⟨⟨13, 1⟩, .unit, .call ⟨⟨13, 1⟩, "close"⟩ [⟨⟨14, 1⟩, .param "A", .var "x"⟩]⟩]⟩

def spinnerContext : Context := ⟨⟨[]⟩, .ofParams spinner.typeParams, {}⟩

def spinnerEntry : State := pushScope (entryState spinnerContext spinner)

/-- The use of `x` in the loop is found, and leaves `x` what it was: after the loop it can be
closed, and it could after seven rounds. -/
theorem loops_isolated_spinner :
    let c := spinnerContext
    let after := (checkStmt c (.loop ⟨3, 9⟩ spinnerCond spinnerBody) spinnerEntry).2
    Reached c spinner (.stmts spinner.body.stmts) spinnerEntry ∧
    after.found = [.usedInLoop "x" ⟨5, 1⟩ ⟨2, 1⟩] ∧ after.scopes = spinnerEntry.scopes ∧
    (checkBlock c spinnerBody (evalClosed c spinnerCond (enterLoop spinnerEntry))).2.scopes =
      (enterLoop spinnerEntry).scopes ∧
    (repeated c 7 spinnerCond spinnerBody spinnerEntry).scopes = spinnerEntry.scopes := by
  have hbody : Reached spinnerContext spinner (.stmts spinner.body.stmts) spinnerEntry := .inside .body
  have hloop := (loops_isolated ⟨[]⟩ {} spinner _ _ hbody).1 ⟨3, 9⟩ spinnerCond spinnerBody
  exact ⟨hbody, by cbv, hloop.1, hloop.2.2.1.trans hloop.2.1, hloop.2.2.2 7⟩

end Linearity.Check
