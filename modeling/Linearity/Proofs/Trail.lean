import Linearity.Proofs.Faithful

/-! What happens along a path.

`Path.trail` lists, in order, the moves that the run of a path makes, the scopes that it
leaves and the return that it ends with, each with the state it happens in. A run that
finds nothing has a sound trail: every move succeeds, every linear binding of a scope is
consumed when the scope is left, and nothing is live at a return (`sound_trail`). -/
namespace Linearity.Check
variable (c : Context)

/-- The move that a borrow of what `name` leads to begins with, if it has to freeze it. -/
def freezing (kind : RefKind) (name : String) (pos : Span) (s : State) :
    Option (Except Violation (Option BindingId)) :=
  match s.scopes.lookup name with
  | some (id, _) => if (s.regions.referenceTo id).isSome then none else some (s.scopes.freeze name kind pos).1
  | none => none

/-- How the move goes that an action is, if it is one. -/
def Action.move? (s : State) : Action → Option (Except Violation (Option BindingId))
  | .consume name pos => some (s.scopes.consume name pos).1
  | .read name reads pos => some (s.scopes.read name (reads.getD c.settings.leafReads) pos).1
  | .overwrite name pos => some (s.scopes.overwrite name pos).1
  | .borrow kind target (.ref _ region _) pos =>
    match enterStatement region pos s with
    | .ok t => freezing kind target pos t
    | .error _ => none
  | _ => none

inductive Mark where
  | move (outcome : Except Violation (Option BindingId))
  /-- A scope ends and control goes on. -/
  | leave (scopes : Scopes)
  | ret (scopes : Scopes)

def Mark.Sound : Mark → Prop
  | .move outcome => ∃ moved, outcome = .ok moved
  | .leave scopes => ∀ b ∈ scopes.pop.1, b.isLinear = true → b.state.isConsumed = true
  | .ret scopes => scopes.live = []

/-- The moves among some actions. -/
def moves : List Action → State → List Mark
  | [], _ => []
  | a :: acts, s => ((a.move? c s).toList.map Mark.move) ++ moves acts (act c a s)

/-- The move of a borrow block. -/
def lending (kind : RefKind) (source region : Ident Span) (s : State) : List Mark :=
  let entered := openBorrow c region s
  if entered.1 then (freezing kind source.name source.pos entered.2).toList.map Mark.move else []

/-- The scope that ends at `s`, if control is still here. -/
def leaving : Reach → State → List Mark
  | .continues, s => [.leave s.scopes]
  | .diverges, _ => []

def guardMoves : Option (Expr Span) → State → List Mark
  | some e, s => moves c (actions e) s
  | none, _ => []

/-- The moves, ends of scopes and return along a path without barriers. -/
def Path.trail {code : Code} {r : Reach} : Path code r → State → List Mark
  | .bind _ _ _ value, s | .unpack _ _ value, s | .discard _ value, s => moves c (actions value) s
  | .assign pos target value, s => moves c (actions value ++ storeActions target value pos) s
  | .ret _ value, s => moves c (actions value) s ++ [.ret (evalClosed c value s).scopes]
  | .choose path, s | .loop _ path, s | .nested path, s | .otherwise _ path, s | .passedArm _ path, s => path.trail s
  | .select _ scrutinee path, s => moves c (actions scrutinee) s ++ path.trail (evalClosed c scrutinee s)
  | .count _ var first last path, s =>
    let lower := evalClosed c first s
    let entry := define c var.name .int var.pos (pushScope (evalClosed c last lower))
    moves c (actions first) s ++ moves c (actions last) lower ++ path.trail entry ++
      leaving r (path.run c false entry)
  | .borrow _ kind source name region path, s =>
    let entry := (enterBorrow c kind source name region s).2
    lending c kind source region s ++ path.trail entry ++ leaving r (path.run c false entry)
  | .block _ path, s => path.trail (pushScope s) ++ leaving r (path.run c false (pushScope s))
  | .nil, _ | .skipped _, _ => []
  | .next first path, s =>
    first.trail {s with escaped := []} ++ path.trail (secluded (first.run c false) s)
  | .stop _ first, s => first.trail {s with escaped := []}
  | .taken _ cond _ _ _ path, s => moves c (actions cond) s ++ path.trail (evalClosed c cond s)
  | .passed branch path, s => moves c (actions branch.cond) s ++ path.trail (evalClosed c branch.cond s)
  | .arm _ _ parts _ path, s =>
    let entry := Check.unpack c parts (pushScope s)
    path.trail entry ++ leaving r (path.run c false entry)
  | .done cond _, s => guardMoves c cond s
  | @Path.again cond _ _ round path, s =>
    let entry := evalGuard c cond s
    guardMoves c cond s ++ round.trail entry ++ path.trail (round.run c false entry)
  | .left cond round, s => guardMoves c cond s ++ round.trail (evalGuard c cond s)

/-- All of a function, its parameters' scope included. -/
def Path.trailFunction (f : FunDef Span) {r : Reach} (path : Path (.block f.body) r) : List Mark :=
  path.trail c (entryState c f) ++ leaving r (path.run c false (entryState c f))

/-! ### Soundness -/

def Sound (trail : List Mark) : Prop := ∀ mark ∈ trail, mark.Sound

namespace Sound
variable {trail trail' : List Mark}

theorem nil : Sound [] := fun _ h => nomatch h

theorem append (h : Sound trail) (h' : Sound trail') : Sound (trail ++ trail') := by
  intro mark hmark
  rcases List.mem_append.mp hmark with hmark | hmark
  · exact h mark hmark
  · exact h' mark hmark

/-- A move that does not fail is a sound mark, and so is none at all. -/
theorem of_move {outcome? : Option (Except Violation (Option BindingId))}
    (h : ∀ v, outcome? ≠ some (.error v)) : Sound (outcome?.toList.map Mark.move) := by
  intro mark hmark
  obtain ⟨outcome, houtcome, rfl⟩ := List.mem_map.mp hmark
  have hsome := Option.mem_toList.mp houtcome
  cases outcome with
  | error v => exact absurd hsome (h v)
  | ok moved => exact ⟨moved, rfl⟩

end Sound

section Steps
variable {c} {s : State}

/-- A move fails only with a report. -/
theorem settle_error {name : String} {pos : Span} {move : Binding → Except Violation BindingState} {event : Event}
    (h : (settle c (s.scopes.attempt name pos move) event s).found = []) (v : Violation) :
    some (s.scopes.attempt name pos move).1 ≠ some (.error v) := by
  intro herror
  have hsettle : settle c (s.scopes.attempt name pos move) event s = report c v s := by
    unfold settle
    split
    · rename_i hok
      rw [hok] at herror
      cases herror
    · rename_i hok
      rw [hok] at herror
      cases herror
    · rename_i w _ hwrong
      rw [hwrong] at herror
      cases herror
      rfl
  rw [hsettle] at h
  exact report_found c v s h

/-- The move of a borrow fails only with a report. -/
theorem freezing_error {kind : RefKind} {name region : String} {pos : Span} {shareable : Bool}
    (h : (borrowNamed c kind name region pos shareable s).found = []) (v : Violation) :
    freezing kind name pos s ≠ some (.error v) := by
  intro herror
  unfold freezing at herror
  cases hlookup : s.scopes.lookup name with
  | none =>
    rw [hlookup] at herror
    cases herror
  | some e =>
    obtain ⟨id, b⟩ := e
    rw [borrowNamed_of_lookup c hlookup, borrowBinding] at h
    rw [hlookup] at herror
    dsimp only at herror
    cases href : s.regions.referenceTo id with
    | some held =>
      rw [href] at herror
      cases herror
    | none =>
      rw [href] at herror h
      dsimp only at h
      cases hfreeze : s.scopes.freeze name kind pos with
      | mk outcome scopes =>
        rw [hfreeze] at herror h
        cases outcome with
        | ok frozen => cases herror
        | error w => exact report_found c w s h

/-- An action that finds nothing makes its move, if it has one. -/
theorem sound_move {a : Action} (h : (act c a s).found = []) : Sound ((a.move? c s).toList.map Mark.move) := by
  refine .of_move fun v => ?_
  cases a with
  | consume name pos => exact settle_error h v
  | read name reads pos => exact settle_error h v
  | overwrite name pos => exact settle_error h v
  | borrow kind target ty pos =>
    cases ty with
    | ref k region referent =>
      change (borrowExpr c kind target (.ref k region referent) pos s).found = [] at h
      rw [borrowExpr_ref] at h
      show (match enterStatement region pos s with | .ok t => freezing kind target pos t | .error _ => none) ≠ _
      cases henter : enterStatement region pos s with
      | error w => exact fun herror => nomatch herror
      | ok t =>
        rw [henter] at h
        exact freezing_error h v
    | _ => exact fun herror => nomatch herror
  | _ => exact fun herror => nomatch herror

/-- Actions that find nothing make all their moves. -/
theorem sound_moves {acts : List Action} (h : (perform c acts s).found = []) : Sound (moves c acts s) := by
  induction acts generalizing s with
  | nil => exact .nil
  | cons a acts ih => exact (sound_move ((grown_perform c acts _).eq_nil h)).append (ih h)

theorem sound_operand {e : Expr Span} (h : (evalClosed c e s).found = []) : Sound (moves c (actions e) s) := by
  rw [evalClosed_eq, closing, closeStatements_found] at h
  exact sound_moves h

theorem sound_guard : ∀ {cond : Option (Expr Span)}, (evalGuard c cond s).found = [] → Sound (guardMoves c cond s)
  | some _, h => sound_operand h
  | none, _ => .nil

/-- A scope that is left without a report has its linear bindings consumed. -/
theorem sound_leaving {r : Reach} {pos : Span} (h : (onward r (leaveScope c .continues pos) s).found = []) :
    Sound (leaving r s) := by
  cases r with
  | diverges => exact .nil
  | continues =>
    intro mark hmark
    rw [leaving, List.mem_singleton] at hmark
    subst hmark
    intro b hb hlin
    cases hstate : b.state.isConsumed with
    | true => rfl
    | false =>
      have hlive : b.isLive = true := by rw [Binding.isLive, hlin, hstate]; rfl
      exact absurd h (leaveScope_ne_nil c hb hlive pos)

/-- A borrow block that is entered without a report can freeze what it borrows. -/
theorem sound_lending {kind : RefKind} {source name region : Ident Span}
    (h : (enterBorrow c kind source name region s).2.found = []) : Sound (lending c kind source region s) := by
  rw [enterBorrow_state] at h
  have hlend : (lend c kind source region s).found = [] := h
  unfold lend at hlend
  unfold lending
  dsimp only at hlend ⊢
  split
  · rename_i hopened
    rw [if_pos hopened] at hlend
    exact .of_move fun v => freezing_error hlend v
  · exact .nil

/-- A return without a report leaves nothing live. -/
theorem sound_ret {pos : Span} {value : Expr Span} (h : (ret c pos value s).found = []) :
    Sound [.ret (evalClosed c value s).scopes] := by
  intro mark hmark
  rw [List.mem_singleton] at hmark
  subst hmark
  have hlive := live_of_clean h
  rw [reportEscapes_scopes] at hlive
  exact hlive

end Steps

variable {c}

/-- What comes after cannot take back what was found. -/
theorem eq_nil_of_onward {r : Reach} {G : State → State} (hG : ∀ s, Grown s (G s)) {s : State}
    (h : (onward r G s).found = []) : s.found = [] := by
  cases r with
  | continues => exact (hG s).eq_nil h
  | diverges => exact h

/-- A run that finds nothing has a sound trail. -/
theorem sound_trail {code : Code} {r : Reach} (path : Path code r) {s : State}
    (h : (path.run c false s).found = []) : Sound (path.trail c s) := by
  have hrest : ∀ {code : Code} {r : Reach} (path : Path code r) {s : State},
      (path.run c false s).found = [] → s.found = [] := fun path _ h => ((faithful_run c false path).grown _).eq_nil h
  have hscope : ∀ {r : Reach} {pos : Span} {t : State}, (onward r (leaveScope c .continues pos) t).found = [] →
      t.found = [] := fun h => eq_nil_of_onward (grown_leaveScope c .continues _) h
  induction path generalizing s with
  | bind pos name ty value =>
    change (Check.bind c pos name ty value s).found = [] at h
    rw [bind_eq] at h
    have hvalue := (grown_perform c _ _).eq_nil h
    rw [← evalClosed_eq] at hvalue
    exact sound_operand hvalue
  | unpack pos parts value => exact sound_operand ((grown_unpack c parts _).eq_nil h)
  | assign pos target value =>
    change (Check.assign c pos target value s).found = [] at h
    rw [assign_eq, closing, closeStatements_found] at h
    exact sound_moves h
  | discard pos value =>
    change (Check.discard c pos value s).found = [] at h
    rw [discard_eq, closing, closeStatements_found, perform_append] at h
    exact sound_moves ((grown_perform c _ _).eq_nil h)
  | ret pos value =>
    have hvalue : (evalClosed c value s).found = [] := by
      have hret : (Check.ret c pos value s).found = [] := h
      rw [ret_eq, ← evalClosed_eq] at hret
      exact (grown_perform c _ _).eq_nil hret
    exact (sound_operand hvalue).append (sound_ret h)
  | choose path ih => exact ih h
  | select pos scrutinee path ih => exact (sound_operand (hrest path h)).append (ih h)
  | loop pos path ih => exact ih h
  | count pos var first last path ih =>
    have hrun := hscope h
    have hentry := hrest path hrun
    have hupper : (evalClosed c last (evalClosed c first s)).found = [] := hentry
    have hlower := (grown_evalClosed c last _).eq_nil hupper
    exact (((sound_operand hlower).append (sound_operand hupper)).append (ih hrun)).append (sound_leaving h)
  | @borrow pos kind source name region body r path ih =>
    have hleave : (onward r (leaveScope c .continues pos)
        (path.run c false (enterBorrow c kind source name region s).2)).found = [] := by
      cases r with
      | continues => exact (grown_leaveBorrow (enterBorrow c kind source name region s).1 pos _).eq_nil h
      | diverges => exact h
    have hrun := hscope hleave
    exact ((sound_lending (hrest path hrun)).append (ih hrun)).append (sound_leaving hleave)
  | nested path ih => exact ih h
  | block pos path ih => exact (ih (hscope h)).append (sound_leaving h)
  | nil => exact .nil
  | next first path ihfirst ih =>
    have hfirst := hrest path h
    exact (ihfirst (s := {s with escaped := []}) hfirst).append (ih h)
  | stop rest first ih => exact ih h
  | taken pos cond rest at₀ otherwise path ih => exact (sound_operand (hrest path h)).append (ih h)
  | passed branch path ih => exact (sound_operand (hrest path h)).append (ih h)
  | otherwise at₀ path ih => exact ih h
  | skipped at₀ => exact .nil
  | arm pos variant parts rest path ih => exact (ih (hscope h)).append (sound_leaving h)
  | passedArm arm path ih => exact ih h
  | done cond body => exact sound_guard h
  | again round path ihround ih =>
    have hround := hrest path h
    exact ((sound_guard (hrest round hround)).append (ihround hround)).append (ih h)
  | left cond round ih => exact (sound_guard (hrest round h)).append (ih h)

end Linearity.Check
