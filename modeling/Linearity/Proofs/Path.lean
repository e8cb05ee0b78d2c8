import Linearity.Proofs.Growth

/-! Runs along one path.

A `Path` through a piece of code says which branch is taken wherever there is a
choice, how often each loop goes round, and so whether control reaches the end.
`Path.run` applies the effects of a check along it: conditions are evaluated up to the
branch that is taken, a loop's condition before every round and once more at its end,
and nothing happens after a return. There is nothing to join. Whether loops put up
their barriers is left open; with `barred` they do, as in a check.

`PathLaw` is how facts about single steps reach whole runs: a relation between two
ways to take a step that survives sequencing and every kind of bracket holds of the
run of every path (`PathLaw.run`). -/
namespace Linearity
namespace Check

/-- What a path can lead through. -/
inductive Code where
  | stmt (stmt : Stmt Span)
  | stmts (stmts : List (Stmt Span))
  | block (block : Block Span)
  /-- The branches still to come of the choice at `pos`. -/
  | branches (pos : Span) (branches : List (Branch Span)) (otherwise : Option (Block Span))
  | arms (arms : List (Arm Span))
  /-- The rounds still to come of a loop. -/
  | rounds (cond : Option (Expr Span)) (body : Block Span)

inductive Path : Code → Reach → Type where
  | bind (pos : Span) (name : Ident Span) (ty : Ty) (value : Expr Span) :
    Path (.stmt (.bind pos name ty value)) .continues
  | unpack (pos : Span) (parts : List (Unpacked Span)) (value : Expr Span) :
    Path (.stmt (.unpack pos parts value)) .continues
  | assign (pos : Span) (target value : Expr Span) : Path (.stmt (.assign pos target value)) .continues
  | discard (pos : Span) (value : Expr Span) : Path (.stmt (.discard pos value)) .continues
  | ret (pos : Span) (value : Expr Span) : Path (.stmt (.ret pos value)) .diverges
  | choose {pos : Span} {branches : List (Branch Span)} {otherwise : Option (Block Span)} {r : Reach}
    (path : Path (.branches pos branches otherwise) r) : Path (.stmt (.choose pos branches otherwise)) r
  | select (pos : Span) (scrutinee : Expr Span) {arms : List (Arm Span)} {r : Reach}
    (path : Path (.arms arms) r) : Path (.stmt (.select pos scrutinee arms)) r
  | loop (pos : Span) {cond : Expr Span} {body : Block Span} {r : Reach}
    (path : Path (.rounds (some cond) body) r) : Path (.stmt (.loop pos cond body)) r
  | count (pos : Span) (var : Ident Span) (first last : Expr Span) {body : Block Span} {r : Reach}
    (path : Path (.rounds none body) r) : Path (.stmt (.count pos var first last body)) r
  | borrow (pos : Span) (kind : RefKind) (source name region : Ident Span) {body : Block Span} {r : Reach}
    (path : Path (.block body) r) : Path (.stmt (.borrow pos kind source name region body)) r
  | nested {body : Block Span} {r : Reach} (path : Path (.block body) r) : Path (.stmt (.block body)) r
  | block (pos : Span) {stmts : List (Stmt Span)} {r : Reach} (path : Path (.stmts stmts) r) :
    Path (.block ⟨pos, stmts⟩) r
  | nil : Path (.stmts []) .continues
  | next {stmt : Stmt Span} {rest : List (Stmt Span)} {r : Reach} (first : Path (.stmt stmt) .continues)
    (path : Path (.stmts rest) r) : Path (.stmts (stmt :: rest)) r
  | stop {stmt : Stmt Span} (rest : List (Stmt Span)) (first : Path (.stmt stmt) .diverges) :
    Path (.stmts (stmt :: rest)) .diverges
  /-- The first of the branches is taken. -/
  | taken (pos : Span) (cond : Expr Span) {body : Block Span} (rest : List (Branch Span))
    (at₀ : Span) (otherwise : Option (Block Span)) {r : Reach} (path : Path (.block body) r) :
    Path (.branches at₀ (⟨pos, cond, body⟩ :: rest) otherwise) r
  | passed (branch : Branch Span) {rest : List (Branch Span)} {at₀ : Span}
    {otherwise : Option (Block Span)} {r : Reach} (path : Path (.branches at₀ rest otherwise) r) :
    Path (.branches at₀ (branch :: rest) otherwise) r
  | otherwise {block : Block Span} (at₀ : Span) {r : Reach} (path : Path (.block block) r) :
    Path (.branches at₀ [] (some block)) r
  | skipped (at₀ : Span) : Path (.branches at₀ [] none) .continues
  | arm (pos : Span) (variant : Ident Span) (parts : List (Unpacked Span)) {body : Block Span}
    (rest : List (Arm Span)) {r : Reach} (path : Path (.block body) r) :
    Path (.arms (⟨pos, variant, parts, body⟩ :: rest)) r
  | passedArm (arm : Arm Span) {rest : List (Arm Span)} {r : Reach} (path : Path (.arms rest) r) :
    Path (.arms (arm :: rest)) r
  | done (cond : Option (Expr Span)) (body : Block Span) : Path (.rounds cond body) .continues
  | again {cond : Option (Expr Span)} {body : Block Span} {r : Reach} (round : Path (.block body) .continues)
    (path : Path (.rounds cond body) r) : Path (.rounds cond body) r
  | left (cond : Option (Expr Span)) {body : Block Span} (round : Path (.block body) .diverges) :
    Path (.rounds cond body) .diverges

end Check

section Armed
variable {α : Type}

mutual

/-- Whether every selection in it has an arm. -/
def Stmt.armed : Stmt α → Bool
  | .choose _ branches none => Branch.allArmed branches
  | .choose _ branches (some block) => Branch.allArmed branches && block.armed
  | .select _ _ arms => !arms.isEmpty && Arm.allArmed arms
  | .loop _ _ body | .count _ _ _ _ body | .borrow _ _ _ _ _ body | .block body => body.armed
  | .bind .. | .unpack .. | .assign .. | .ret .. | .discard .. => true

def Block.armed : Block α → Bool
  | ⟨_, stmts⟩ => Stmt.allArmed stmts

def Stmt.allArmed : List (Stmt α) → Bool
  | [] => true
  | stmt :: rest => stmt.armed && Stmt.allArmed rest

def Branch.allArmed : List (Branch α) → Bool
  | [] => true
  | ⟨_, _, body⟩ :: rest => body.armed && Branch.allArmed rest

def Arm.allArmed : List (Arm α) → Bool
  | [] => true
  | ⟨_, _, _, body⟩ :: rest => body.armed && Arm.allArmed rest

end

end Armed

namespace Check
variable (c : Context)

/-! ### Runs -/

/-- A step taken only if control is still here. -/
def onward : Reach → (State → State) → State → State
  | .continues, F, s => F s
  | .diverges, _, s => s

/-- A step with its own list of reported regions. -/
def secluded (F : State → State) (s : State) : State :=
  {F {s with escaped := []} with escaped := s.escaped}

/-- A step behind the barrier of a loop, if there is one. -/
def fenced (barred : Bool) (r : Reach) (F : State → State) (s : State) : State :=
  if barred then onward r (exitLoop s) (F (enterLoop s)) else F s

/-- A step in a scope of its own. -/
def inScope (r : Reach) (pos : Span) (F : State → State) (s : State) : State :=
  onward r (leaveScope c .continues pos) (F (pushScope s))

/-- A step inside a borrow block. -/
def lent (r : Reach) (pos : Span) (kind : RefKind) (source name region : Ident Span) (F : State → State)
    (s : State) : State :=
  let entered := enterBorrow c kind source name region s
  onward r (fun s => leaveBorrow entered.1 pos (leaveScope c .continues pos s)) (F entered.2)

/-- A loop's condition, if it has one. -/
def evalGuard : Option (Expr Span) → State → State
  | some e, s => evalClosed c e s
  | none, s => s

/-- The state at the end of a path. -/
def Path.run (barred : Bool) {code : Code} {r : Reach} : Path code r → State → State
  | .bind pos name ty value, s => Check.bind c pos name ty value s
  | .unpack _ parts value, s => Check.unpack c parts (evalClosed c value s)
  | .assign pos target value, s => Check.assign c pos target value s
  | .discard pos value, s => Check.discard c pos value s
  | .ret pos value, s => Check.ret c pos value s
  | .choose path, s => path.run barred s
  | .select _ scrutinee path, s => path.run barred (evalClosed c scrutinee s)
  | .loop _ path, s => fenced barred r (path.run barred) s
  | .count pos var first last path, s =>
    -- The scope of the counter is left like any other, though it holds only a number.
    fenced barred r (fun s => inScope c r pos
      (fun s => path.run barred (define c var.name .int var.pos s))
      (evalClosed c last (evalClosed c first s))) s
  | .borrow pos kind source name region path, s => lent c r pos kind source name region (path.run barred) s
  | .nested path, s => path.run barred s
  | .block pos path, s => inScope c r pos (path.run barred) s
  | .nil, s => s
  | .next first path, s => path.run barred (secluded (first.run barred) s)
  | .stop _ first, s => secluded (first.run barred) s
  | .taken _ cond _ _ _ path, s => path.run barred (evalClosed c cond s)
  | .passed branch path, s => path.run barred (evalClosed c branch.cond s)
  | .otherwise _ path, s => path.run barred s
  | .skipped _, s => s
  | .arm pos _ parts _ path, s =>
    inScope c r pos (fun s => path.run barred (Check.unpack c parts s)) s
  | .passedArm _ path, s => path.run barred s
  | .done cond _, s => evalGuard c cond s
  | @Path.again cond _ _ round path, s => path.run barred (round.run barred (evalGuard c cond s))
  | .left cond round, s => round.run barred (evalGuard c cond s)

/-- The branches that are taken, by their places, and the state in which each is left. -/
def Path.exits (barred : Bool) {code : Code} {r : Reach} : Path code r → State → List (Span × State)
  | .bind .., _ | .unpack .., _ | .assign .., _ | .discard .., _ | .ret .., _ | .nil, _ | .done .., _ => []
  | .choose path, s | .nested path, s | .passedArm _ path, s => path.exits barred s
  | .select _ scrutinee path, s => path.exits barred (evalClosed c scrutinee s)
  | .loop _ path, s => path.exits barred (if barred then enterLoop s else s)
  | .count _ var first last path, s =>
    let bounds := evalClosed c last (evalClosed c first (if barred then enterLoop s else s))
    path.exits barred (define c var.name .int var.pos (pushScope bounds))
  | .borrow _ kind source name region path, s =>
    path.exits barred (enterBorrow c kind source name region s).2
  | .block _ path, s => path.exits barred (pushScope s)
  | .next first path, s =>
    first.exits barred {s with escaped := []} ++ path.exits barred (secluded (first.run c barred) s)
  | .stop _ first, s => first.exits barred {s with escaped := []}
  | .taken pos cond _ _ _ path, s =>
    (pos, path.run c barred (evalClosed c cond s)) :: path.exits barred (evalClosed c cond s)
  | .passed branch path, s => path.exits barred (evalClosed c branch.cond s)
  | @Path.otherwise last _ _ path, s => (last.pos, path.run c barred s) :: path.exits barred s
  | .skipped pos, s => [(pos, s)]
  | .arm pos _ parts _ path, s =>
    (pos, inScope c r pos (fun s => path.run c barred (Check.unpack c parts s)) s) ::
      path.exits barred (Check.unpack c parts (pushScope s))
  | @Path.again cond _ _ round path, s =>
    round.exits barred (evalGuard c cond s) ++ path.exits barred (round.run c barred (evalGuard c cond s))
  | .left cond round, s => round.exits barred (evalGuard c cond s)

/-- A path through the whole of a function, its parameters' scope included. -/
def Path.runFunction (barred : Bool) (f : FunDef Span) {r : Reach} (path : Path (.block f.body) r) : State :=
  onward r (leaveScope c .continues f.pos) (path.run c barred (entryState c f))

/-! ### Laws -/

/-- What makes a relation between steps hold of the runs of all paths, in either context, and
with or without barriers on either side. -/
structure PathLaw (c' : Context) (barred barred' : Bool) (Φ : Reach → (State → State) → (State → State) → Prop) :
    Prop where
  skip : Φ .continues (fun s => s) fun s => s
  seq : ∀ {r F G F' G'}, Φ .continues F G → Φ r F' G' → Φ r (fun s => F' (F s)) fun s => G' (G s)
  perform : ∀ {acts}, acts.all Action.binds = true → Φ .continues (perform c acts) (perform c' acts)
  closing : ∀ pos {acts}, acts.all Action.plain = true → Φ .continues (closing c pos acts) (closing c' pos acts)
  ret : ∀ ty name pos, Φ .diverges (Check.perform c [.ownRegions ty name pos, .allConsumed pos])
    (Check.perform c' [.ownRegions ty name pos, .allConsumed pos])
  inScope : ∀ {r F G} pos, Φ r F G → Φ r (inScope c r pos F) (inScope c' r pos G)
  lent : ∀ {r F G} pos kind source name region, Φ r F G →
    Φ r (lent c r pos kind source name region F) (lent c' r pos kind source name region G)
  fenced : ∀ {r F G}, Φ r F G → Φ r (fenced barred r F) (fenced barred' r G)
  secluded : ∀ {r F G}, Φ r F G → Φ r (secluded F) (secluded G)

namespace PathLaw
variable {c} {c' : Context} {barred barred' : Bool} {Φ : Reach → (State → State) → (State → State) → Prop}

theorem evalClosed (law : PathLaw c c' barred barred' Φ) (e : Expr Span) :
    Φ .continues (evalClosed c e) (evalClosed c' e) := by
  rw [funext (evalClosed_eq c e), funext (evalClosed_eq c' e)]
  exact law.closing e.pos (plain_actions e)

theorem evalGuard (law : PathLaw c c' barred barred' Φ) :
    ∀ cond : Option (Expr Span), Φ .continues (evalGuard c cond) (evalGuard c' cond)
  | some e => law.evalClosed e
  | none => law.skip

theorem unpack (law : PathLaw c c' barred barred' Φ) (parts : List (Unpacked Span)) :
    Φ .continues (unpack c parts) (unpack c' parts) := by
  rw [funext (unpack_eq c parts), funext (unpack_eq c' parts)]
  exact law.perform (binds_unpackActions parts)

theorem run (law : PathLaw c c' barred barred' Φ) {code : Code} {r : Reach} (path : Path code r) :
    Φ r (path.run c barred) (path.run c' barred') := by
  induction path with
  | bind pos name ty value =>
    show Φ _ (Check.bind c pos name ty value) (Check.bind c' pos name ty value)
    rw [funext fun s => bind_eq c pos s name ty value, funext fun s => bind_eq c' pos s name ty value]
    have hdefine := @perform _ _ _ _ _ law [.live ty (some name.name) pos, .define name.name ty name.pos] rfl
    exact (law.seq (law.closing _ (plain_actions value)) hdefine :)
  | unpack pos parts value => exact (law.seq (law.evalClosed value) (law.unpack parts) :)
  | assign pos target value =>
    show Φ _ (Check.assign c pos target value) (Check.assign c' pos target value)
    rw [funext fun s => assign_eq c pos s target value, funext fun s => assign_eq c' pos s target value]
    refine law.closing _ ?_
    rw [List.all_append, plain_actions, plain_storeActions]
    rfl
  | discard pos value =>
    show Φ _ (Check.discard c pos value) (Check.discard c' pos value)
    rw [funext fun s => discard_eq c pos s value, funext fun s => discard_eq c' pos s value]
    refine law.closing _ ?_
    rw [List.all_append, plain_actions]
    rfl
  | ret pos value =>
    show Φ _ (Check.ret c pos value) (Check.ret c' pos value)
    rw [funext fun s => ret_eq c pos s value, funext fun s => ret_eq c' pos s value]
    exact (law.seq (law.closing _ (plain_actions value)) (law.ret _ _ _) :)
  | choose path ih => exact ih
  | select pos scrutinee path ih => exact (law.seq (law.evalClosed scrutinee) ih :)
  | loop pos path ih => exact law.fenced ih
  | count pos var first last path ih =>
    have hbody := law.inScope pos (law.seq (@perform _ _ _ _ _ law [.define var.name .int var.pos] rfl) ih)
    exact (law.fenced (law.seq (law.evalClosed first) (law.seq (law.evalClosed last) hbody)) :)
  | borrow pos kind source name region path ih => exact law.lent pos kind source name region ih
  | nested path ih => exact ih
  | block pos path ih => exact law.inScope pos ih
  | nil => exact law.skip
  | next first path ihfirst ih => exact (law.seq (law.secluded ihfirst) ih :)
  | stop rest first ih => exact law.secluded ih
  | taken pos cond rest at₀ otherwise path ih => exact (law.seq (law.evalClosed cond) ih :)
  | passed branch path ih => exact (law.seq (law.evalClosed branch.cond) ih :)
  | otherwise at₀ path ih => exact ih
  | skipped at₀ => exact law.skip
  | arm pos variant parts rest path ih => exact (law.inScope pos (law.seq (law.unpack parts) ih) :)
  | passedArm arm path ih => exact ih
  | done cond body => exact law.evalGuard cond
  | again round path ihround ih => exact (law.seq (law.evalGuard _) (law.seq ihround ih) :)
  | left cond round ih => exact (law.seq (law.evalGuard cond) ih :)

end PathLaw

/-! ### Ways through -/

/-- There is a path through the code. -/
def Code.Passable (code : Code) : Prop := ∃ r, Nonempty (Path code r)

theorem passable_next {stmt : Stmt Span} {rest : List (Stmt Span)} (hfirst : Code.Passable (.stmt stmt))
    (hrest : Code.Passable (.stmts rest)) : Code.Passable (.stmts (stmt :: rest)) := by
  obtain ⟨r, ⟨first⟩⟩ := hfirst
  obtain ⟨r', ⟨path⟩⟩ := hrest
  cases r with
  | continues => exact ⟨r', ⟨.next first path⟩⟩
  | diverges => exact ⟨_, ⟨.stop rest first⟩⟩

mutual

/-- Where every selection has an arm, there is a way through. -/
theorem passable_stmt : ∀ stmt : Stmt Span, stmt.armed = true → Code.Passable (.stmt stmt)
  | .bind pos name ty value, _ => ⟨_, ⟨.bind pos name ty value⟩⟩
  | .unpack pos parts value, _ => ⟨_, ⟨.unpack pos parts value⟩⟩
  | .assign pos target value, _ => ⟨_, ⟨.assign pos target value⟩⟩
  | .discard pos value, _ => ⟨_, ⟨.discard pos value⟩⟩
  | .ret pos value, _ => ⟨_, ⟨.ret pos value⟩⟩
  | .choose pos branches none, h => by
    obtain ⟨r, ⟨path⟩⟩ := passable_branches pos branches none (by simpa [Stmt.armed] using h) nofun
    exact ⟨r, ⟨.choose path⟩⟩
  | .choose pos branches (some block), h => by
    simp only [Stmt.armed, Bool.and_eq_true] at h
    obtain ⟨r, ⟨path⟩⟩ := passable_branches pos branches (some block) h.1 fun _ hblock => by
      cases hblock
      exact passable_block block h.2
    exact ⟨r, ⟨.choose path⟩⟩
  | .select pos scrutinee arms, h => by
    simp only [Stmt.armed, Bool.and_eq_true] at h
    obtain ⟨r, ⟨path⟩⟩ := passable_arms arms h.1 h.2
    exact ⟨r, ⟨.select pos scrutinee path⟩⟩
  | .loop pos cond body, _ => ⟨_, ⟨.loop pos (.done (some cond) body)⟩⟩
  | .count pos var first last body, _ => ⟨_, ⟨.count pos var first last (.done none body)⟩⟩
  | .borrow pos kind source name region body, h => by
    obtain ⟨r, ⟨path⟩⟩ := passable_block body h
    exact ⟨r, ⟨.borrow pos kind source name region path⟩⟩
  | .block body, h => by
    obtain ⟨r, ⟨path⟩⟩ := passable_block body h
    exact ⟨r, ⟨.nested path⟩⟩

theorem passable_block : ∀ block : Block Span, block.armed = true → Code.Passable (.block block)
  | ⟨pos, stmts⟩, h => by
    obtain ⟨r, ⟨path⟩⟩ := passable_stmts stmts h
    exact ⟨r, ⟨.block pos path⟩⟩

theorem passable_stmts : ∀ stmts : List (Stmt Span), Stmt.allArmed stmts = true → Code.Passable (.stmts stmts)
  | [], _ => ⟨_, ⟨.nil⟩⟩
  | stmt :: rest, h => by
    simp only [Stmt.allArmed, Bool.and_eq_true] at h
    exact passable_next (passable_stmt stmt h.1) (passable_stmts rest h.2)

theorem passable_branches (pos : Span) : ∀ (branches : List (Branch Span)) (otherwise : Option (Block Span)),
    Branch.allArmed branches = true → (∀ block ∈ otherwise, Code.Passable (.block block)) →
    Code.Passable (.branches pos branches otherwise)
  | [], none, _, _ => ⟨_, ⟨.skipped pos⟩⟩
  | [], some block, _, hlast => by
    obtain ⟨r, ⟨path⟩⟩ := hlast block rfl
    exact ⟨r, ⟨.otherwise pos path⟩⟩
  | ⟨at₀, cond, body⟩ :: rest, otherwise, h, _ => by
    simp only [Branch.allArmed, Bool.and_eq_true] at h
    obtain ⟨r, ⟨path⟩⟩ := passable_block body h.1
    exact ⟨r, ⟨.taken at₀ cond rest pos otherwise path⟩⟩

theorem passable_arms : ∀ arms : List (Arm Span), (!arms.isEmpty) = true → Arm.allArmed arms = true →
    Code.Passable (.arms arms)
  | [], h, _ => nomatch h
  | ⟨pos, variant, parts, body⟩ :: rest, _, h => by
    simp only [Arm.allArmed, Bool.and_eq_true] at h
    obtain ⟨r, ⟨path⟩⟩ := passable_block body h.1
    exact ⟨r, ⟨.arm pos variant parts rest path⟩⟩

end

end Check

end Linearity
