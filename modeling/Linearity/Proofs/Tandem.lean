import Mathlib.Data.List.Forall2
import Mathlib.Data.Option.Basic
import Linearity.Proofs.Walk

/-! Two checks side by side.

A program and a rewritten copy of it are checked in tandem. `Rewrites B` says that a piece of
code comes from another if statements are replaced as `B` allows and everything around them is
left alone. `Tandem` lists what a relation between two states has to survive, step by step; the
two checks are then related all the way (`Tandem.holds`), whatever was replaced, provided that
the replacements are. The scopes of two checks are compared only where control goes on. -/
namespace Linearity.Check

/-! ### Rewriting -/

/-- Whether a statement holds no block. -/
def simple : Stmt Span → Bool
  | .bind .. | .unpack .. | .assign .. | .ret .. | .discard .. => true
  | _ => false

/-- Some statements are replaced as `B` says, none of them inside another. -/
inductive Rewrites (B : Stmt Span → Stmt Span → Prop) : Code → Code → Prop where
  | rule {stmt stmt' : Stmt Span} (h : B stmt stmt') : Rewrites B (.stmt stmt) (.stmt stmt')
  | simple {stmt : Stmt Span} (h : simple stmt = true) : Rewrites B (.stmt stmt) (.stmt stmt)
  | choose {pos : Span} {branches branches' : List (Branch Span)} {otherwise otherwise' : Option (Block Span)}
    (h : Rewrites B (.branches pos branches otherwise) (.branches pos branches' otherwise')) :
    Rewrites B (.stmt (.choose pos branches otherwise)) (.stmt (.choose pos branches' otherwise'))
  | select (pos : Span) (scrutinee : Expr Span) {arms arms' : List (Arm Span)}
    (h : Rewrites B (.arms arms) (.arms arms')) :
    Rewrites B (.stmt (.select pos scrutinee arms)) (.stmt (.select pos scrutinee arms'))
  | loop (pos : Span) (cond : Expr Span) {body body' : Block Span} (h : Rewrites B (.block body) (.block body')) :
    Rewrites B (.stmt (.loop pos cond body)) (.stmt (.loop pos cond body'))
  | count (pos : Span) (var : Ident Span) (first last : Expr Span) {body body' : Block Span}
    (h : Rewrites B (.block body) (.block body')) :
    Rewrites B (.stmt (.count pos var first last body)) (.stmt (.count pos var first last body'))
  | borrow (pos : Span) (kind : RefKind) (source name region : Ident Span) {body body' : Block Span}
    (h : Rewrites B (.block body) (.block body')) :
    Rewrites B (.stmt (.borrow pos kind source name region body)) (.stmt (.borrow pos kind source name region body'))
  | nested {body body' : Block Span} (h : Rewrites B (.block body) (.block body')) :
    Rewrites B (.stmt (.block body)) (.stmt (.block body'))
  | block (pos : Span) {stmts stmts' : List (Stmt Span)} (h : Rewrites B (.stmts stmts) (.stmts stmts')) :
    Rewrites B (.block ⟨pos, stmts⟩) (.block ⟨pos, stmts'⟩)
  | nil : Rewrites B (.stmts []) (.stmts [])
  | next {stmt stmt' : Stmt Span} {rest rest' : List (Stmt Span)} (h : Rewrites B (.stmt stmt) (.stmt stmt'))
    (hrest : Rewrites B (.stmts rest) (.stmts rest')) : Rewrites B (.stmts (stmt :: rest)) (.stmts (stmt' :: rest'))
  | branch (pos : Span) (cond : Expr Span) {body body' : Block Span} {rest rest' : List (Branch Span)} {at₀ : Span}
    {otherwise otherwise' : Option (Block Span)} (h : Rewrites B (.block body) (.block body'))
    (hrest : Rewrites B (.branches at₀ rest otherwise) (.branches at₀ rest' otherwise')) :
    Rewrites B (.branches at₀ (⟨pos, cond, body⟩ :: rest) otherwise)
      (.branches at₀ (⟨pos, cond, body'⟩ :: rest') otherwise')
  | otherwise (at₀ pos : Span) {stmts stmts' : List (Stmt Span)}
    (h : Rewrites B (.block ⟨pos, stmts⟩) (.block ⟨pos, stmts'⟩)) :
    Rewrites B (.branches at₀ [] (some ⟨pos, stmts⟩)) (.branches at₀ [] (some ⟨pos, stmts'⟩))
  | skipped (at₀ : Span) : Rewrites B (.branches at₀ [] none) (.branches at₀ [] none)
  | noArms : Rewrites B (.arms []) (.arms [])
  | arm (pos : Span) (variant : Ident Span) (parts : List (Unpacked Span)) {body body' : Block Span}
    {rest rest' : List (Arm Span)} (h : Rewrites B (.block body) (.block body'))
    (hrest : Rewrites B (.arms rest) (.arms rest')) :
    Rewrites B (.arms (⟨pos, variant, parts, body⟩ :: rest)) (.arms (⟨pos, variant, parts, body'⟩ :: rest'))

namespace Rewrites
variable (B : Stmt Span → Stmt Span → Prop)

mutual

/-- Nothing needs to be replaced. -/
theorem refl_stmt : ∀ stmt : Stmt Span, Rewrites B (.stmt stmt) (.stmt stmt)
  | .bind .. | .unpack .. | .assign .. | .ret .. | .discard .. => .simple rfl
  | .choose pos branches none => .choose (refl_branches pos none branches (.skipped pos))
  | .choose pos branches (some ⟨at₀, stmts⟩) =>
    .choose (refl_branches pos _ branches (.otherwise pos at₀ (refl_block ⟨at₀, stmts⟩)))
  | .select pos scrutinee arms => .select pos scrutinee (refl_arms arms)
  | .loop pos cond body => .loop pos cond (refl_block body)
  | .count pos var first last body => .count pos var first last (refl_block body)
  | .borrow pos kind source name region body => .borrow pos kind source name region (refl_block body)
  | .block body => .nested (refl_block body)

theorem refl_block : ∀ block : Block Span, Rewrites B (.block block) (.block block)
  | ⟨pos, stmts⟩ => .block pos (refl_stmts stmts)

theorem refl_stmts : ∀ stmts : List (Stmt Span), Rewrites B (.stmts stmts) (.stmts stmts)
  | [] => .nil
  | stmt :: rest => .next (refl_stmt stmt) (refl_stmts rest)

theorem refl_branches (at₀ : Span) (otherwise : Option (Block Span)) : ∀ branches : List (Branch Span),
    Rewrites B (.branches at₀ [] otherwise) (.branches at₀ [] otherwise) →
    Rewrites B (.branches at₀ branches otherwise) (.branches at₀ branches otherwise)
  | [], hlast => hlast
  | ⟨pos, cond, body⟩ :: rest, hlast => .branch pos cond (refl_block body) (refl_branches at₀ otherwise rest hlast)

theorem refl_arms : ∀ arms : List (Arm Span), Rewrites B (.arms arms) (.arms arms)
  | [] => .noArms
  | ⟨pos, variant, parts, body⟩ :: rest => .arm pos variant parts (refl_block body) (refl_arms rest)

end

theorem refl_choice (at₀ : Span) (branches : List (Branch Span)) (otherwise : Option (Block Span)) :
    Rewrites B (.branches at₀ branches otherwise) (.branches at₀ branches otherwise) := by
  apply refl_branches
  cases otherwise with
  | none => exact .skipped at₀
  | some block =>
    obtain ⟨pos, stmts⟩ := block
    exact .otherwise at₀ pos (refl_block B ⟨pos, stmts⟩)

variable {B}

/-- What was replaced can be put back. -/
theorem symm {B' : Stmt Span → Stmt Span → Prop} (hB : ∀ ⦃x y⦄, B x y → B' y x) {code code' : Code}
    (h : Rewrites B code code') : Rewrites B' code' code := by
  induction h with
  | rule h => exact .rule (hB h)
  | simple h => exact .simple h
  | choose _ ih => exact .choose ih
  | select pos scrutinee _ ih => exact .select pos scrutinee ih
  | loop pos cond _ ih => exact .loop pos cond ih
  | count pos var first last _ ih => exact .count pos var first last ih
  | borrow pos kind source name region _ ih => exact .borrow pos kind source name region ih
  | nested _ ih => exact .nested ih
  | block pos _ ih => exact .block pos ih
  | nil => exact .nil
  | next _ _ ih ihrest => exact .next ih ihrest
  | branch pos cond _ _ ih ihrest => exact .branch pos cond ih ihrest
  | otherwise at₀ pos _ ih => exact .otherwise at₀ pos ih
  | skipped at₀ => exact .skipped at₀
  | noArms => exact .noArms
  | arm pos variant parts _ _ ih ihrest => exact .arm pos variant parts ih ihrest

end Rewrites

/-! ### Laws -/

section Relations
variable (S : Scopes → Scopes → Prop) (D : State → State → Prop)

/-- Two states with related scopes, and the rest related. -/
structure Beside (s t : State) : Prop where
  rest : D s t
  scopes : S s.scopes t.scopes

/-- Two runs that take the same way, and come out with related scopes if they do. -/
structure Runs (x y : Reach × State) : Prop where
  reach : y.1 = x.1
  rest : D x.2 y.2
  scopes : x.1 = .continues → S x.2.scopes y.2.scopes

/-- Two branches at the same place with related ends. -/
structure Exits (o o' : Outcome) : Prop where
  pos : o'.pos = o.pos
  exit : Option.Rel S o.exit o'.exit

/-- Branches with related ends. -/
structure Ends (x y : List Outcome × State) : Prop where
  outcomes : List.Forall₂ (Exits S) x.1 y.1
  beside : Beside S D x.2 y.2

end Relations

/-- Where the second scopes come from the first, so do the second ends. -/
theorem outcomes_of_exits {g : Scopes → Scopes} {outcomes outcomes' : List Outcome}
    (h : List.Forall₂ (Exits fun a b => b = g a) outcomes outcomes') :
    outcomes' = outcomes.map fun o => ⟨o.pos, o.exit.map g⟩ := by
  induction h with
  | nil => rfl
  | @cons o o' _ _ h _ ih =>
    obtain ⟨hpos, hexit⟩ := h
    obtain ⟨pos, exit⟩ := o
    obtain ⟨pos', exit'⟩ := o'
    cases hpos
    cases hexit with
    | none => rw [ih]; rfl
    | some heq => rw [ih, heq]; rfl

/-- Whether control goes on after a join does not depend on the state. -/
theorem reach_join {c : Context} (outcomes : List Outcome) (s t : State) :
    (join c outcomes t).1 = (join c outcomes s).1 := by
  unfold join
  split <;> rfl

/-- What makes two checks go side by side as long as what the first one finds is as `G` says:
how their scopes are related, and how the rest is. Where a scope is opened, closed or added to,
at least `k` scopes are open around it. -/
structure Tandem (c c' : Context) (S : Scopes → Scopes → Prop) (D : State → State → Prop)
    (G : List Violation → Prop) (k : Nat) : Prop where
  prior : ∀ {l l'}, l <+: l' → G l' → G l
  /-- The rest is related whatever the scopes are. -/
  apart : ∀ {s t} scopes scopes', D s t → D {s with scopes} {t with scopes := scopes'}
  seclude : ∀ {s t}, D s t → D {s with escaped := []} {t with escaped := []}
  restore : ∀ {s t s' t'}, D s t → D s' t' → D {s' with escaped := s.escaped} {t' with escaped := t.escaped}
  halted : ∀ {s t}, D s t → halted c' t = halted c s
  length : ∀ {s t}, D s t → t.regions.length = s.regions.length
  act : ∀ {s t a}, a.plain = true → Beside S D s t → G (act c a s).found → Beside S D (act c a s) (act c' a t)
  closeStatements : ∀ {s t} base pos, Beside S D s t → G s.found →
    Beside S D (closeStatements base pos s) (closeStatements base pos t)
  closeRegion : ∀ {s t} pos, Beside S D s t → Beside S D (closeRegion pos s) (closeRegion pos t)
  define : ∀ {s t} name ty pos, k < s.scopes.frames.length → Beside S D s t →
    Beside S D (define c name ty pos s) (define c' name ty pos t)
  push : ∀ {a b}, k ≤ a.frames.length → S a b → S a.push b.push
  pop : ∀ {a b}, k < a.frames.length → S a b → S a.pop.2 b.pop.2
  leave : ∀ {s t} pos, k < s.scopes.frames.length → Beside S D s t → G (leaveScope c .continues pos s).found →
    D (leaveScope c .continues pos s) (leaveScope c' .continues pos t)
  lend : ∀ {s t} kind source region, Beside S D s t → G (lend c kind source region s).found →
    Beside S D (lend c kind source region s) (lend c' kind source region t) ∧
      (openBorrow c' region t).1 = (openBorrow c region s).1 ∧
      aliasTy kind source region t.scopes = aliasTy kind source region s.scopes
  enterLoop : ∀ {a b}, k < a.frames.length → S a b → S a.enterLoop.2 b.enterLoop.2
  exitLoop : ∀ {a b a' b'}, S a b → S a' b' → S (a'.exitLoop a.barrier) (b'.exitLoop b.barrier)
  join : ∀ {s₀ t₀ s t outcomes outcomes'}, Branched s₀ outcomes s → Branched t₀ outcomes' t →
    List.Forall₂ (Exits S) outcomes outcomes' → Beside S D s t → G (join c outcomes s).2.found →
    Runs S D (join c outcomes s) (join c' outcomes' t)

/-- Where a statement may start: all scopes outside the innermost loop are still open. -/
structure Inside (s : State) : Prop extends Ready s where
  fence : ∀ bar, s.scopes.barrier = some bar → bar ≤ s.scopes.frames.length

/-- What two checks in tandem do on a piece of code and its copy. -/
def Tandem.Holds (c c' : Context) (S : Scopes → Scopes → Prop) (D : State → State → Prop)
    (G : List Violation → Prop) (k : Nat) : Code → Code → Prop
  | .stmt x, .stmt y => ∀ ⦃s t⦄, Inside s → Ready t → k < s.scopes.frames.length → Beside S D s t →
    G (visit c x s).2.found → Runs S D (visit c x s) (visit c' y t)
  | .stmts x, .stmts y => ∀ ⦃s t⦄, Inside s → Ready t → k < s.scopes.frames.length → Beside S D s t →
    G (checkStmts c x s).2.found → Runs S D (checkStmts c x s) (checkStmts c' y t)
  | .block x, .block y => ∀ ⦃s t⦄, Inside s → Ready t → k ≤ s.scopes.frames.length → Beside S D s t →
    G (checkBlock c x s).2.found → Runs S D (checkBlock c x s) (checkBlock c' y t)
  | .branches at₀ x last, .branches at₁ y last' =>
    ∀ ⦃s t⦄, Inside s → Ready t → k ≤ s.scopes.frames.length → Beside S D s t →
    G (checkChoice c at₀ x last s).2.found → Ends S D (checkChoice c at₀ x last s) (checkChoice c' at₁ y last' t)
  | .arms x, .arms y => ∀ ⦃s t⦄, Inside s → Ready t → k ≤ s.scopes.frames.length → Beside S D s t →
    G (checkArms c x s).2.found → Ends S D (checkArms c x s) (checkArms c' y t)
  | _, _ => True

theorem Kept.depth {new : Frame} {s t : State} (h : Kept new s t) :
    t.scopes.frames.length = s.scopes.frames.length := by
  obtain ⟨f, outer, hs, ht⟩ := h.skeleton
  rw [← Scopes.length_skeleton, ht, ← Scopes.length_skeleton, hs, List.length_cons, List.length_cons]

theorem depth_lend (c : Context) (kind : RefKind) (source region : Ident Span) (s : State) :
    (lend c kind source region s).scopes.frames.length = s.scopes.frames.length := by
  rw [← Scopes.length_skeleton, lend_skeleton, Scopes.length_skeleton]

theorem depth_pushScope (s : State) : (pushScope s).scopes.frames.length = s.scopes.frames.length + 1 := rfl

theorem depth_define (c : Context) (name : String) (ty : Ty) (pos : Span) {s : State}
    (hs : 0 < s.scopes.frames.length) :
    (define c name ty pos s).scopes.frames.length = s.scopes.frames.length := by
  unfold define Scopes.define
  cases hframes : s.scopes.frames with
  | nil => simp [hframes] at hs
  | cons f outer => rfl

theorem depth_enterBorrow (c : Context) (kind : RefKind) (source name region : Ident Span) (s : State) :
    (enterBorrow c kind source name region s).2.scopes.frames.length = s.scopes.frames.length + 1 := by
  rw [enterBorrow_state, depth_define, depth_pushScope, depth_lend]
  rw [depth_pushScope]
  exact Nat.succ_pos _

namespace Inside
variable {c : Context} {s t : State}

theorem deeper (hs : Inside s) (ht : Ready t) (hbarrier : t.scopes.barrier = s.scopes.barrier)
    (hdepth : s.scopes.frames.length ≤ t.scopes.frames.length) : Inside t :=
  ⟨ht, fun bar hbar => Nat.le_trans (hs.fence bar (hbarrier ▸ hbar)) hdepth⟩

theorem kept {new : Frame} (hs : Inside s) (h : Kept new s t) : Inside t :=
  hs.deeper (h.ready hs.toReady) h.barrier (Nat.le_of_eq h.depth.symm)

theorem pushScope (hs : Inside s) : Inside (pushScope s) :=
  hs.deeper hs.toReady.pushScope rfl (Nat.le_succ _)

theorem enterLoop (hs : Inside s) : Inside (enterLoop s) :=
  ⟨hs.toReady.enterLoop, fun _ hbar => Nat.le_of_eq (Option.some.inj hbar).symm⟩

theorem bounds (hs : Inside s) (first last : Expr Span) :
    Inside (evalClosed c last (evalClosed c first (Check.enterLoop s))) := by
  have hfirst := hs.enterLoop.kept (kept_evalClosed c hs.enterLoop.toReady first)
  exact hfirst.kept (kept_evalClosed c hfirst.toReady last)

theorem enterBorrow (hs : Inside s) (kind : RefKind) (source name region : Ident Span) :
    Inside (enterBorrow c kind source name region s).2 := by
  refine hs.deeper (ready_enterBorrow hs.toReady kind source name region) ?_ ?_
  · obtain ⟨u, _, hentered, hopened⟩ := enterBorrow_cases c hs.toReady kind source name region
    rw [hentered]
    refine (Scopes.barrier_define ..).trans ?_
    rcases hopened with ⟨_, hkept⟩ | ⟨_, r, hborrow⟩
    · exact hkept.barrier
    · exact hborrow.barrier
  · rw [depth_enterBorrow]
    exact Nat.le_succ _

theorem checkBranch (hs : Inside s) (branch : Branch Span) : Inside (checkBranch c branch s).2 := by
  have hcond := kept_evalClosed c hs.toReady branch.cond
  exact (hs.kept hcond).deeper (ready_checkBranch hs.toReady branch) rfl (Nat.le_refl _)

theorem checkArm (hs : Inside s) (arm : Arm Span) : Inside (checkArm c arm s).2 :=
  hs.deeper (ready_checkArm hs.toReady arm) rfl (Nat.le_refl _)

end Inside

theorem inside_entryState (c : Context) (f : FunDef Span) : Inside (entryState c f) := by
  refine ⟨ready_entryState c f, fun bar hbar => ?_⟩
  rw [(entryState_scopes c f).1] at hbar
  cases hbar

/-- The end of a region, but for the scopes, does not depend on them. -/
theorem closeRegion_apart (pos : Span) (s : State) (scopes : Scopes) : closeRegion pos s =
    {closeRegion pos {s with scopes} with scopes := (closeRegion pos s).scopes} := by
  obtain ⟨own, regions, events, found, escaped⟩ := s
  cases regions <;> rfl

theorem ready_bounds {c : Context} {s : State} (hs : Ready s) (first last : Expr Span) :
    Ready (evalClosed c last (evalClosed c first (enterLoop s))) := by
  have hfirst := (kept_evalClosed c hs.enterLoop first).ready hs.enterLoop
  exact (kept_evalClosed c hfirst last).ready hfirst

theorem checkStmts_of_halted {c : Context} {s : State} (h : halted c s = true) (stmt : Stmt Span)
    (rest : List (Stmt Span)) : checkStmts c (stmt :: rest) s = (.continues, s) := by
  rw [checkStmts, if_pos h]

namespace Tandem
variable {c c' : Context} {S : Scopes → Scopes → Prop} {D : State → State → Prop} {G : List Violation → Prop}
  {k : Nat} {s t : State}

section Steps
variable (law : Tandem c c' S D G k)

include law

theorem perform {acts : List Action} (hacts : acts.all Action.plain = true) (h : Beside S D s t)
    (hfound : G (perform c acts s).found) : Beside S D (perform c acts s) (perform c' acts t) := by
  induction acts generalizing s t with
  | nil => exact h
  | cons a acts ih =>
    rw [List.all_cons, Bool.and_eq_true] at hacts
    have hfirst := law.prior (grown_perform c acts (Check.act c a s)).found hfound
    exact ih hacts.2 (law.act hacts.1 h hfirst) hfound

theorem closing (pos : Span) {acts : List Action} (hacts : acts.all Action.plain = true) (h : Beside S D s t)
    (hfound : G (closing c pos acts s).found) : Beside S D (closing c pos acts s) (closing c' pos acts t) := by
  unfold Check.closing at hfound ⊢
  rw [closeStatements_found] at hfound
  rw [law.length h.rest]
  exact law.closeStatements _ pos (law.perform hacts h hfound) hfound

theorem evalClosed (e : Expr Span) (h : Beside S D s t) (hfound : G (evalClosed c e s).found) :
    Beside S D (evalClosed c e s) (evalClosed c' e t) := by
  rw [evalClosed_eq] at hfound ⊢
  rw [evalClosed_eq]
  exact law.closing e.pos (plain_actions e) h hfound

/-- A binding comes with its type. -/
theorem introduce (name : String) (ty : Ty) (pos at₀ : Span) (hk : k < s.scopes.frames.length) (h : Beside S D s t)
    (hfound : G (requireLive c ty (some name) pos s).found) :
    Beside S D (Check.define c name ty at₀ (requireLive c ty (some name) pos s))
      (Check.define c' name ty at₀ (requireLive c' ty (some name) pos t)) := by
  refine law.define name ty at₀ ?_ (law.act (a := .live ty (some name) pos) rfl h hfound)
  rw [requireLive_scopes]
  exact hk

theorem unpack (parts : List (Unpacked Span)) (hs : Ready s) (hk : k < s.scopes.frames.length)
    (h : Beside S D s t) (hfound : G (unpack c parts s).found) :
    Beside S D (unpack c parts s) (unpack c' parts t) := by
  induction parts generalizing s t with
  | nil => exact h
  | cons part parts ih =>
    have hfirst := law.prior (grown_unpack c parts (unpackPart c s part)).found hfound
    obtain ⟨new, hpart⟩ := kept_unpack c hs [part]
    exact ih (hpart.ready hs) (hpart.depth ▸ hk)
      (law.introduce part.name.name part.ty part.pos part.name.pos hk h hfirst) hfound

/-- Statements without a block. -/
theorem visit_simple {stmt : Stmt Span} (hsimple : simple stmt = true) (hs : Ready s)
    (hk : k < s.scopes.frames.length) (h : Beside S D s t) (hfound : G (visit c stmt s).2.found) :
    Runs S D (visit c stmt s) (visit c' stmt t) := by
  have hruns : ∀ {r : Reach} {s' t' : State}, Beside S D s' t' → Runs S D (r, s') (r, t') :=
    fun h => ⟨rfl, h.rest, fun _ => h.scopes⟩
  cases stmt with
  | bind pos name ty value =>
    have hvalue := law.prior (grown_act c (.live ty (some name.name) pos) (Check.evalClosed c value s)).found hfound
    have hdepth := (kept_evalClosed c hs value).depth
    exact hruns (law.introduce name.name ty pos name.pos (hdepth ▸ hk) (law.evalClosed value h hvalue) hfound)
  | unpack pos parts value =>
    have hvalue := law.prior (grown_unpack c parts (Check.evalClosed c value s)).found hfound
    have hkept := kept_evalClosed c hs value
    exact hruns (law.unpack parts (hkept.ready hs) (hkept.depth ▸ hk) (law.evalClosed value h hvalue) hfound)
  | assign pos target value =>
    refine hruns ?_
    rw [show (visit c (.assign pos target value) s).2 = assign c pos target value s from rfl, assign_eq] at hfound
    rw [assign_eq, assign_eq]
    refine law.closing pos ?_ h hfound
    rw [List.all_append, plain_actions, plain_storeActions]
    rfl
  | discard pos value =>
    refine hruns ?_
    rw [show (visit c (.discard pos value) s).2 = discard c pos value s from rfl, discard_eq] at hfound
    rw [discard_eq, discard_eq]
    refine law.closing pos ?_ h hfound
    rw [List.all_append, plain_actions]
    rfl
  | ret pos value =>
    refine hruns ?_
    rw [show (visit c (.ret pos value) s).2 = ret c pos value s from rfl, ret_eq] at hfound
    rw [ret_eq, ret_eq]
    have hvalue := law.prior (grown_perform c [.ownRegions value.ty value.var? pos, .allConsumed pos] _).found hfound
    exact law.perform rfl (law.closing value.pos (plain_actions value) h hvalue) hfound
  | _ => cases hsimple

theorem leaveScope {reach : Reach} (pos : Span) (hk : k < s.scopes.frames.length) {reach' : Reach}
    (h : Runs S D (reach, s) (reach', t)) (hfound : G (leaveScope c reach pos s).found) :
    Runs S D (reach, leaveScope c reach pos s) (reach', leaveScope c' reach' pos t) := by
  obtain ⟨hreach, hrest, hscopes⟩ := h
  cases hreach
  cases reach with
  | diverges => exact ⟨rfl, law.apart _ _ hrest, fun hreach => by cases hreach⟩
  | continues =>
    refine ⟨rfl, law.leave pos hk ⟨hrest, hscopes rfl⟩ hfound, fun _ => ?_⟩
    show S (Check.leaveScope c .continues pos s).scopes (Check.leaveScope c' .continues pos t).scopes
    rw [leaveScope_scopes, leaveScope_scopes]
    exact law.pop hk (hscopes rfl)

theorem pushScope (hk : k ≤ s.scopes.frames.length) (h : Beside S D s t) :
    Beside S D (pushScope s) (pushScope t) :=
  ⟨law.apart _ _ h.rest, law.push hk h.scopes⟩

/-- A region is closed in any case. Where control does not go on, that is seen from any related scopes. -/
theorem leaveRegion (pos : Span) {a b : Scopes} (hscopes : S a b) {reach reach' : Reach}
    (h : Runs S D (reach, s) (reach', t)) :
    Runs S D (reach, Check.closeRegion pos s) (reach', Check.closeRegion pos t) := by
  have hclosed := law.closeRegion pos ⟨law.apart a b h.rest, hscopes⟩
  refine ⟨h.reach, ?_, fun hreach => (law.closeRegion pos ⟨h.rest, h.scopes hreach⟩).scopes⟩
  rw [closeRegion_apart pos s a, closeRegion_apart pos t b]
  exact law.apart _ _ hclosed.rest

/-- A branch is run from related states. -/
theorem outcome (pos : Span) {run run' : Reach × State} (h : Beside S D s t) (hrun : Runs S D run run') :
    Exits S (outcome pos s run).1 (outcome pos t run').1 ∧
      Beside S D (outcome pos s run).2 (outcome pos t run').2 := by
  refine ⟨⟨rfl, ?_⟩, law.apart _ _ hrun.rest, h.scopes⟩
  show Option.Rel S (if run.1 = .continues then _ else _) (if run'.1 = .continues then _ else _)
  rw [hrun.reach]
  split
  · rename_i hreach
    exact .some (hrun.scopes hreach)
  · exact .none

theorem enterBorrow (kind : RefKind) (source name region : Ident Span) (hk : k ≤ s.scopes.frames.length)
    (h : Beside S D s t) (hfound : G (enterBorrow c kind source name region s).2.found) :
    (enterBorrow c' kind source name region t).1 = (enterBorrow c kind source name region s).1 ∧
      Beside S D (enterBorrow c kind source name region s).2 (enterBorrow c' kind source name region t).2 := by
  rw [enterBorrow_state] at hfound
  obtain ⟨hlend, hflag, hty⟩ := law.lend kind source region h hfound
  refine ⟨?_, ?_⟩
  · rw [enterBorrow_eq, enterBorrow_eq]
    exact hflag
  · rw [enterBorrow_state, enterBorrow_state, hty]
    have hdepth := depth_lend c kind source region s
    refine law.define name.name _ name.pos ?_ (law.pushScope (hdepth ▸ hk) hlend)
    show k < (Check.lend c kind source region s).scopes.frames.length + 1
    omega

end Steps

section Walk
variable (law : Tandem c c' S D G k) {body body' : Block Span}

include law

/-- A loop's body is checked behind a barrier. -/
theorem loop (hbody : Holds c c' S D G k (.block body) (.block body')) (pos : Span) (cond : Expr Span) :
    Holds c c' S D G k (.stmt (.loop pos cond body)) (.stmt (.loop pos cond body')) := by
  intro s t hs ht hk h hfound
  have hcond := kept_evalClosed c hs.enterLoop.toReady cond
  have hready := (kept_evalClosed c' ht.enterLoop cond).ready ht.enterLoop
  have hdepth : k ≤ (Check.evalClosed c cond (Check.enterLoop s)).scopes.frames.length := by
    rw [hcond.depth]
    exact Nat.le_of_lt hk
  have hentry := law.evalClosed cond ⟨law.apart _ _ h.rest, law.enterLoop hk h.scopes⟩
    (law.prior (grown_checkBlock c body _).found hfound)
  have hrun := hbody (hs.enterLoop.kept hcond) hready hdepth hentry hfound
  exact ⟨rfl, (law.apart _ _ hrun.rest :), fun _ => law.exitLoop h.scopes hentry.scopes⟩

/-- The bounds of a counting loop. -/
theorem bounds (first last : Expr Span) (hs : Ready s) (hk : k < s.scopes.frames.length) (h : Beside S D s t)
    (hfound : G (Check.evalClosed c last (Check.evalClosed c first (Check.enterLoop s))).found) :
    Beside S D (Check.evalClosed c last (Check.evalClosed c first (Check.enterLoop s)))
        (Check.evalClosed c' last (Check.evalClosed c' first (Check.enterLoop t))) ∧
      (Check.evalClosed c last (Check.evalClosed c first (Check.enterLoop s))).scopes.frames.length =
        s.scopes.frames.length := by
  have hfirst := kept_evalClosed c hs.enterLoop first
  have hlast := kept_evalClosed c (hfirst.ready hs.enterLoop) last
  refine ⟨?_, hlast.depth.trans hfirst.depth⟩
  have hstart : Beside S D (Check.enterLoop s) (Check.enterLoop t) :=
    ⟨law.apart _ _ h.rest, law.enterLoop hk h.scopes⟩
  exact law.evalClosed last (law.evalClosed first hstart (law.prior (grown_evalClosed c last _).found hfound)) hfound

theorem count (hbody : Holds c c' S D G k (.block body) (.block body')) (pos : Span) (var : Ident Span)
    (first last : Expr Span) :
    Holds c c' S D G k (.stmt (.count pos var first last body)) (.stmt (.count pos var first last body')) := by
  intro s t hs ht hk h hfound
  obtain ⟨hbounds, hdepth⟩ := law.bounds first last hs.toReady hk h
    (law.prior (grown_counter c var body _).found hfound)
  have hinside := hs.bounds (c := c) first last
  have hready' := ready_bounds (c := c') ht first last
  obtain ⟨new, hcounter⟩ := kept_define c hinside.pushScope.toReady var.name .int var.pos
  obtain ⟨new', hcounter'⟩ := kept_define c' hready'.pushScope var.name .int var.pos
  have hk' : k < (Check.define c var.name .int var.pos (Check.pushScope (Check.evalClosed c last
      (Check.evalClosed c first (Check.enterLoop s))))).scopes.frames.length := by
    rw [hcounter.depth, depth_pushScope, hdepth]
    omega
  have hentry := law.define var.name .int var.pos (by rw [depth_pushScope, hdepth]; omega)
    (law.pushScope (hdepth ▸ Nat.le_of_lt hk) hbounds)
  have hrun := hbody (hinside.pushScope.kept hcounter) (hcounter'.ready hready'.pushScope) (Nat.le_of_lt hk') hentry
    hfound
  exact ⟨rfl, (law.apart _ _ hrun.rest :), fun _ => law.exitLoop h.scopes (law.pop hk' hentry.scopes)⟩

theorem borrow (hbody : Holds c c' S D G k (.block body) (.block body')) (pos : Span) (kind : RefKind)
    (source name region : Ident Span) :
    Holds c c' S D G k (.stmt (.borrow pos kind source name region body))
      (.stmt (.borrow pos kind source name region body')) := by
  intro s t hs ht hk h hfound
  have hinside := hs.enterBorrow (c := c) kind source name region
  have hready' := ready_enterBorrow (c := c') ht kind source name region
  have hdepth := depth_enterBorrow c kind source name region s
  have hafter := (kept_checkBlock c body hinside.toReady).depth
  have hleft := law.prior (grown_leaveBorrow _ pos _).found hfound
  have hran := law.prior (grown_leaveScope c _ pos _).found hleft
  obtain ⟨hopened, hentry⟩ := law.enterBorrow kind source name region (Nat.le_of_lt hk) h
    (law.prior (grown_checkBlock c body _).found hran)
  have hrun := law.leaveScope pos (by omega) (hbody hinside hready' (by omega) hentry hran) hleft
  rw [show visit c (.borrow pos kind source name region body) s = (_, leaveBorrow _ pos _) from rfl,
    show visit c' (.borrow pos kind source name region body') t = (_, leaveBorrow _ pos _) from rfl, hopened]
  unfold leaveBorrow
  split
  · exact law.leaveRegion pos hentry.scopes hrun
  · exact hrun

theorem block {stmts stmts' : List (Stmt Span)} (hstmts : Holds c c' S D G k (.stmts stmts) (.stmts stmts'))
    (pos : Span) : Holds c c' S D G k (.block ⟨pos, stmts⟩) (.block ⟨pos, stmts'⟩) := by
  intro s t hs ht hk h hfound
  have hran := law.prior (grown_leaveScope c _ pos _).found hfound
  obtain ⟨new, hkept⟩ := kept_checkStmts c stmts hs.pushScope.toReady
  have hrun := hstmts hs.pushScope ht.pushScope (Nat.lt_succ_of_le hk) (law.pushScope hk h) hran
  refine law.leaveScope pos ?_ hrun hfound
  rw [hkept.depth]
  exact Nat.lt_succ_of_le hk

theorem checkStmt {stmt stmt' : Stmt Span} (hstmt : Holds c c' S D G k (.stmt stmt) (.stmt stmt')) (hs : Inside s)
    (ht : Ready t) (hk : k < s.scopes.frames.length) (h : Beside S D s t)
    (hfound : G (Check.checkStmt c stmt s).2.found) :
    Runs S D (Check.checkStmt c stmt s) (Check.checkStmt c' stmt' t) := by
  have hs' : Inside {s with escaped := []} := ⟨hs.toReady.of_same rfl rfl, hs.fence⟩
  have ht' : Ready {t with escaped := []} := ht.of_same rfl rfl
  have hrun := hstmt hs' ht' hk ⟨law.seclude h.rest, h.scopes⟩ hfound
  exact ⟨hrun.reach, law.restore h.rest hrun.rest, hrun.scopes⟩

theorem next {stmt stmt' : Stmt Span} {rest rest' : List (Stmt Span)}
    (hstmt : Holds c c' S D G k (.stmt stmt) (.stmt stmt'))
    (hrest : Holds c c' S D G k (.stmts rest) (.stmts rest')) :
    Holds c c' S D G k (.stmts (stmt :: rest)) (.stmts (stmt' :: rest')) := by
  intro s t hs ht hk h hfound
  cases hrun : Check.halted c s with
  | true =>
    have hrun' := (law.halted h.rest).trans hrun
    rw [checkStmts_of_halted hrun, checkStmts_of_halted hrun']
    exact ⟨rfl, h.rest, fun _ => h.scopes⟩
  | false =>
    have hrun' := (law.halted h.rest).trans hrun
    cases hreach : (Check.checkStmt c stmt s).1 with
    | continues =>
      rw [checkStmts_of_continues hrun hreach] at hfound ⊢
      have hfirst := law.checkStmt hstmt hs ht hk h (law.prior (grown_checkStmts c rest _).found hfound)
      rw [checkStmts_of_continues hrun' (hfirst.reach.trans hreach)]
      obtain ⟨new, hkept⟩ := kept_apart hs.toReady fun u hu => kept_visit c stmt hu
      exact hrest (hs.kept hkept) (ready_checkStmt ht stmt') (hkept.depth ▸ hk)
        ⟨hfirst.rest, hfirst.scopes hreach⟩ hfound
    | diverges =>
      rw [checkStmts_of_diverges hrun hreach] at hfound ⊢
      have hfirst := law.checkStmt hstmt hs ht hk h hfound
      rw [checkStmts_of_diverges hrun' (hfirst.reach.trans hreach)]
      exact ⟨rfl, hfirst.rest, fun hr => by cases hr⟩

theorem checkBranch (hbody : Holds c c' S D G k (.block body) (.block body')) (pos : Span) (cond : Expr Span)
    (hs : Inside s) (ht : Ready t) (hk : k ≤ s.scopes.frames.length) (h : Beside S D s t)
    (hfound : G (Check.checkBranch c ⟨pos, cond, body⟩ s).2.found) :
    Exits S (Check.checkBranch c ⟨pos, cond, body⟩ s).1 (Check.checkBranch c' ⟨pos, cond, body'⟩ t).1 ∧
      Beside S D (Check.checkBranch c ⟨pos, cond, body⟩ s).2 (Check.checkBranch c' ⟨pos, cond, body'⟩ t).2 := by
  have hkept := kept_evalClosed c hs.toReady cond
  have hkept' := kept_evalClosed c' ht cond
  have hcond := law.evalClosed cond h (law.prior (grown_checkBlock c body _).found hfound)
  exact law.outcome pos hcond (hbody (hs.kept hkept) (hkept'.ready ht) (hkept.depth ▸ hk) hcond hfound)

theorem checkArm (hbody : Holds c c' S D G k (.block body) (.block body')) (pos : Span) (variant : Ident Span)
    (parts : List (Unpacked Span)) (hs : Inside s) (ht : Ready t) (hk : k ≤ s.scopes.frames.length)
    (h : Beside S D s t) (hfound : G (Check.checkArm c ⟨pos, variant, parts, body⟩ s).2.found) :
    Exits S (Check.checkArm c ⟨pos, variant, parts, body⟩ s).1 (Check.checkArm c' ⟨pos, variant, parts, body'⟩ t).1 ∧
      Beside S D (Check.checkArm c ⟨pos, variant, parts, body⟩ s).2
        (Check.checkArm c' ⟨pos, variant, parts, body'⟩ t).2 := by
  have hran := law.prior (grown_leaveScope c _ pos _).found hfound
  have hready' := ready_unpack (c := c') ht parts
  obtain ⟨new, hkept⟩ := kept_unpack c hs.pushScope.toReady parts
  have hinside := hs.pushScope.kept hkept
  have hdepth : (Check.unpack c parts (Check.pushScope s)).scopes.frames.length = s.scopes.frames.length + 1 :=
    hkept.depth
  have hafter := (kept_checkBlock c body hinside.toReady).depth
  have hparts := law.unpack parts hs.pushScope.toReady (Nat.lt_succ_of_le hk) (law.pushScope hk h)
    (law.prior (grown_checkBlock c body _).found hran)
  have hrun := hbody hinside hready' (by omega) hparts hran
  have hdeep : k < (checkBlock c body (Check.unpack c parts (Check.pushScope s))).2.scopes.frames.length := by omega
  exact law.outcome pos h (law.leaveScope pos hdeep hrun hfound)

/-- Checked in tandem, code and its copy stay related if what was replaced does. -/
theorem holds {B : Stmt Span → Stmt Span → Prop}
    (hB : ∀ ⦃x y⦄, B x y → Holds c c' S D G k (.stmt x) (.stmt y)) {code code' : Code}
    (h : Rewrites B code code') : Holds c c' S D G k code code' := by
  induction h with
  | rule h => exact hB h
  | simple h => exact fun _ _ hs _ hk hst hfound => law.visit_simple h hs.toReady hk hst hfound
  | choose _ ih =>
    intro s t hs ht hk hst hfound
    rw [visit_choose] at hfound ⊢
    rw [visit_choose]
    have hends := ih hs ht (Nat.le_of_lt hk) hst (law.prior (grown_join c _ _).found hfound)
    exact law.join (branched_checkChoice hs.toReady ..) (branched_checkChoice ht ..) hends.outcomes hends.beside hfound
  | select pos scrutinee _ ih =>
    intro s t hs ht hk hst hfound
    have hkept := kept_evalClosed c hs.toReady scrutinee
    have hkept' := kept_evalClosed c' ht scrutinee
    have harms := law.prior (grown_join c _ _).found hfound
    have hentry := law.evalClosed scrutinee hst (law.prior (grown_checkArms c _ _).found harms)
    have hends := ih (hs.kept hkept) (hkept'.ready ht) (hkept.depth ▸ Nat.le_of_lt hk) hentry harms
    exact law.join (branched_checkArms c _ (hkept.ready hs.toReady)) (branched_checkArms c' _ (hkept'.ready ht))
      hends.outcomes hends.beside hfound
  | loop pos cond _ ih => exact law.loop ih pos cond
  | count pos var first last _ ih => exact law.count ih pos var first last
  | borrow pos kind source name region _ ih => exact law.borrow ih pos kind source name region
  | nested _ ih => exact fun _ _ hs ht hk hst hfound => ih hs ht (Nat.le_of_lt hk) hst hfound
  | block pos _ ih => exact law.block ih pos
  | nil => exact fun _ _ _ _ _ hst _ => ⟨rfl, hst.rest, fun _ => hst.scopes⟩
  | next _ _ ih ihrest => exact law.next ih ihrest
  | @branch pos cond body body' rest rest' at₀ otherwise otherwise' _ _ ih ihrest =>
    intro s t hs ht hk hst hfound
    rw [checkChoice_cons] at hfound ⊢
    rw [checkChoice_cons]
    obtain ⟨hexit, hnext⟩ := law.checkBranch ih pos cond hs ht hk hst
      (law.prior (grown_checkChoice c at₀ rest otherwise _).found hfound)
    have hdepth := (kept_evalClosed c hs.toReady cond).depth
    have hends := ihrest (hs.checkBranch _) (ready_checkBranch ht _) (hdepth ▸ hk) hnext hfound
    exact ⟨.cons hexit hends.outcomes, hends.beside⟩
  | otherwise at₀ pos _ ih =>
    intro s t hs ht hk hst hfound
    obtain ⟨hexit, hnext⟩ := law.outcome pos hst (ih hs ht hk hst hfound)
    exact ⟨.cons hexit .nil, hnext⟩
  | skipped at₀ => exact fun _ _ _ _ _ hst _ => ⟨.cons ⟨rfl, .some hst.scopes⟩ .nil, hst⟩
  | noArms => exact fun _ _ _ _ _ hst _ => ⟨.nil, hst⟩
  | arm pos variant parts _ _ ih ihrest =>
    intro s t hs ht hk hst hfound
    rw [checkArms_cons] at hfound ⊢
    rw [checkArms_cons]
    obtain ⟨hexit, hnext⟩ := law.checkArm ih pos variant parts hs ht hk hst
      (law.prior (grown_checkArms c _ _).found hfound)
    have hends := ihrest (hs.checkArm _) (ready_checkArm ht _) hk hnext hfound
    exact ⟨.cons hexit hends.outcomes, hends.beside⟩

/-- So does code that is the same on both sides. -/
theorem same {code : Code} (h : Rewrites (fun _ _ => False) code code) : Holds c c' S D G k code code :=
  law.holds (fun _ _ hxy => hxy.elim) h

end Walk

end Tandem

/-- Two functions that differ in their bodies, checked in tandem to their ends. -/
theorem Tandem.runFunction {c c' : Context} {S : Scopes → Scopes → Prop} {D : State → State → Prop}
    {G : List Violation → Prop} (law : Tandem c c' S D G 0) {f : FunDef Span} {body : Block Span}
    (hbody : Holds c c' S D G 0 (.block f.body) (.block body))
    (h : Beside S D (entryState c f) (entryState c' {f with body})) (hfound : G (Check.runFunction c f).found) :
    D (Check.runFunction c f) (Check.runFunction c' {f with body}) := by
  have hran := law.prior (grown_leaveScope c _ f.pos _).found hfound
  have hrun := hbody (inside_entryState c f) (ready_entryState c' {f with body}) (Nat.zero_le _) h hran
  have hdepth : 0 < (checkBlock c f.body (entryState c f)).2.scopes.frames.length := by
    obtain ⟨frame, outer, _, hskel⟩ := (kept_checkBlock c f.body (ready_entryState c f)).skeleton
    rw [← Scopes.length_skeleton, hskel]
    exact Nat.succ_pos _
  exact (law.leaveScope f.pos hdepth hrun hfound).rest

end Linearity.Check
