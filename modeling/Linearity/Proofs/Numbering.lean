import Mathlib
import Linearity.Draft.Place
import Linearity.Proofs.Outline

/-! How a draft is numbered.

Nodes are finished one after the other, and each takes the next number. What is there at any
moment is a forest: the trees that are finished and not yet part of another. A node that is
finished takes some of them as its parts, and these need not be the last ones. The branches
of a chain wait until all conditions and statements of the chain are there, and the names in
a record until its values are. `Built` says just this of a forest, and all that holds of the
numbers follows from it: they are used up without a gap, each once (`Built.places_perm`), and
a node's number comes after all numbers in it (`Built.sound`).

Then it is shown of everything that can be drafted that it is built so, and that the finished
tree is the drafted one (`finished_places`). -/
namespace Linearity

/-- Everything in the one tree comes before everything in the other. -/
def Outline.Before (a b : Outline Span) : Prop := ∀ x ∈ a.places, ∀ y ∈ b.places, x.offset < y.offset

/-- Its place comes after all others in it, and if it is a block its statements follow each other. -/
structure Outline.Sound (o : Outline Span) : Prop where
  last : ∀ x ∈ o.inner, x.offset < o.pos.offset
  ordered : o.kind = .block → o.parts.Pairwise Outline.Before

namespace Draft
open Outline

/-- The trees that can be there when the numbers from `n` up to `m` are used up: every number
was for a node, and the parts of the node were there before. -/
inductive Built : Nat → Nat → List (Outline Span) → Prop where
  | nil (n : Nat) : Built n n []
  | perm {n m : Nat} {os os' : List (Outline Span)} : Built n m os → os.Perm os' → Built n m os'
  | node {n m : Nat} (os : List (Outline Span)) {parts : List (Outline Span)} (kind : NodeKind) :
    Built n m (os ++ parts) → (kind = .block → parts.Pairwise Before) →
    Built n (m + 1) (os ++ [.node kind ⟨m, 1⟩ parts])

namespace Built
variable {n m k : Nat} {os os' : List (Outline Span)}

/-- Trees that are built one after the other. -/
theorem append (h : Built n m os) (h' : Built m k os') : Built n k (os ++ os') := by
  induction h' with
  | nil => simpa using h
  | perm _ hperm ih => exact .perm ih (hperm.append_left os)
  | node before kind _ hordered ih =>
    rw [← List.append_assoc] at ih ⊢
    exact .node (os ++ before) kind ih hordered

/-- Numbers are only used up. -/
theorem le (h : Built n m os) : n ≤ m := by
  induction h with
  | nil => exact le_rfl
  | perm _ _ ih => exact ih
  | node _ _ _ _ ih => exact ih.trans (Nat.le_succ _)

/-- The numbers are all used, each once. -/
theorem places_perm (h : Built n m os) : (placesAll os).Perm ((List.range' n (m - n)).map fun i => ⟨i, 1⟩) := by
  induction h with
  | nil => simp [placesAll, nodesAll]
  | perm _ hperm ih => exact ((nodesAll_perm hperm).map _).symm.trans ih
  | @node m os parts kind h _ ih =>
    rw [placesAll_append, placesAll_singleton, places_eq, ← List.append_assoc, Nat.succ_sub h.le, List.range'_1_concat,
      List.map_append, Nat.add_sub_cancel' h.le]
    rw [placesAll_append] at ih
    exact ih.append_right _

/-- Only the numbers from `n` up to `m` are used. -/
theorem mem_places (h : Built n m os) {x : Span} (hx : x ∈ placesAll os) : n ≤ x.offset ∧ x.offset < m := by
  have hmem := h.places_perm.mem_iff.mp hx
  simp only [List.mem_map, List.mem_range'_1] at hmem
  obtain ⟨i, hi, rfl⟩ := hmem
  have hle := h.le
  exact ⟨hi.1, show i < m by omega⟩

theorem sound (h : Built n m os) : ∀ o ∈ nodesAll os, o.Sound := by
  induction h with
  | nil => simp [nodesAll]
  | perm _ hperm ih => exact fun o ho => ih o ((nodesAll_perm hperm).mem_iff.mpr ho)
  | @node m os parts kind h hordered ih =>
    intro o ho
    rw [nodesAll_append, nodesAll_singleton, nodes, ← List.append_assoc, ← nodesAll_append, List.mem_append,
      List.mem_singleton] at ho
    rcases ho with ho | rfl
    · exact ih o ho
    · exact ⟨fun x hx => (h.mem_places (by rw [placesAll_append]; exact List.mem_append_right _ hx)).2, hordered⟩

/-- What was there before comes before. -/
theorem before (h : Built n m os) (h' : Built m k os') : ∀ a ∈ os, ∀ b ∈ os', Before a b := by
  intro a ha b hb x hx y hy
  have hlt := (h.mem_places (mem_placesAll.mpr ⟨a, ha, hx⟩)).2
  have hle := (h'.mem_places (mem_placesAll.mpr ⟨b, hb, hy⟩)).1
  exact hlt.trans_le hle

theorem swap {as bs : List (Outline Span)} (h : Built n m (os ++ (as ++ bs))) : Built n m (os ++ (bs ++ as)) :=
  h.perm (List.perm_append_comm.append_left os)

theorem comm (h : Built n m (os ++ os')) : Built n m (os' ++ os) := h.perm List.perm_append_comm

/-- A node of which all that was there becomes a part. -/
theorem close (h : Built n m os) : Built n (m + 1) [.node .other ⟨m, 1⟩ os] := .node [] .other h nofun

/-- A block of statements that were there. -/
theorem block (os : List (Outline Span)) {stmts : List (Outline Span)} (h : Built n m (os ++ stmts))
    (hordered : stmts.Pairwise Before) :
    Built n (m + 1) (os ++ [.node .block ⟨m, 1⟩ stmts]) :=
  .node os .block h fun _ => hordered

end Built

/-! ### Drafts without places -/

/-- No place of it is fixed. -/
def Open (o : Outline Mark) : Prop := ∀ mark ∈ o.places, mark = none

theorem open_node {kind : NodeKind} {mark : Mark} {parts : List (Outline Mark)} :
    Open (.node kind mark parts) ↔ mark = none ∧ ∀ o ∈ parts, Open o := by
  rw [Open, places_eq]
  show (∀ x ∈ placesAll parts ++ [mark], x = none) ↔ _
  simp only [List.mem_append, List.mem_singleton, mem_placesAll]
  constructor
  · exact fun h => ⟨h mark (.inr rfl), fun o ho x hx => h x (.inl ⟨o, ho, hx⟩)⟩
  · rintro ⟨hmark, hparts⟩ x (⟨o, ho, hx⟩ | rfl)
    · exact hparts o ho x hx
    · exact hmark

/-- From any number on, it builds the trees of its result. -/
def Builds {β : Type} (x : Placing β) (trees : β → List (Outline Span)) : Prop :=
  ∀ n, Built n (x n).2 (trees (x n).1)

theorem builds_each {α β : Type} {f : α → Placing β} {tree : β → Outline Span} : ∀ {as : List α},
    (∀ a ∈ as, Builds (f a) fun b => [tree b]) → Builds (placeEach f as) fun bs => bs.map tree
  | [], _, n => .nil n
  | a :: _, h, n => (h a List.mem_cons_self n).append (builds_each (fun b hb => h b (List.mem_cons_of_mem a hb)) _)

theorem builds_ident {i : Ident Mark} (h : Open i.outline) : Builds (placeIdent i) fun i => [i.outline] := by
  intro n
  obtain ⟨pos, name⟩ := i
  obtain ⟨rfl, _⟩ := open_node.mp h
  exact (Built.nil n).close

/-! ### Expressions -/

theorem map_fst_placeValues : ∀ (fields : List (Ident Mark × Expr)) (n : Nat),
    (placeValues fields n).1.map Prod.fst = fields.map Prod.fst
  | [], _ => by
    rw [placeValues]
    rfl
  | (name, value) :: rest, n => by
    rw [placeValues]
    exact congrArg (name :: ·) (map_fst_placeValues rest _)

theorem map_snd_placeNames : ∀ (values : List (Ident Mark × Linearity.Expr Span)) (n : Nat),
    (placeNames values n).1.map Prod.snd = values.map Prod.snd
  | [], _ => rfl
  | (_, value) :: rest, _ => congrArg (value :: ·) (map_snd_placeNames rest _)

/-- The names of the values that are placed already. -/
theorem Built.labelled {n m k : Nat} {os : List (Outline Span)} {fields : List (Ident Mark × Expr)}
    (hopen : ∀ o ∈ Expr.labelledOutlines fields, Open o) {values : List (Ident Mark × Linearity.Expr Span)}
    (hfields : values.map Prod.fst = fields.map Prod.fst) (hvalues : Built n m (values.map fun f => f.2.outline))
    (h : Built m k os) :
    Built n (placeNames values k).2 (os ++ Expr.labelledOutlines (placeNames values k).1) := by
  have hnames : ∀ f ∈ values, Open f.1.outline := by
    intro f hf
    have hmem : f.1 ∈ fields.map Prod.fst := hfields ▸ List.mem_map_of_mem hf
    obtain ⟨field, hfield, heq⟩ := List.mem_map.mp hmem
    rw [← heq]
    exact hopen _ ((Expr.labelledOutlines_perm fields).mem_iff.mpr
      (List.mem_append_right _ (List.mem_map_of_mem hfield)))
  have hplaced : Builds (placeNames values) fun fs => fs.map fun f => f.1.outline :=
    builds_each fun f hf n => builds_ident (hnames f hf) n
  have hvalues' : (placeNames values k).1.map (fun f => f.2.outline) = values.map fun f => f.2.outline := by
    have hmap := congrArg (List.map Expr.outline) (map_snd_placeNames values k)
    rwa [List.map_map, List.map_map] at hmap
  refine ((hvalues.append h).append (hplaced k)).perm ?_
  rw [← hvalues']
  refine (List.perm_append_comm.append_right _).trans ?_
  rw [List.append_assoc]
  exact (Expr.labelledOutlines_perm _).symm.append_left os

mutual

/-- An expression without places builds its own tree. -/
theorem builds_expr : ∀ {e : Expr}, Open e.outline → Builds (placeExpr e) fun e => [e.outline]
  | ⟨pos, ty, form⟩, h, n => by
    rw [Expr.outline, open_node] at h
    obtain ⟨rfl, hform⟩ := h
    rw [placeExpr]
    exact (builds_form hform n).close

theorem builds_form : ∀ {form : Form Mark}, (∀ o ∈ form.outlines, Open o) → Builds (placeForm form) Form.outlines
  | .lit _, _, n => .nil n
  | .var _, _, n => .nil n
  | .call callee args, h, n => by
    rw [Form.outlines, List.forall_mem_cons] at h
    rw [placeForm]
    exact ((builds_exprs h.2 n).append (builds_ident h.1 _)).perm (List.perm_append_singleton _ _)
  | .binary op lhs rhs, h, n => by
    simp only [Form.outlines, List.forall_mem_cons] at h
    rw [placeForm]
    exact (builds_expr h.1 n).append (builds_expr h.2.1 _)
  | .unary op operand, h, n => by
    simp only [Form.outlines, List.forall_mem_cons] at h
    rw [placeForm]
    exact builds_expr h.1 n
  | .record name fields, h, n => by
    rw [Form.outlines, List.forall_mem_cons] at h
    rw [placeForm]
    exact .labelled h.2 (map_fst_placeValues fields n) (builds_values h.2 n) (builds_ident h.1 _)
  | .union name variant slots, h, n => by
    simp only [Form.outlines, List.forall_mem_cons] at h
    rw [placeForm]
    exact .labelled h.2.2 (map_fst_placeValues slots n) (builds_values h.2.2 n)
      ((builds_ident h.1 _).append (builds_ident h.2.1 _))
  | .borrow kind target, h, n => by
    simp only [Form.outlines, List.forall_mem_cons] at h
    rw [placeForm]
    exact builds_ident h.1 n
  | .deref reference, h, n => by
    simp only [Form.outlines, List.forall_mem_cons] at h
    rw [placeForm]
    exact builds_expr h.1 n
  | .path head steps, h, n => by
    rw [Form.outlines, List.forall_mem_cons] at h
    rw [placeForm]
    exact (builds_expr h.1 n).append (builds_steps h.2 _)

theorem builds_exprs : ∀ {es : List Expr}, (∀ o ∈ Expr.outlines es, Open o) → Builds (placeExprs es) Expr.outlines
  | [], _, n => .nil n
  | e :: es, h, n => by
    rw [Expr.outlines, List.forall_mem_cons] at h
    rw [placeExprs]
    exact (builds_expr h.1 n).append (builds_exprs h.2 _)

theorem builds_values : ∀ {fields : List (Ident Mark × Expr)}, (∀ o ∈ Expr.labelledOutlines fields, Open o) →
    Builds (placeValues fields) fun values => values.map fun f => f.2.outline
  | [], _, n => .nil n
  | (name, value) :: rest, h, n => by
    simp only [Expr.labelledOutlines, List.forall_mem_cons] at h
    rw [placeValues]
    exact (builds_expr h.2.1 n).append (builds_values h.2.2 _)

theorem builds_steps : ∀ {steps : List (Step Mark)}, (∀ o ∈ Step.outlines steps, Open o) →
    Builds (placeSteps steps) Step.outlines
  | [], _, n => .nil n
  | .field name :: rest, h, n => by
    rw [Step.outlines, List.forall_mem_cons] at h
    rw [placeSteps]
    exact (builds_ident h.1 n).append (builds_steps h.2 _)
  | .arrow name :: rest, h, n => by
    rw [Step.outlines, List.forall_mem_cons] at h
    rw [placeSteps]
    exact (builds_ident h.1 n).append (builds_steps h.2 _)
  | .index value :: rest, h, n => by
    rw [Step.outlines, List.forall_mem_cons] at h
    rw [placeSteps]
    exact (builds_expr h.1 n).append (builds_steps h.2 _)

end

/-! ### Statements -/

theorem builds_unpacked {part : Unpacked Mark} (h : Open part.outline) :
    Builds (placeUnpacked part) fun part => [part.outline] := by
  intro n
  obtain ⟨pos, field, name, ty⟩ := part
  simp only [Unpacked.outline, open_node, List.forall_mem_cons] at h
  obtain ⟨rfl, hfield, hname, _⟩ := h
  exact ((builds_ident hfield n).append (builds_ident hname _)).close

/-- What is placed of an open branch. -/
def OpenBranch.outlines (b : OpenBranch) : List (Outline Span) := b.cond.outline :: Stmt.outlines b.stmts

/-- What is left of it is open, and its statements are in order. -/
structure OpenBranch.Ready (b : OpenBranch) : Prop where
  pos : b.pos = none
  bodyPos : b.bodyPos = none
  ordered : (Stmt.outlines b.stmts).Pairwise Before

/-- Open branches among other trees are closed one by one. -/
theorem Built.branches : ∀ {branches : List OpenBranch}, (∀ b ∈ branches, b.Ready) →
    ∀ {n m : Nat} {os : List (Outline Span)}, Built n m (os ++ branches.flatMap OpenBranch.outlines) →
      Built n (placeEach OpenBranch.place branches m).2
        (os ++ Branch.outlines (placeEach OpenBranch.place branches m).1)
  | [], _, _, _, _, h => h
  | ⟨pos, cond, bodyPos, stmts⟩ :: rest, hready, n, m, os, h => by
    obtain ⟨⟨hpos, hbody, hordered⟩, hrest⟩ := List.forall_mem_cons.mp hready
    dsimp only at hpos hbody
    subst hpos hbody
    have hstmts := h.swap
    rw [← List.append_assoc, OpenBranch.outlines, ← List.singleton_append, ← List.append_assoc] at hstmts
    have hbody := Built.block _ hstmts hordered
    rw [List.append_assoc] at hbody
    have hbranch := Built.node _ .other hbody nofun
    rw [List.append_assoc] at hbranch
    have hclosed := hbranch.swap
    rw [← List.append_assoc] at hclosed
    have hall := Built.branches hrest hclosed
    rw [List.append_assoc] at hall
    exact hall

theorem builds_parts {parts : List (Unpacked Mark)} (h : ∀ o ∈ parts.map Unpacked.outline, Open o) :
    Builds (placeEach placeUnpacked parts) fun parts => parts.map Unpacked.outline :=
  builds_each fun _ hpart => builds_unpacked (h _ (List.mem_map_of_mem hpart))

/-- From any number on, it builds statements that follow each other. -/
def BuildsStmts (x : Placing (List (Stmt Span))) : Prop :=
  ∀ n, Built n (x n).2 (Stmt.outlines (x n).1) ∧ (Stmt.outlines (x n).1).Pairwise Before

/-- From any number on, it builds what is placed of branches before they are closed. -/
def BuildsBranches (x : Placing (List OpenBranch)) : Prop :=
  ∀ n, Built n (x n).2 ((x n).1.flatMap OpenBranch.outlines) ∧ ∀ b ∈ (x n).1, b.Ready

section Bodies
variable {pos bodyPos : Mark} {stmts : List (Stmt Mark)} {branches : List (Branch Mark)}
  (hstmts : (∀ o ∈ Stmt.outlines stmts, Open o) → BuildsStmts (placeStmts stmts))
  (hbranches : (∀ o ∈ Branch.outlines branches, Open o) → BuildsBranches (placeBranches branches))

include hbranches

theorem builds_choose (h : Open (Stmt.choose pos branches none).outline) :
    Builds (placeStmt (.choose pos branches none)) fun stmt => [stmt.outline] := by
  intro n
  rw [Stmt.outline, open_node] at h
  obtain ⟨rfl, hopen⟩ := h
  obtain ⟨hbuilt, hready⟩ := hbranches hopen n
  rw [placeStmt]
  exact (@Built.branches _ hready _ _ [] hbuilt).close

include hstmts

/-- The branches are closed when the statements of the last block are there, and the block after them. -/
theorem builds_otherwise (h : Open (Stmt.choose pos branches (some ⟨bodyPos, stmts⟩)).outline) :
    Builds (placeStmt (.choose pos branches (some ⟨bodyPos, stmts⟩))) fun stmt => [stmt.outline] := by
  intro n
  simp only [Stmt.outline, Block.outline, open_node, List.forall_mem_append, List.forall_mem_singleton] at h
  obtain ⟨rfl, hopen, rfl, helse⟩ := h
  obtain ⟨hopened, hready⟩ := hbranches hopen n
  obtain ⟨hlast, hordered⟩ := hstmts helse (placeBranches branches n).2
  have hclosed := Built.branches hready (hopened.append hlast).comm
  rw [placeStmt]
  exact (Built.block _ hclosed.comm hordered).close

omit hbranches

theorem builds_loop {cond : Expr} (h : Open (Stmt.loop pos cond ⟨bodyPos, stmts⟩).outline) :
    Builds (placeStmt (.loop pos cond ⟨bodyPos, stmts⟩)) fun stmt => [stmt.outline] := by
  intro n
  simp only [Stmt.outline, Block.outline, open_node, List.forall_mem_cons] at h
  obtain ⟨rfl, hcond, ⟨rfl, hopen⟩, _⟩ := h
  obtain ⟨hbody, hordered⟩ := hstmts hopen (placeExpr cond n).2
  rw [placeStmt]
  exact (Built.block [_] ((builds_expr hcond n).append hbody) hordered).close

/-- The counter is placed after the body that it counts. -/
theorem builds_count {var : Ident Mark} {first last : Expr}
    (h : Open (Stmt.count pos var first last ⟨bodyPos, stmts⟩).outline) :
    Builds (placeStmt (.count pos var first last ⟨bodyPos, stmts⟩)) fun stmt => [stmt.outline] := by
  intro n
  simp only [Stmt.outline, Block.outline, open_node, List.forall_mem_cons] at h
  obtain ⟨rfl, hvar, hfirst, hlast, ⟨rfl, hopen⟩, _⟩ := h
  have hbounds := (builds_expr hfirst n).append (builds_expr hlast _)
  obtain ⟨hbody, hordered⟩ := hstmts hopen (placeExpr last (placeExpr first n).2).2
  have hall := (hbounds.append hbody).append (builds_ident hvar _)
  rw [placeStmt]
  exact (Built.block [_, _, _] hall.comm hordered).close

/-- The three names are placed after the body. -/
theorem builds_borrow {kind : RefKind} {source name region : Ident Mark}
    (h : Open (Stmt.borrow pos kind source name region ⟨bodyPos, stmts⟩).outline) :
    Builds (placeStmt (.borrow pos kind source name region ⟨bodyPos, stmts⟩)) fun stmt => [stmt.outline] := by
  intro n
  simp only [Stmt.outline, Block.outline, open_node, List.forall_mem_cons] at h
  obtain ⟨rfl, hsource, hname, hregion, ⟨rfl, hopen⟩, _⟩ := h
  obtain ⟨hbody, hordered⟩ := hstmts hopen n
  have hnames := ((builds_ident hsource (placeStmts stmts n).2).append (builds_ident hname _)).append
    (builds_ident hregion _)
  rw [placeStmt]
  exact (Built.block [_, _, _] (hbody.append hnames).comm hordered).close

end Bodies

mutual

/-- A statement without places builds its own tree. -/
theorem builds_stmt : ∀ {stmt : Stmt Mark}, Open stmt.outline → Builds (placeStmt stmt) fun stmt => [stmt.outline]
  | .bind pos name ty value, h => by
    intro n
    simp only [Stmt.outline, open_node, List.forall_mem_cons] at h
    obtain ⟨rfl, hname, hvalue, _⟩ := h
    rw [placeStmt]
    exact ((builds_expr hvalue n).append (builds_ident hname _)).comm.close
  | .unpack pos parts value, h => by
    intro n
    simp only [Stmt.outline, open_node, List.forall_mem_append, List.forall_mem_singleton] at h
    obtain ⟨rfl, hparts, hvalue⟩ := h
    rw [placeStmt]
    exact ((builds_expr hvalue n).append (builds_parts hparts _)).comm.close
  | .assign pos target value, h => by
    intro n
    simp only [Stmt.outline, open_node, List.forall_mem_cons] at h
    obtain ⟨rfl, htarget, hvalue, _⟩ := h
    rw [placeStmt]
    exact ((builds_expr htarget n).append (builds_expr hvalue _)).close
  | .choose _ _ none, h => builds_choose builds_branches h
  | .choose _ _ (some ⟨_, _⟩), h => builds_otherwise builds_stmts builds_branches h
  | .select pos scrutinee arms, h => by
    intro n
    rw [Stmt.outline, open_node, List.forall_mem_cons] at h
    obtain ⟨rfl, hscrutinee, harms⟩ := h
    rw [placeStmt]
    exact ((builds_expr hscrutinee n).append (builds_arms harms _)).close
  | .loop _ _ ⟨_, _⟩, h => builds_loop builds_stmts h
  | .count _ _ _ _ ⟨_, _⟩, h => builds_count builds_stmts h
  | .borrow _ _ _ _ _ ⟨_, _⟩, h => builds_borrow builds_stmts h
  | .ret pos value, h => by
    intro n
    simp only [Stmt.outline, open_node, List.forall_mem_cons] at h
    obtain ⟨rfl, hvalue, _⟩ := h
    rw [placeStmt]
    exact (builds_expr hvalue n).close
  | .discard pos value, h => by
    intro n
    simp only [Stmt.outline, open_node, List.forall_mem_cons] at h
    obtain ⟨rfl, hvalue, _⟩ := h
    rw [placeStmt]
    exact (builds_expr hvalue n).close
  | .block ⟨pos, stmts⟩, h => by
    intro n
    rw [Stmt.outline, Block.outline, open_node] at h
    obtain ⟨rfl, hstmts⟩ := h
    obtain ⟨hbody, hordered⟩ := builds_stmts hstmts n
    rw [placeStmt]
    exact Built.block [] hbody hordered

theorem builds_stmts : ∀ {stmts : List (Stmt Mark)}, (∀ o ∈ Stmt.outlines stmts, Open o) → BuildsStmts (placeStmts stmts)
  | [], _, n => ⟨.nil n, .nil⟩
  | stmt :: rest, h, n => by
    rw [Stmt.outlines, List.forall_mem_cons] at h
    have hstmt := builds_stmt h.1 n
    obtain ⟨hrest, hordered⟩ := builds_stmts h.2 (placeStmt stmt n).2
    rw [placeStmts]
    exact ⟨hstmt.append hrest, .cons (hstmt.before hrest _ (List.mem_singleton_self _)) hordered⟩

theorem builds_branches : ∀ {branches : List (Branch Mark)}, (∀ o ∈ Branch.outlines branches, Open o) →
    BuildsBranches (placeBranches branches)
  | [], _, n => ⟨.nil n, nofun⟩
  | ⟨pos, cond, ⟨bodyPos, stmts⟩⟩ :: rest, h, n => by
    simp only [Branch.outlines, Block.outline, open_node, List.forall_mem_cons] at h
    obtain ⟨⟨rfl, hcond, ⟨rfl, hstmts⟩, _⟩, hrest⟩ := h
    obtain ⟨hbody, hordered⟩ := builds_stmts hstmts (placeExpr cond n).2
    obtain ⟨hbuilt, hready⟩ := builds_branches hrest (placeStmts stmts (placeExpr cond n).2).2
    rw [placeBranches]
    exact ⟨((builds_expr hcond n).append hbody).append hbuilt, List.forall_mem_cons.mpr ⟨⟨rfl, rfl, hordered⟩, hready⟩⟩

theorem builds_arms : ∀ {arms : List (Arm Mark)}, (∀ o ∈ Arm.outlines arms, Open o) → Builds (placeArms arms) Arm.outlines
  | [], _, n => .nil n
  | ⟨pos, variant, parts, ⟨bodyPos, stmts⟩⟩ :: rest, h, n => by
    simp only [Arm.outlines, Block.outline, open_node, List.forall_mem_cons, List.forall_mem_append] at h
    obtain ⟨⟨rfl, ⟨hvariant, hparts⟩, ⟨rfl, hstmts⟩, _⟩, hrest⟩ := h
    obtain ⟨hbody, hordered⟩ := builds_stmts hstmts n
    have hnames := (builds_ident hvariant (placeStmts stmts n).2).append (builds_parts hparts _)
    have harm := (Built.block _ (hbody.append hnames).comm hordered).close
    rw [placeArms]
    exact harm.append (builds_arms hrest _)

end

/-! ### Definitions -/

theorem builds_typeParam {p : TypeParam Mark} (h : Open p.outline) : Builds (placeTypeParam p) fun p => [p.outline] := by
  intro n
  obtain ⟨pos, name, kind⟩ := p
  simp only [TypeParam.outline, open_node, List.forall_mem_cons] at h
  obtain ⟨rfl, hname, _⟩ := h
  exact (builds_ident hname n).close

theorem builds_slot {s : Slot Mark} (h : Open s.outline) : Builds (placeSlot s) fun s => [s.outline] := by
  intro n
  obtain ⟨pos, name, ty⟩ := s
  simp only [Slot.outline, open_node, List.forall_mem_cons] at h
  obtain ⟨rfl, hname, _⟩ := h
  exact (builds_ident hname n).close

theorem builds_slots {slots : List (Slot Mark)} (h : ∀ o ∈ slots.map Slot.outline, Open o) :
    Builds (placeEach placeSlot slots) fun slots => slots.map Slot.outline :=
  builds_each fun _ hslot => builds_slot (h _ (List.mem_map_of_mem hslot))

theorem builds_typeParams {params : List (TypeParam Mark)} (h : ∀ o ∈ params.map TypeParam.outline, Open o) :
    Builds (placeEach placeTypeParam params) fun params => params.map TypeParam.outline :=
  builds_each fun _ hparam => builds_typeParam (h _ (List.mem_map_of_mem hparam))

theorem builds_variant {v : Variant Mark} (h : Open v.outline) : Builds (placeVariant v) fun v => [v.outline] := by
  intro n
  obtain ⟨pos, name, slots⟩ := v
  rw [Variant.outline, open_node, List.forall_mem_cons] at h
  obtain ⟨hpos, hname, hslots⟩ := h
  dsimp only at hpos
  subst hpos
  exact ((builds_ident hname n).append (builds_slots hslots _)).close

theorem builds_shape : ∀ {shape : Shape Mark}, (∀ o ∈ shape.outlines, Open o) → Builds (placeShape shape) Shape.outlines
  | .sealed, _, n => .nil n
  | .record _, h, n => builds_slots h n
  | .union _, h, n => builds_each (fun _ hv => builds_variant (h _ (List.mem_map_of_mem hv))) n

theorem builds_typeDef {d : TypeDef Mark} (h : Open d.outline) : Builds (placeTypeDef d) fun d => [d.outline] := by
  intro n
  obtain ⟨pos, name, params, univ, shape⟩ := d
  simp only [TypeDef.outline, open_node, List.forall_mem_append, List.forall_mem_cons] at h
  obtain ⟨rfl, ⟨hname, hparams⟩, hshape⟩ := h
  exact (((builds_ident hname n).append (builds_typeParams hparams _)).append (builds_shape hshape _)).close

/-- A function without places builds its own tree. -/
theorem builds_funDef {f : FunDef Mark} (h : Open f.outline) : Builds (placeFunDef f) fun f => [f.outline] := by
  intro n
  obtain ⟨pos, name, typeParams, params, ret, ⟨bodyPos, stmts⟩⟩ := f
  simp only [FunDef.outline, Block.outline, open_node, List.forall_mem_append, List.forall_mem_cons] at h
  obtain ⟨rfl, ⟨⟨hname, htypeParams⟩, hparams⟩, ⟨rfl, hstmts⟩, _⟩ := h
  obtain ⟨hbody, hordered⟩ := builds_stmts hstmts n
  have hhead := ((builds_ident hname (placeStmts stmts n).2).append (builds_typeParams htypeParams _)).append
    (builds_slots hparams _)
  exact (Built.block _ (hbody.append hhead).comm hordered).close

/-- A program without places builds its own trees. -/
theorem builds_program {p : Program Mark} (h : ∀ o ∈ p.outlines, Open o) : Builds (placeProgram p) Program.outlines := by
  intro n
  rw [Program.outlines, List.forall_mem_append] at h
  have htypes : Builds (placeEach placeTypeDef p.types) fun types => types.map TypeDef.outline :=
    builds_each fun _ hd => builds_typeDef (h.1 _ (List.mem_map_of_mem hd))
  have hfunctions : Builds (placeEach placeFunDef p.functions) fun functions => functions.map FunDef.outline :=
    builds_each fun _ hf => builds_funDef (h.2 _ (List.mem_map_of_mem hf))
  exact (htypes n).append (hfunctions _)

/-! ### The tree is kept -/

@[simp] theorem placing_bind {β γ : Type} (x : Placing β) (f : β → Placing γ) (n : Nat) :
    (x >>= f) n = f (x n).1 (x n).2 := rfl

@[simp] theorem placing_map {β γ : Type} (f : β → γ) (x : Placing β) (n : Nat) :
    (f <$> x) n = (f (x n).1, (x n).2) := rfl

@[simp] theorem placing_pure {β : Type} (b : β) (n : Nat) : (pure b : Placing β) n = (b, n) := rfl

@[simp] theorem bare_ident (i : Ident Mark) (n : Nat) : (placeIdent i n).1.outline.bare = i.outline.bare := rfl

theorem bareAll_each {α β : Type} {f : α → Placing β} {tree : β → Outline Span} {draft : α → Outline Mark}
    (h : ∀ a n, (tree (f a n).1).bare = (draft a).bare) (as : List α) (n : Nat) :
    bareAll ((placeEach f as n).1.map tree) = bareAll (as.map draft) := by
  induction as generalizing n with
  | nil => rfl
  | cons a as ih => simp only [placeEach, placing_bind, placing_pure, List.map_cons, bareAll, h, ih]

theorem bareAll_names (values : List (Ident Mark × Linearity.Expr Span)) (n : Nat) :
    bareAll (Expr.labelledOutlines (placeNames values n).1) =
      values.flatMap fun f => [f.1.outline.bare, f.2.outline.bare] := by
  induction values generalizing n with
  | nil => rfl
  | cons f rest ih => exact congrArg (f.1.outline.bare :: f.2.outline.bare :: ·) (ih (n + 1))

mutual

/-- Placing an expression keeps its tree. -/
theorem bare_expr : ∀ (e : Expr) (n : Nat), (placeExpr e n).1.outline.bare = e.outline.bare
  | ⟨_, _, form⟩, n => by simp [placeExpr, Expr.outline, bare, bareAll_form form]

theorem bareAll_form : ∀ (form : Form Mark) (n : Nat), bareAll (placeForm form n).1.outlines = bareAll form.outlines
  | .lit _, _ => rfl
  | .var _, _ => rfl
  | .call _ args, n => by simp [placeForm, Form.outlines, bareAll, bareAll_exprs args]
  | .binary _ lhs rhs, n => by simp [placeForm, Form.outlines, bareAll, bare_expr lhs, bare_expr rhs]
  | .unary _ operand, n => by simp [placeForm, Form.outlines, bareAll, bare_expr operand]
  | .record _ fields, n => by simp [placeForm, Form.outlines, bareAll, bareAll_names, bare_values fields]
  | .union _ _ slots, n => by simp [placeForm, Form.outlines, bareAll, bareAll_names, bare_values slots]
  | .borrow _ _, _ => rfl
  | .deref reference, n => by simp [placeForm, Form.outlines, bareAll, bare_expr reference]
  | .path head steps, n => by simp [placeForm, Form.outlines, bareAll, bare_expr head, bareAll_steps steps]

theorem bareAll_exprs : ∀ (es : List Expr) (n : Nat), bareAll (Expr.outlines (placeExprs es n).1) = bareAll (Expr.outlines es)
  | [], _ => rfl
  | e :: es, n => by simp [placeExprs, Expr.outlines, bareAll, bare_expr e, bareAll_exprs es]

theorem bare_values : ∀ (fields : List (Ident Mark × Expr)) (n : Nat),
    ((placeValues fields n).1.flatMap fun f => [f.1.outline.bare, f.2.outline.bare]) =
      bareAll (Expr.labelledOutlines fields)
  | [], _ => rfl
  | (_, value) :: rest, n => by simp [placeValues, Expr.labelledOutlines, bareAll, bare_expr value, bare_values rest]

theorem bareAll_steps : ∀ (steps : List (Step Mark)) (n : Nat),
    bareAll (Step.outlines (placeSteps steps n).1) = bareAll (Step.outlines steps)
  | [], _ => rfl
  | .field _ :: rest, n => by simp [placeSteps, Step.outlines, bareAll, bareAll_steps rest]
  | .arrow _ :: rest, n => by simp [placeSteps, Step.outlines, bareAll, bareAll_steps rest]
  | .index value :: rest, n => by simp [placeSteps, Step.outlines, bareAll, bare_expr value, bareAll_steps rest]

end

attribute [simp] bare_expr

/-- The branch that an open one becomes. -/
def OpenBranch.bare (b : OpenBranch) : Outline Unit :=
  .node .other () [b.cond.outline.bare, .node .block () (bareAll (Stmt.outlines b.stmts))]

/-- Closing branches keeps their trees. -/
theorem bareAll_branches (branches : List OpenBranch) (n : Nat) :
    bareAll (Branch.outlines (placeEach OpenBranch.place branches n).1) = branches.map OpenBranch.bare := by
  induction branches generalizing n with
  | nil => rfl
  | cons b rest ih => exact congrArg (b.bare :: ·) (ih (n + 2))

@[simp] theorem bareAll_parts (parts : List (Unpacked Mark)) (n : Nat) :
    bareAll ((placeEach placeUnpacked parts n).1.map Unpacked.outline) = bareAll (parts.map Unpacked.outline) :=
  bareAll_each (fun _ _ => rfl) parts n

mutual

/-- Placing a statement keeps its tree. -/
theorem bare_stmt : ∀ (stmt : Stmt Mark) (n : Nat), (placeStmt stmt n).1.outline.bare = stmt.outline.bare
  | .bind .., n => by simp [placeStmt, Stmt.outline, bare, bareAll]
  | .unpack .., n => by simp [placeStmt, Stmt.outline, bare, bareAll, bareAll_append]
  | .assign .., n => by simp [placeStmt, Stmt.outline, bare, bareAll]
  | .choose _ branches none, n => by simp [placeStmt, Stmt.outline, bare, bareAll_branches, bare_openBranches branches]
  | .choose _ branches (some ⟨_, stmts⟩), n => by
    simp [placeStmt, Stmt.outline, Block.outline, bare, bareAll, bareAll_append, bareAll_branches,
      bare_openBranches branches, bareAll_stmts stmts]
  | .select _ _ arms, n => by simp [placeStmt, Stmt.outline, bare, bareAll, bareAll_arms arms]
  | .loop _ _ ⟨_, stmts⟩, n => by simp [placeStmt, Stmt.outline, Block.outline, bare, bareAll, bareAll_stmts stmts]
  | .count _ _ _ _ ⟨_, stmts⟩, n => by simp [placeStmt, Stmt.outline, Block.outline, bare, bareAll, bareAll_stmts stmts]
  | .borrow _ _ _ _ _ ⟨_, stmts⟩, n => by
    simp [placeStmt, Stmt.outline, Block.outline, bare, bareAll, bareAll_stmts stmts]
  | .ret .., n => by simp [placeStmt, Stmt.outline, bare, bareAll]
  | .discard .., n => by simp [placeStmt, Stmt.outline, bare, bareAll]
  | .block ⟨_, stmts⟩, n => by simp [placeStmt, Stmt.outline, Block.outline, bare, bareAll_stmts stmts]

theorem bareAll_stmts : ∀ (stmts : List (Stmt Mark)) (n : Nat),
    bareAll (Stmt.outlines (placeStmts stmts n).1) = bareAll (Stmt.outlines stmts)
  | [], _ => rfl
  | stmt :: rest, n => by simp [placeStmts, Stmt.outlines, bareAll, bare_stmt stmt, bareAll_stmts rest]

theorem bare_openBranches : ∀ (branches : List (Branch Mark)) (n : Nat),
    (placeBranches branches n).1.map OpenBranch.bare = bareAll (Branch.outlines branches)
  | [], _ => rfl
  | ⟨_, _, ⟨_, stmts⟩⟩ :: rest, n => by
    simp [placeBranches, Branch.outlines, Block.outline, OpenBranch.bare, bare, bareAll, bareAll_stmts stmts,
      bare_openBranches rest]

theorem bareAll_arms : ∀ (arms : List (Arm Mark)) (n : Nat),
    bareAll (Arm.outlines (placeArms arms n).1) = bareAll (Arm.outlines arms)
  | [], _ => rfl
  | ⟨_, _, _, ⟨_, stmts⟩⟩ :: rest, n => by
    simp [placeArms, Arm.outlines, Block.outline, bare, bareAll, bareAll_append, bareAll_stmts stmts, bareAll_arms rest]

end

theorem bareAll_slots (slots : List (Slot Mark)) (n : Nat) :
    bareAll ((placeEach placeSlot slots n).1.map Slot.outline) = bareAll (slots.map Slot.outline) :=
  bareAll_each (fun _ _ => rfl) slots n

theorem bare_variant (v : Variant Mark) (n : Nat) : (placeVariant v n).1.outline.bare = v.outline.bare := by
  simp [placeVariant, Variant.outline, bare, bareAll, bareAll_slots]

theorem bareAll_shape (shape : Shape Mark) (n : Nat) :
    bareAll (placeShape shape n).1.outlines = bareAll shape.outlines := by
  cases shape with
  | «sealed» => rfl
  | record fields => exact bareAll_slots fields n
  | union variants => exact bareAll_each bare_variant variants n

theorem bareAll_typeParams (params : List (TypeParam Mark)) (n : Nat) :
    bareAll ((placeEach placeTypeParam params n).1.map TypeParam.outline) = bareAll (params.map TypeParam.outline) :=
  bareAll_each (fun _ _ => rfl) params n

theorem bare_typeDef (d : TypeDef Mark) (n : Nat) : (placeTypeDef d n).1.outline.bare = d.outline.bare := by
  simp [placeTypeDef, TypeDef.outline, bare, bareAll, bareAll_append, bareAll_typeParams, bareAll_shape]

theorem bare_funDef (f : FunDef Mark) (n : Nat) : (placeFunDef f n).1.outline.bare = f.outline.bare := by
  obtain ⟨pos, name, typeParams, params, ret, ⟨bodyPos, stmts⟩⟩ := f
  simp [placeFunDef, FunDef.outline, Block.outline, bare, bareAll, bareAll_append, bareAll_typeParams, bareAll_slots,
    bareAll_stmts]

/-- Placing a program keeps its trees. -/
theorem bareAll_program (p : Program Mark) (n : Nat) :
    bareAll (placeProgram p n).1.outlines = bareAll p.outlines := by
  simp [placeProgram, Program.outlines, bareAll_append, bareAll_each bare_typeDef, bareAll_each bare_funDef]

/-! ### Finished programs -/

/-- **Places are distinct, without gaps and in order.** Of a draft that fixes no place, and whose
siblings are finished in program order, as `finish` does: the finished program is the drafted tree;
its places have length 1 and are the numbers that were used up, from 0 on, each at one place; every
node's place comes after all others in it; and of the statements of a block, all that is in one
comes before all that is in a later one. Only the last part needs the order of siblings; the others
hold of every forest that is `Built`. -/
theorem finished_places (p : Program Mark) (hopen : ∀ mark ∈ placesAll p.outlines, mark = none) :
    bareAll (finish p).outlines = bareAll p.outlines ∧
    (placesAll (finish p).outlines).Perm ((List.range (placeProgram p 0).2).map fun i => ⟨i, 1⟩) ∧
    ∀ o ∈ nodesAll (finish p).outlines,
      (∀ x ∈ o.inner, x.offset < o.pos.offset) ∧ (o.kind = .block → o.parts.Pairwise Before) := by
  have hbuilt := builds_program (fun o ho mark hmark => hopen mark (mem_placesAll.mpr ⟨o, ho, hmark⟩)) 0
  have hplaces := hbuilt.places_perm
  rw [Nat.sub_zero, ← List.range_eq_range'] at hplaces
  exact ⟨bareAll_program p 0, hplaces, fun o ho => ⟨(hbuilt.sound o ho).last, (hbuilt.sound o ho).ordered⟩⟩

/-- A generic record, and a function that goes through a chain of branches. -/
def sampler : Program Mark where
  types := [⟨none, ident "Cell", [⟨none, ident "A", .poly⟩], .poly, .record [⟨none, ident "item", .param "A"⟩]⟩]
  functions := [⟨none, ident "sample", [], [⟨none, ident "c", .bool⟩], .named "Cell" [.int], ⟨none, [
    .choose none [
        ⟨none, var "c" .bool, ⟨none, [.discard none (lit (.int 1))]⟩⟩,
        ⟨none, not (var "c" .bool), ⟨none, []⟩⟩]
      (some ⟨none, [.ret none (record (.named "Cell" [.int]) [("item", lit (.int 2))])]⟩),
    .block ⟨none, []⟩]⟩⟩]

theorem finished_places_sampler : (∀ mark ∈ placesAll sampler.outlines, mark = none) ∧
    (placeProgram sampler 0).2 = 28 ∧
    (placesAll (finish sampler).outlines).Perm ((List.range 28).map fun i => ⟨i, 1⟩) ∧
    ∀ o ∈ nodesAll (finish sampler).outlines,
      (∀ x ∈ o.inner, x.offset < o.pos.offset) ∧ (o.kind = .block → o.parts.Pairwise Before) := by
  have hopen : ∀ mark ∈ placesAll sampler.outlines, mark = none := by
    have hplaces : placesAll sampler.outlines = List.replicate 28 none := by cbv
    rw [hplaces]
    exact fun mark hmark => List.eq_of_mem_replicate hmark
  have hcount : (placeProgram sampler 0).2 = 28 := by cbv
  obtain ⟨_, hplaces, hsound⟩ := finished_places sampler hopen
  rw [hcount] at hplaces
  exact ⟨hopen, hcount, hplaces, hsound⟩

end Draft
end Linearity
