import Linearity.Proofs.Entries
import Linearity.Proofs.Walk

/-! What the log still owes.

The walk goes through the branches of a choice one after the other, each from the scopes
that the first one found, and afterwards the scopes are joined. The log is not: it keeps
what every branch did, in one list. So where the log gave a value to a name and has not
seen it consumed, a binding of that name need not be live in the scopes at hand. It may be
live at the end of a branch that has been left behind.

`Ledger held s` is the state of the log at `s`: the names of such values are `held`, and
whatever was used or borrowed was there. Along the walk the names held are those of live
bindings, and those that are `due` elsewhere (`owing_visit`). The branches that are left
behind add to what is due (`Spread`). Where they are joined and agree, all that they added
is live again (`live_join`), and where control ends, nothing is live at all. -/
namespace Linearity

/-- Whether an event of the log that `asks` has no later one that `answers`. -/
def pending (asks answers : Event → Bool) (log : List Event) : Bool :=
  log.foldl (fun due e => asks e || due && !answers e) false

section Pending
variable {asks answers : Event → Bool}

theorem pending_append (log : List Event) (added : Option Event) :
    pending asks answers (log ++ added.toList) =
      (added.any asks || pending asks answers log && !added.any answers) := by
  unfold pending
  rw [List.foldl_append]
  cases added with
  | none => simp
  | some e => rfl

theorem foldl_pending {after : List Event} (h : ∀ e ∈ after, answers e = false) :
    after.foldl (fun due e => asks e || due && !answers e) true = true := by
  induction after with
  | nil => rfl
  | cons e after ih =>
    rw [List.foldl_cons, h e List.mem_cons_self, Bool.not_false, Bool.and_true, Bool.or_true]
    exact ih fun e' he' => h e' (List.mem_cons_of_mem e he')

/-- If nothing is pending, whatever asks is answered later. -/
theorem exists_answer {before after : List Event} {e : Event}
    (h : pending asks answers (before ++ e :: after) = false) (he : asks e = true) :
    ∃ e' ∈ after, answers e' = true := by
  cases hany : after.any answers with
  | true => exact List.any_eq_true.mp hany
  | false =>
    have hafter : ∀ e' ∈ after, answers e' = false := by simpa using hany
    rw [pending, List.foldl_append, List.foldl_cons, he, Bool.true_or, foldl_pending hafter] at h
    cases h

end Pending

namespace Check

/-- The log at `s`, with the names of values that are not consumed yet. -/
structure Ledger (held : String → Prop) (s : State) : Prop where
  owed : ∀ {x}, pending (Event.gives x) (Event.takes x) s.events = true → held x
  /-- A linear binding was given its value. -/
  given : ∀ {x}, s.scopes.Owns x → ∃ e ∈ s.events, e.gives x = true
  /-- What was used was given before. -/
  prior : ∀ {x log e}, log ++ [e] <+: s.events → e.uses x = true → ∃ d ∈ log, d.gives x = true
  /-- What was lent was lent to a region that is open. -/
  lent : ∀ {r}, pending (Event.lends r) (Event.closes r) s.events = true → r ∈ s.regions.passing

variable {c : Context} {s t : State} {held held' due : String → Prop} {reach : Reach}

namespace Ledger

/-- A change that the log does not see. -/
theorem mono (h : Ledger held s) (hheld : ∀ x, held x → held' x) (hevents : t.events = s.events)
    (howns : ∀ x, t.scopes.Owns x → s.scopes.Owns x) (hregions : ∀ r ∈ s.regions.passing, r ∈ t.regions.passing) :
    Ledger held' t where
  owed hx := hheld _ (h.owed (hevents ▸ hx))
  given hx := hevents ▸ h.given (howns _ hx)
  prior hlog := h.prior (hevents ▸ hlog)
  lent hr := hregions _ (h.lent (hevents ▸ hr))

theorem weaken (h : Ledger held s) (hheld : ∀ x, held x → held' x) : Ledger held' s :=
  h.mono hheld rfl (fun _ hx => hx) fun _ hr => hr

/-- What an entry does to the ledger. -/
theorem entry {added : Option Event} (h : Ledger held s) (hentry : Entry added s t)
    (hgives : ∀ x, added.any (Event.gives x) = true → held' x)
    (hkeeps : ∀ x, added.any (Event.takes x) = false → held x → held' x) : Ledger held' t where
  owed {x} hx := by
    rw [hentry.events, pending_append, Bool.or_eq_true, Bool.and_eq_true, Bool.not_eq_true'] at hx
    rcases hx with hx | ⟨hx, htakes⟩
    · exact hgives x hx
    · exact hkeeps x htakes (h.owed hx)
  given {x} hx := by
    rw [hentry.events]
    rcases hentry.owns x hx with hgives | hx
    · cases added with
      | none => cases hgives
      | some event => exact ⟨event, List.mem_append_right _ (List.mem_singleton_self event), hgives⟩
    · obtain ⟨e, he, hgives⟩ := h.given hx
      exact ⟨e, List.mem_append_left _ he, hgives⟩
  prior {x log e} hlog huses := by
    rw [hentry.events] at hlog
    cases added with
    | none => exact h.prior (by simpa using hlog) huses
    | some event =>
      rcases List.prefix_concat_iff.mp hlog with heq | hlog
      · obtain ⟨rfl, hlast⟩ := List.append_inj' heq rfl
        cases hlast
        exact h.given (hentry.uses x huses)
      · exact h.prior hlog huses
  lent {r} hr := by
    rw [hentry.events, pending_append, Bool.or_eq_true, Bool.and_eq_true, Bool.not_eq_true'] at hr
    rcases hr with hr | ⟨hr, hcloses⟩
    · exact hentry.lends r hr
    · rcases hentry.closes r (h.lent hr) with hcloses' | hr
      · exact absurd (hcloses.symm.trans hcloses') Bool.false_ne_true
      · exact hr

end Ledger

/-! ### Live bindings and what is due -/

/-- The name of a live binding, if control goes on, or one that is due elsewhere. -/
def Held (due : String → Prop) (reach : Reach) (scopes : Scopes) (x : String) : Prop :=
  due x ∨ reach = .continues ∧ 0 < scopes.liveNamed x

/-- The ledger where a construct ends. -/
def Owing (due : String → Prop) (run : Reach × State) : Prop := Ledger (Held due run.1 run.2.scopes) run.2

namespace Owing

/-- Whether control goes on or not, an entry is made; but no value is given where it does not. -/
theorem entry {added : Option Event} (h : Owing due (reach, s)) (hentry : Entry added s t)
    (hgives : ∀ x, added.any (Event.gives x) = true → reach = .continues) : Owing due (reach, t) := by
  refine Ledger.entry h hentry (fun x hx => .inr ⟨hgives x hx, ?_⟩) fun x htakes hheld => ?_
  · have hlevel := hentry.level x
    have htakes : added.any (Event.takes x) = false := by
      cases added with
      | none => rfl
      | some event => exact Event.takes_of_gives hx
    rw [hx, htakes] at hlevel
    simp only [Bool.toNat_true, Bool.toNat_false] at hlevel
    show 0 < t.scopes.liveNamed x
    omega
  · rcases hheld with hdue | ⟨hreach, hlive⟩
    · exact .inl hdue
    · have hlevel := hentry.level x
      rw [htakes, Bool.toNat_false, Nat.zero_add] at hlevel
      exact .inr ⟨hreach, hlevel ▸ Nat.lt_of_lt_of_le hlive (Nat.le_add_left ..)⟩

theorem entries (h : Owing due (.continues, s)) (hentries : Entries s t) : Owing due (.continues, t) := by
  induction hentries with
  | refl => exact h
  | tail _ hstep ih =>
    obtain ⟨added, hentry⟩ := hstep
    exact ih.entry hentry fun _ _ => rfl

/-- Where control ends, nothing more is held than if it went on. -/
theorem resume (h : Owing due (reach, s)) : Owing due (.continues, s) :=
  h.weaken fun _ hx => hx.imp_right fun hlive => ⟨rfl, hlive.2⟩

theorem closeRegion (h : Owing due (reach, s)) (pos : Span) : Owing due (reach, closeRegion pos s) := by
  cases hs : s.regions with
  | nil =>
    unfold Check.closeRegion
    rw [hs]
    exact h
  | cons r outer => exact h.entry (entry_closeRegion hs pos) fun x hx => nomatch hx

theorem leaveScope (h : Owing due (reach, s)) (pos : Span) (hclean : (leaveScope c reach pos s).found = []) :
    Owing due (reach, leaveScope c reach pos s) := by
  cases reach with
  | continues => exact h.entries ((books_leaveScope c pos).entries hclean)
  | diverges =>
    refine h.mono (fun _ hx => hx.imp_right fun hlive => (nomatch hlive.1)) (leaveScope_events ..) (fun x hx => ?_)
      fun r hr => (leaveScope_regions ..).symm ▸ hr
    rw [leaveScope_scopes] at hx
    exact hx.of_pop

theorem leaveBorrow (h : Owing due (reach, s)) (opened : Bool) (pos : Span) :
    Owing due (reach, leaveBorrow opened pos s) := by
  cases opened with
  | false => exact h
  | true => exact h.closeRegion pos

end Owing

/-! ### Branches -/

/-- What is due, and the names of bindings that are live at the end of a branch. -/
def Spread (due : String → Prop) (outcomes : List Outcome) (x : String) : Prop :=
  due x ∨ ∃ e ∈ reached outcomes, 0 < e.2.liveNamed x

theorem Spread.append {outcomes outcomes' : List Outcome} {x : String}
    (h : Spread (Spread due outcomes) outcomes' x) : Spread due (outcomes ++ outcomes') x := by
  rcases h with (hdue | ⟨e, he, hlive⟩) | ⟨e, he, hlive⟩
  · exact .inl hdue
  · exact .inr ⟨e, reached_append .. ▸ List.mem_append_left _ he, hlive⟩
  · exact .inr ⟨e, reached_append .. ▸ List.mem_append_right _ he, hlive⟩

/-- A branch that is left behind. -/
theorem ledger_outcome {run : Reach × State} (h : Owing due run) (pos : Span)
    (hskel : run.2.scopes.skeleton = s.scopes.skeleton) :
    Ledger (Spread due [(outcome pos s run).1]) (outcome pos s run).2 := by
  refine h.mono (fun x hx => ?_) rfl (fun x hx => hx.of_skeleton hskel) fun _ hr => hr
  rcases hx with hdue | ⟨hreach, hlive⟩
  · exact .inl hdue
  · exact .inr ⟨_, mem_reached_cons (reached_outcome hreach), hlive⟩

theorem liveNamed_pos {scopes : Scopes} {x : String} :
    0 < scopes.liveNamed x ↔ ∃ id b, scopes.get? id = some b ∧ b.isLive = true ∧ b.name = x := by
  rw [Scopes.liveNamed, List.countP_pos_iff]
  constructor
  · rintro ⟨b, hb, hname⟩
    obtain ⟨id, hget, hlive⟩ := Scopes.mem_live.mp hb
    exact ⟨id, b, hget, hlive, eq_of_beq hname⟩
  · rintro ⟨id, b, hget, hlive, rfl⟩
    exact ⟨b, Scopes.mem_live.mpr ⟨id, hget, hlive⟩, beq_self_eq_true b.name⟩

/-- Where branches that agree are joined, what is live at the end of one is live. -/
theorem live_join {outcomes : List Outcome} (hbranched : Branched s outcomes t)
    (hclean : (join c outcomes t).2.found = []) {e : Span × Scopes} (he : e ∈ reached outcomes) {x : String}
    (hlive : 0 < e.2.liveNamed x) : 0 < (join c outcomes t).2.scopes.liveNamed x := by
  obtain ⟨id, b, hb, hblive, hname⟩ := liveNamed_pos.mp hlive
  rw [Binding.isLive, Bool.and_eq_true, Bool.not_eq_true'] at hblive
  have hskel := hbranched.kept.skeleton_eq.trans (hbranched.exits he).skeleton_eq.symm
  obtain ⟨b', hb', hblank⟩ := Scopes.get?_of_skeleton hskel hb
  have hlin : b'.isLinear = true := (Binding.isLinear_of_blank hblank).trans hblive.1
  have hkept : (reached outcomes).any (fun e' => (consumedAt id e'.2).isSome) = false := by
    refine Bool.eq_false_iff.mpr fun hany => ?_
    obtain ⟨e', he', hconsumed⟩ := List.any_eq_true.mp hany
    refine agree_of_join c hclean hb' hlin ⟨⟨e', he', hconsumed⟩, e, he, ?_⟩
    rw [consumedAt_of_get? hb]
    exact hblive.2
  have hjoin := get?_join c t (List.ne_nil_of_mem he) id
  rw [hb', Option.map_some, if_pos hlin] at hjoin
  refine liveNamed_pos.mpr ⟨id, _, hjoin, ?_, ?_⟩
  · rw [Binding.isLive, Bool.and_eq_true, Bool.not_eq_true', merged_isConsumed]
    exact ⟨hlin, hkept⟩
  · show b'.name = x
    rw [← Binding.blank_name, hblank, Binding.blank_name, hname]

theorem owing_join {outcomes : List Outcome} (hbranched : Branched s outcomes t)
    (h : Ledger (Spread due outcomes) t) (hclean : (join c outcomes t).2.found = []) :
    Owing due (join c outcomes t) := by
  obtain ⟨hskel, _, hregions, hevents, _⟩ := @join_frame c outcomes t
  refine h.mono (fun x hx => ?_) hevents (fun x hx => hx.of_skeleton hskel.symm) fun r hr => hregions.symm ▸ hr
  rcases hx with hdue | ⟨e, he, hlive⟩
  · exact .inl hdue
  · refine .inr ⟨?_, live_join hbranched hclean he hlive⟩
    rw [join_of_some c t (List.ne_nil_of_mem he)]

/-! ### The walk -/

theorem Ledger.owing (h : Ledger due s) : Owing due (.continues, s) := h.weaken fun _ => .inl

/-- Behind the barrier of a loop, a body ends in the scopes that it began with. -/
theorem owing_round {body : Block Span} (hs : Ready s) (hwalled : Walled s) (h : Owing due (checkBlock c body s)) :
    Owing due (.continues, {(checkBlock c body s).2 with scopes := s.scopes}) := by
  rw [← (kept_checkBlock c body hs).scopes_eq hs hwalled]
  exact h.resume

/-- Where control ends without anything found, nothing is live. -/
theorem owing_ret {pos : Span} {value : Expr Span} (h : Owing due (.continues, s))
    (hclean : (ret c pos value s).found = []) : Owing due (.diverges, ret c pos value s) := by
  have hlive : (ret c pos value s).scopes.live = [] := by
    have hnone := live_of_clean hclean
    exact (congrArg Scopes.live (reportAll_scopes ..)).trans hnone
  rw [ret_eq] at hclean hlive ⊢
  have hret := h.entries (((books_closing c value.pos (actions value)).seq (books_perform c _)).entries hclean)
  refine hret.weaken fun x hx => .inl (hx.resolve_right fun hheld => ?_)
  have hpos := hheld.2
  rw [Scopes.liveNamed, hlive] at hpos
  exact absurd hpos (Nat.lt_irrefl 0)

/-- The scope of a counter has no live binding. -/
theorem counter_not_live (var : Ident Span) (s : State) :
    ∀ b ∈ (define c var.name .int var.pos (pushScope s)).scopes.pop.1, b.isLive = false := by
  intro b hb
  rw [List.mem_singleton.mp hb, Binding.isLive, Binding.isLinear, isLinear_int]
  rfl

/-- A run in which nothing is found leaves nothing owed but what is live, or due elsewhere. -/
def KeepsLedger (run : State → Reach × State) : Prop :=
  ∀ ⦃due s⦄, Ready s → Owing due (.continues, s) → (run s).2.found = [] → Owing due (run s)

section Simple
variable (pos : Span) (value : Expr Span)

theorem owing_bind (name : Ident Span) (ty : Ty) : KeepsLedger (visit c (.bind pos name ty value)) := by
  intro due s _ h hclean
  rw [visit, bind_eq] at hclean ⊢
  exact h.entries (((books_closing c _ _).seq (books_perform c _)).entries hclean)

theorem owing_assign (target : Expr Span) : KeepsLedger (visit c (.assign pos target value)) := by
  intro due s _ h hclean
  rw [visit, assign_eq] at hclean ⊢
  exact h.entries ((books_closing c _ _).entries hclean)

theorem owing_discard : KeepsLedger (visit c (.discard pos value)) := by
  intro due s _ h hclean
  rw [visit, discard_eq] at hclean ⊢
  exact h.entries ((books_closing c _ _).entries hclean)

end Simple

section Blocks
variable {pos : Span} {body : Block Span} {branches : List (Branch Span)}

/-- If no condition holds, control goes on from where the last one leaves off. -/
theorem ledger_skip (h : Owing (Spread due (checkBranches c branches s).1) (.continues, (checkBranches c branches s).2)) :
    Ledger (Spread due (checkChoice c pos branches none s).1) (checkChoice c pos branches none s).2 := by
  refine h.weaken fun x hx => Spread.append ?_
  exact hx.imp_right fun hlive => ⟨_, mem_reached_cons rfl, hlive.2⟩

theorem ledger_otherwise (hbody : KeepsLedger (checkBlock c body)) (hs : Ready s)
    (h : Owing (Spread due (checkBranches c branches s).1) (.continues, (checkBranches c branches s).2))
    (hclean : (checkBlock c body (checkBranches c branches s).2).2.found = []) :
    Ledger (Spread due (checkChoice c pos branches (some body) s).1) (checkChoice c pos branches (some body) s).2 := by
  have hready := (branched_checkBranches c branches hs).kept.ready hs
  have hlast := hbody hready h hclean
  exact (ledger_outcome hlast body.pos (kept_checkBlock c body hready).skeleton_eq).weaken fun _ => Spread.append

theorem owing_loop (cond : Expr Span) (hbody : KeepsLedger (checkBlock c body)) :
    KeepsLedger (visit c (.loop pos cond body)) := by
  intro due s hs h hclean
  have hguard := kept_evalClosed c hs.enterLoop cond
  have hready := hguard.ready hs.enterLoop
  have hwalled := (walled_enterLoop s).of_same (hguard.scopes_eq hs.enterLoop (walled_enterLoop s))
  have hrun : (checkBlock c body (evalClosed c cond (enterLoop s))).2.found = [] := hclean
  have hentry := (h.entries (entry_enterLoop s).entries).entries
    ((books_evalClosed c cond).entries ((grown_checkBlock c body _).eq_nil hrun))
  have hround := owing_round hready hwalled (hbody hready hentry hrun)
  exact hround.entry (entry_exitLoop s _) fun _ _ => rfl

theorem owing_count (var : Ident Span) (first last : Expr Span) (hbody : KeepsLedger (checkBlock c body)) :
    KeepsLedger (visit c (.count pos var first last body)) := by
  intro due s hs h hclean
  have hfirst := kept_evalClosed c hs.enterLoop first
  have hlast := hfirst.trans (kept_evalClosed c (hfirst.ready hs.enterLoop) last)
  have hbounds := hlast.ready hs.enterLoop
  have hwalled := (walled_enterLoop s).of_same (hlast.scopes_eq hs.enterLoop (walled_enterLoop s))
  obtain ⟨new, hvar⟩ := kept_define c hbounds.pushScope var.name .int var.pos
  have hready := hvar.ready hbounds.pushScope
  have hrun : (checkBlock c body (define c var.name .int var.pos
    (pushScope (evalClosed c last (evalClosed c first (enterLoop s)))))).2.found = [] := hclean
  have hentry := (h.entries (entry_enterLoop s).entries).entries
    (((books_evalClosed c first).seq (books_evalClosed c last)).entries ((grown_counter c var body _).eq_nil hrun))
  have hcounter := (hentry.entries (entry_pushScope _).entries).entries (entry_define c var.name .int var.pos _).entries
  have hround := owing_round hready (hwalled.counter var) (hbody hready hcounter hrun)
  have hpopped := hround.entry (entry_popScope (counter_not_live var _)) fun _ _ => rfl
  exact hpopped.entry (entry_exitLoop s _) fun _ _ => rfl

theorem owing_borrow (kind : RefKind) (source name region : Ident Span) (hbody : KeepsLedger (checkBlock c body)) :
    KeepsLedger (visit c (.borrow pos kind source name region body)) := by
  intro due s hs h hclean
  have hleave := (grown_leaveBorrow ..).eq_nil hclean
  have hblock := (grown_leaveScope ..).eq_nil hleave
  have hentry := h.entries ((books_enterBorrow c kind source name region).entries
    ((grown_checkBlock c body _).eq_nil hblock))
  have hrun := hbody (ready_enterBorrow hs kind source name region) hentry hblock
  exact (hrun.leaveScope pos hleave).leaveBorrow _ pos

theorem owing_block {stmts : List (Stmt Span)} (hstmts : KeepsLedger (checkStmts c stmts)) :
    KeepsLedger (checkBlock c ⟨pos, stmts⟩) := by
  intro due s hs h hclean
  have hrun := hstmts hs.pushScope (h.entries (entry_pushScope s).entries) ((grown_leaveScope ..).eq_nil hclean)
  exact hrun.leaveScope pos hclean

theorem owing_cons {stmt : Stmt Span} {rest : List (Stmt Span)} (hstmt : KeepsLedger (visit c stmt))
    (hrest : KeepsLedger (checkStmts c rest)) : KeepsLedger (checkStmts c (stmt :: rest)) := by
  intro due s hs h hclean
  obtain ⟨hrun, hvisit⟩ := clean_first hclean
  have hstart : Owing due (.continues, {s with escaped := []}) := h.entry (.same rfl rfl rfl) fun _ _ => rfl
  have hfirst : Owing due (checkStmt c stmt s) :=
    (@hstmt due {s with escaped := []} (hs.of_same rfl rfl) hstart hvisit).mono (fun _ hx => hx) rfl
      (fun _ hx => hx) fun _ hr => hr
  cases hreach : (checkStmt c stmt s).1 with
  | continues =>
    rw [checkStmts_of_continues hrun hreach] at hclean ⊢
    exact hrest (ready_checkStmt hs stmt) hfirst.resume hclean
  | diverges =>
    rw [checkStmts_of_diverges hrun hreach, ← hreach]
    exact hfirst

/-- What a branch leaves live is due where the next condition is evaluated. -/
theorem ledger_branch (cond : Expr Span) (hbody : KeepsLedger (checkBlock c body)) (hs : Ready s)
    (h : Owing due (.continues, s)) (hclean : (checkBranch c ⟨pos, cond, body⟩ s).2.found = []) :
    Ledger (Spread due [(checkBranch c ⟨pos, cond, body⟩ s).1]) (checkBranch c ⟨pos, cond, body⟩ s).2 := by
  have hready := (kept_evalClosed c hs cond).ready hs
  have hrun : (checkBlock c body (evalClosed c cond s)).2.found = [] := hclean
  have hentry := h.entries ((books_evalClosed c cond).entries ((grown_checkBlock c body _).eq_nil hrun))
  exact ledger_outcome (hbody hready hentry hrun) pos (kept_checkBlock c body hready).skeleton_eq

theorem ledger_arm (arm : Arm Span) (hbody : KeepsLedger (checkBlock c arm.body)) (hs : Ready s)
    (h : Owing due (.continues, s)) (hclean : (checkArm c arm s).2.found = []) :
    Ledger (Spread due [(checkArm c arm s).1]) (checkArm c arm s).2 := by
  have hleave : (leaveScope c (checkBlock c arm.body (unpack c arm.parts (pushScope s))).1 arm.pos
    (checkBlock c arm.body (unpack c arm.parts (pushScope s))).2).found = [] := hclean
  have hblock := (grown_leaveScope ..).eq_nil hleave
  have hparts := (h.entries (entry_pushScope s).entries).entries
    ((books_unpack c arm.parts).entries ((grown_checkBlock c arm.body _).eq_nil hblock))
  have hrun := hbody (ready_unpack hs arm.parts) hparts hblock
  exact ledger_outcome (hrun.leaveScope arm.pos hleave) arm.pos (kept_checkArm hs arm).skeleton_eq

/-- The first arm begins with what is live, and the others with what the first one leaves due. -/
theorem owing_select (scrutinee : Expr Span) {arm : Arm Span} {arms : List (Arm Span)}
    (hbody : KeepsLedger (checkBlock c arm.body))
    (hrest : ∀ ⦃due s⦄, Ready s → Ledger due s → (checkArms c arms s).2.found = [] →
      Ledger (Spread due (checkArms c arms s).1) (checkArms c arms s).2) :
    KeepsLedger (visit c (.select pos scrutinee (arm :: arms))) := by
  intro due s hs h hclean
  have hready := (kept_evalClosed c hs scrutinee).ready hs
  have hall := (grown_join ..).eq_nil hclean
  refine owing_join (branched_checkArms c (arm :: arms) hready) ?_ hclean
  rw [checkArms_cons] at hall ⊢
  have hfirst := (grown_checkArms c arms _).eq_nil hall
  have hentry := h.entries ((books_evalClosed c scrutinee).entries ((grown_checkArm arm _).eq_nil hfirst))
  have hone := ledger_arm arm hbody hready hentry hfirst
  exact (hrest (ready_checkArm hready arm) hone hall).weaken fun _ => Spread.append

end Blocks

variable (c)

mutual

/-- After a statement in which nothing is found, the log owes what is live or due elsewhere. -/
theorem owing_visit : ∀ {stmt : Stmt Span}, stmt.armed = true → KeepsLedger (visit c stmt)
  | .bind pos name ty value, _ => owing_bind pos value name ty
  | .unpack _ parts value, _ => fun _ _ _ h hclean =>
    h.entries (((books_evalClosed c value).seq (books_unpack c parts)).entries hclean)
  | .assign pos target value, _ => owing_assign pos value target
  | .discard pos value, _ => owing_discard pos value
  | .ret _ _, _ => fun _ _ _ h hclean => owing_ret h hclean
  | .choose pos branches none, harmed => fun _ _ hs h hclean => by
    rw [visit_choose] at hclean ⊢
    have hbranches := owing_checkBranches harmed hs h ((grown_join ..).eq_nil hclean)
    exact owing_join (branched_checkChoice hs pos branches none) (ledger_skip hbranches) hclean
  | .choose pos branches (some block), harmed => fun _ s hs h hclean => by
    obtain ⟨hbranches, hblock⟩ := Bool.and_eq_true_iff.mp harmed
    rw [visit_choose] at hclean ⊢
    have hlast : (checkBlock c block (checkBranches c branches s).2).2.found = [] :=
      (grown_join c _ (checkChoice c pos branches (some block) s).2).eq_nil hclean
    have hleft := owing_checkBranches hbranches hs h ((grown_checkBlock ..).eq_nil hlast)
    exact owing_join (branched_checkChoice hs pos branches (some block))
      (ledger_otherwise (owing_checkBlock hblock) hs hleft hlast) hclean
  | .select _ _ [], harmed => nomatch harmed
  | .select _ scrutinee (⟨_, _, _, _⟩ :: _), harmed =>
    have harmed := Bool.and_eq_true_iff.mp harmed
    owing_select scrutinee (owing_checkBlock harmed.1) (ledger_checkArms harmed.2)
  | .loop _ cond _, harmed => owing_loop cond (owing_checkBlock harmed)
  | .count _ var first last _, harmed => owing_count var first last (owing_checkBlock harmed)
  | .borrow _ kind source name region _, harmed => owing_borrow kind source name region (owing_checkBlock harmed)
  | .block _, harmed => owing_checkBlock harmed

theorem owing_checkBlock : ∀ {block : Block Span}, block.armed = true → KeepsLedger (checkBlock c block)
  | ⟨_, _⟩, harmed => owing_block (owing_checkStmts harmed)

theorem owing_checkStmts : ∀ {stmts : List (Stmt Span)}, Stmt.allArmed stmts = true → KeepsLedger (checkStmts c stmts)
  | [], _ => fun _ _ _ h _ => h
  | _ :: _, harmed =>
    have harmed := Bool.and_eq_true_iff.mp harmed
    owing_cons (owing_visit harmed.1) (owing_checkStmts harmed.2)

theorem owing_checkBranches : ∀ {branches : List (Branch Span)}, Branch.allArmed branches = true →
    ∀ ⦃due s⦄, Ready s → Owing due (.continues, s) → (checkBranches c branches s).2.found = [] →
      Owing (Spread due (checkBranches c branches s).1) (.continues, (checkBranches c branches s).2)
  | [], _, _, _, _, h, _ => h.weaken fun _ hx => hx.imp_left .inl
  | ⟨pos, cond, body⟩ :: rest, harmed, due, s, hs, h, hclean => by
    obtain ⟨hbody, hrest⟩ := Bool.and_eq_true_iff.mp harmed
    have hone := ledger_branch cond (owing_checkBlock hbody) hs h
      ((grown_checkBranches c rest (checkBranch c ⟨pos, cond, body⟩ s).2).eq_nil hclean)
    have hmore := owing_checkBranches hrest (ready_checkBranch hs ⟨pos, cond, body⟩) hone.owing hclean
    exact hmore.weaken fun _ hx => hx.imp_left Spread.append

/-- Arms after the first. What the log owes where they begin is due already, whatever is live in
the scopes that they begin with. -/
theorem ledger_checkArms : ∀ {arms : List (Arm Span)}, Arm.allArmed arms = true →
    ∀ ⦃due s⦄, Ready s → Ledger due s → (checkArms c arms s).2.found = [] →
      Ledger (Spread due (checkArms c arms s).1) (checkArms c arms s).2
  | [], _, _, _, _, h, _ => h.weaken fun _ => .inl
  | ⟨pos, variant, parts, body⟩ :: rest, harmed, due, s, hs, h, hclean => by
    obtain ⟨hbody, hrest⟩ := Bool.and_eq_true_iff.mp harmed
    rw [checkArms_cons] at hclean ⊢
    have hone := ledger_arm ⟨pos, variant, parts, body⟩ (owing_checkBlock hbody) hs h.owing
      ((grown_checkArms c rest _).eq_nil hclean)
    exact (ledger_checkArms hrest (ready_checkArm hs _) hone hclean).weaken fun _ => Spread.append

end

end Check

end Linearity
