import Linearity.Proofs.Walk

/-! A walk that finds nothing follows every path.

The walk over a body goes through all branches and through every loop once. If it finds
nothing, the branches agree on every binding where they are joined, and loops change
none, so the run of any path stays with it: the run finds nothing either, and wherever
control goes on the two look the same to every binding (`follows`). The rounds of a loop
are an induction in which the state at the head of the loop stays fixed. -/
namespace Linearity.Check
variable {c : Context} {s t p q : State}

/-- The states look the same to every binding. -/
def Alike (s p : State) : Prop := ∀ id, s.view id = p.view id

namespace Alike

theorem symm (h : Alike s p) : Alike p s := fun id => (h id).symm

theorem trans (h : Alike s p) (h' : Alike p q) : Alike s q := fun id => (h id).trans (h' id)

theorem of_same (hscopes : t.scopes = s.scopes) (hregions : t.regions = s.regions) : Alike t s :=
  fun _ => view_of_same hscopes hregions

theorem with_scopes (h : t.regions = s.regions) : Alike {t with scopes := s.scopes} s := of_same rfl h

theorem step {F : State → State} (hF : Faithful F) (h : Alike s p) : Alike (F s) (F p) :=
  fun id => hF.view (h id)

/-- What finds nothing in a state finds nothing in one that looks the same. -/
theorem clean {F : State → State} (hF : Faithful F) (h : Alike s p) (hs : Honest s)
    (hclean : (F s).found = []) (hp : p.found = []) : (F p).found = [] := by
  refine List.eq_nil_iff_forall_not_mem.mpr fun v hv => ?_
  rcases hF.found hv with hv | ⟨_, id, hall⟩
  · rw [hp] at hv
    cases hv
  · exact hall s hs (h id).symm hclean

end Alike

/-- The walk over the code finds nothing; of a loop's rounds, which start behind its barrier,
one is enough. -/
def Code.Clean (c : Context) : Code → State → Prop
  | .stmt one, s => (visit c one s).2.found = []
  | .stmts many, s => (checkStmts c many s).2.found = []
  | .block body, s => (checkBlock c body s).2.found = []
  | .branches pos ahead otherwise, s => (checkChoice c pos ahead otherwise s).2.found = []
  | .arms ahead, s => (checkArms c ahead s).2.found = []
  | .rounds cond body, s => Walled s ∧ (checkBlock c body (evalGuard c cond s)).2.found = []

/-- The walk from `s` goes on after the code, and one of its ends looks like `p`. -/
def Code.Ends (c : Context) : Code → State → State → Prop
  | .stmt one, s, p => (visit c one s).1 = .continues ∧ Alike (visit c one s).2 p
  | .stmts many, s, p => (checkStmts c many s).1 = .continues ∧ Alike (checkStmts c many s).2 p
  | .block body, s, p => (checkBlock c body s).1 = .continues ∧ Alike (checkBlock c body s).2 p
  | .branches pos ahead otherwise, s, p => ∃ e ∈ reached (checkChoice c pos ahead otherwise s).1,
    Alike {(checkChoice c pos ahead otherwise s).2 with scopes := e.2} p
  | .arms ahead, s, p => ∃ e ∈ reached (checkArms c ahead s).1, Alike {(checkArms c ahead s).2 with scopes := e.2} p
  | .rounds _ _, s, p => Alike s p

/-- Wherever the walk finds nothing, the run of the path finds nothing and ends with it. -/
def Follows (c : Context) {code : Code} {r : Reach} (path : Path code r) : Prop :=
  ∀ {s p : State}, Ready s → Honest s → Alike s p → code.Clean c s → p.found = [] →
    (path.run c true p).found = [] ∧ (r = .continues → code.Ends c s (path.run c true p))

/-! ### Statements and blocks -/

/-- A statement without choices is its own path. -/
theorem follows_simple {stmt : Stmt Span} {r : Reach} {path : Path (.stmt stmt) r}
    (h : ∀ s, visit c stmt s = (r, path.run c true s)) : Follows c path := by
  intro s p _ hhonest halike hclean hp
  have hfaithful := faithful_run c true path
  have hvisit := h s
  rw [Code.Clean, hvisit] at hclean
  refine ⟨halike.clean hfaithful hhonest hclean hp, fun hr => ?_⟩
  rw [Code.Ends, hvisit]
  exact ⟨hr, halike.step hfaithful⟩

/-- Leaving a scope, where the walk leaves it too. -/
theorem follows_leaveScope {r reach : Reach} {pos : Span} (hq : q.found = [])
    (hends : r = .continues → reach = .continues ∧ Alike t q) (hhonest : Honest t)
    (hclean : (leaveScope c reach pos t).found = []) :
    (onward r (leaveScope c .continues pos) q).found = [] ∧
      (r = .continues → reach = .continues ∧
        Alike (leaveScope c reach pos t) (onward r (leaveScope c .continues pos) q)) := by
  cases r with
  | diverges => exact ⟨hq, fun h => nomatch h⟩
  | continues =>
    obtain ⟨rfl, halike⟩ := hends rfl
    have hleave := faithful_leaveScope c pos
    exact ⟨halike.clean hleave hhonest hclean hq, fun _ => ⟨rfl, halike.step hleave⟩⟩

theorem follows_block {pos : Span} {stmts : List (Stmt Span)} {r : Reach} {path : Path (.stmts stmts) r}
    (ih : Follows c path) : Follows c (.block pos path) := by
  intro s p hs hhonest halike hclean hp
  have hgrown := grown_checkStmts c stmts (pushScope s)
  have hstmts := (grown_leaveScope c (checkStmts c stmts (pushScope s)).1 pos _).eq_nil hclean
  have hinner := ih hs.pushScope hhonest (halike.step faithful_pushScope) hstmts hp
  exact follows_leaveScope hinner.1 hinner.2 (hgrown.honest hhonest) hclean

theorem follows_next {stmt : Stmt Span} {rest : List (Stmt Span)} {r : Reach}
    {first : Path (.stmt stmt) .continues} {path : Path (.stmts rest) r} (ihfirst : Follows c first)
    (ih : Follows c path) : Follows c (.next first path) := by
  intro s p hs hhonest halike hclean hp
  obtain ⟨hrun, hfirst⟩ := clean_first hclean
  obtain ⟨hfound, hends⟩ := ihfirst (s := {s with escaped := []}) (p := {p with escaped := []})
    (hs.of_same rfl rfl) (fun he => absurd rfl he) halike hfirst hp
  obtain ⟨hreach, hlike⟩ := hends rfl
  have hstmts : checkStmts c (stmt :: rest) s = checkStmts c rest (checkStmt c stmt s).2 :=
    checkStmts_of_continues hrun hreach
  obtain ⟨new, hkept⟩ := kept_apart hs fun u hu => kept_visit c stmt hu
  have hgrown := grown_apart (grown_visit c stmt) s
  rw [Code.Clean, hstmts] at hclean
  rw [Code.Ends, hstmts]
  exact ih (hkept.ready hs) (hgrown.honest hhonest) hlike hclean hfound

theorem follows_stop {stmt : Stmt Span} {rest : List (Stmt Span)} {first : Path (.stmt stmt) .diverges}
    (ih : Follows c first) : Follows c (.stop rest first) := by
  intro s p hs hhonest halike hclean hp
  refine ⟨?_, fun h => nomatch h⟩
  exact (ih (s := {s with escaped := []}) (p := {p with escaped := []}) (hs.of_same rfl rfl)
    (fun he => absurd rfl he) halike (clean_first hclean).2 hp).1

/-! ### Branches -/

/-- Joining branches that look alike where they are joined. -/
theorem follows_join {outcomes : List Outcome} (h : Branched s outcomes t)
    (hclean : (join c outcomes t).2.found = [])
    (hends : ∃ e ∈ reached outcomes, Alike {t with scopes := e.2} p) :
    (join c outcomes t).1 = .continues ∧ Alike (join c outcomes t).2 p := by
  obtain ⟨e, he, halike⟩ := hends
  have hr : reached outcomes ≠ [] := List.ne_nil_of_mem he
  refine ⟨by rw [join_of_some c t hr], fun id => ?_⟩
  refine Eq.trans (view_join h he fun e' he' hsome => ?_) (halike id)
  -- Consumed in one branch and not in another, the binding would be reported.
  cases hkept : (consumedAt id e.2).isSome with
  | true => rfl
  | false =>
    obtain ⟨pos, hpos⟩ := Option.isSome_iff_exists.mp hsome
    obtain ⟨b', hb', hstate⟩ := consumedAt_eq_some.mp hpos
    obtain ⟨b, hb, hblank⟩ := Scopes.get?_of_skeleton
      (h.kept.skeleton_eq.trans (h.exits he').skeleton_eq.symm) hb'
    have hlin := ((h.exits he').coherent.accounted hb').isLinear_of_consumed hstate
    exact absurd ⟨⟨e', he', hsome⟩, ⟨e, he, hkept⟩⟩
      (agree_of_join c hclean hb ((Binding.isLinear_of_blank hblank).trans hlin))

theorem follows_choose {pos : Span} {branches : List (Branch Span)} {otherwise : Option (Block Span)} {r : Reach}
    {path : Path (.branches pos branches otherwise) r} (ih : Follows c path) : Follows c (.choose path) := by
  intro s p hs hhonest halike hclean hp
  rw [Code.Clean, visit_choose] at hclean
  obtain ⟨hfound, hends⟩ := ih hs hhonest halike ((grown_join c _ _).eq_nil hclean) hp
  refine ⟨hfound, fun hr => ?_⟩
  rw [Code.Ends, visit_choose]
  exact follows_join (branched_checkChoice hs ..) hclean (hends hr)

theorem follows_select {pos : Span} {scrutinee : Expr Span} {arms : List (Arm Span)} {r : Reach}
    {path : Path (.arms arms) r} (ih : Follows c path) : Follows c (.select pos scrutinee path) := by
  intro s p hs hhonest halike hclean hp
  have hvalue := faithful_evalClosed c scrutinee
  have hready := (kept_evalClosed c hs scrutinee).ready hs
  have harms : (checkArms c arms (evalClosed c scrutinee s)).2.found = [] := (grown_join c _ _).eq_nil hclean
  have hvalues := (grown_checkArms c arms _).eq_nil harms
  obtain ⟨hfound, hends⟩ := ih hready ((hvalue.grown s).honest hhonest) (halike.step hvalue) harms
    (halike.clean hvalue hhonest hvalues hp)
  exact ⟨hfound, fun hr => follows_join (branched_checkArms c arms hready) hclean (hends hr)⟩

section Branches
variable {at₀ : Span} {rest : List (Branch Span)} {otherwise : Option (Block Span)} {r : Reach}

/-- Of a choice in which nothing is found, nothing is found in the first branch and its condition. -/
theorem clean_branch {branch : Branch Span} (h : (checkChoice c at₀ (branch :: rest) otherwise s).2.found = []) :
    (evalClosed c branch.cond s).found = [] ∧
      (checkBlock c branch.body (evalClosed c branch.cond s)).2.found = [] := by
  rw [checkChoice_cons] at h
  have hbranch := (grown_checkChoice c at₀ rest otherwise _).eq_nil h
  exact ⟨(grown_checkBlock c branch.body _).eq_nil hbranch, hbranch⟩

theorem follows_taken {pos : Span} {cond : Expr Span} {body : Block Span} {path : Path (.block body) r}
    (ih : Follows c path) : Follows c (.taken pos cond rest at₀ otherwise path) := by
  intro s p hs hhonest halike hclean hp
  have hcond := faithful_evalClosed c cond
  have hentry := (kept_evalClosed c hs cond).ready hs
  obtain ⟨hguard, hbody⟩ := clean_branch hclean
  obtain ⟨hfound, hends⟩ := ih hentry ((hcond.grown s).honest hhonest) (halike.step hcond) hbody
    (halike.clean hcond hhonest hguard hp)
  refine ⟨hfound, fun hr => ?_⟩
  obtain ⟨hreach, hlike⟩ := hends hr
  have hregions := (branched_checkChoice (c := c) (ready_checkBranch (c := c) hs ⟨pos, cond, body⟩) at₀ rest
    otherwise).kept.regions
  rw [Code.Ends, checkChoice_cons]
  refine ⟨_, mem_reached_cons (reached_outcome hreach), Alike.trans ?_ hlike⟩
  exact Alike.with_scopes hregions

theorem follows_passed {branch : Branch Span} {path : Path (.branches at₀ rest otherwise) r}
    (ih : Follows c path) : Follows c (.passed branch path) := by
  intro s p hs hhonest halike hclean hp
  have hcond := faithful_evalClosed c branch.cond
  have hentry := (kept_evalClosed c hs branch.cond).ready hs
  have hsame : Alike (checkBranch c branch s).2 (evalClosed c branch.cond s) :=
    .of_same rfl (kept_checkBlock c branch.body hentry).regions
  obtain ⟨hguard, _⟩ := clean_branch hclean
  rw [Code.Clean, checkChoice_cons] at hclean
  obtain ⟨hfound, hends⟩ := ih (ready_checkBranch hs branch) ((grown_checkBranch branch s).honest hhonest)
    (hsame.trans (halike.step hcond)) hclean (halike.clean hcond hhonest hguard hp)
  refine ⟨hfound, fun hr => ?_⟩
  obtain ⟨e, he, hlike⟩ := hends hr
  rw [Code.Ends, checkChoice_cons]
  exact ⟨e, mem_reached_of_mem he, hlike⟩

theorem follows_otherwise {body : Block Span} {path : Path (.block body) r} (ih : Follows c path) :
    Follows c (.otherwise at₀ path) := by
  intro s p hs hhonest halike hclean hp
  obtain ⟨hfound, hends⟩ := ih hs hhonest halike hclean hp
  refine ⟨hfound, fun hr => ?_⟩
  obtain ⟨hreach, hlike⟩ := hends hr
  exact ⟨_, mem_reached_cons (reached_outcome hreach), hlike⟩

theorem follows_skipped : Follows c (.skipped at₀) := by
  intro s p _ _ halike _ hp
  exact ⟨hp, fun _ => ⟨_, mem_reached_cons rfl, halike⟩⟩

end Branches

section Arms
variable {rest : List (Arm Span)} {r : Reach}

theorem follows_arm {pos : Span} {variant : Ident Span} {parts : List (Unpacked Span)} {body : Block Span}
    {path : Path (.block body) r} (ih : Follows c path) : Follows c (.arm pos variant parts rest path) := by
  intro s p hs hhonest halike hclean hp
  have hpush := halike.step faithful_pushScope
  have hunpack := faithful_unpack c parts
  have hhonest' := (hunpack.grown (pushScope s)).honest hhonest
  have hleave := (grown_checkArms c rest (checkArm c ⟨pos, variant, parts, body⟩ s).2).eq_nil hclean
  have hbody := (grown_leaveScope c _ pos _).eq_nil hleave
  have hparts := (grown_checkBlock c body _).eq_nil hbody
  have hinner := ih (ready_unpack hs parts) hhonest' (hpush.step hunpack) hbody
    (hpush.clean hunpack hhonest hparts hp)
  obtain ⟨hfound, hends⟩ := follows_leaveScope hinner.1 hinner.2
    ((grown_checkBlock c body _).honest hhonest') hleave
  refine ⟨hfound, fun hr => ?_⟩
  obtain ⟨hreach, hlike⟩ := hends hr
  have hregions := (branched_checkArms c rest (ready_checkArm (c := c) hs ⟨pos, variant, parts, body⟩)).kept.regions
  refine ⟨_, mem_reached_cons (reached_outcome hreach), Alike.trans ?_ hlike⟩
  exact Alike.with_scopes hregions

theorem follows_passedArm {arm : Arm Span} {path : Path (.arms rest) r} (ih : Follows c path) :
    Follows c (.passedArm arm path) := by
  intro s p hs hhonest halike hclean hp
  have hsame : Alike (checkArm c arm s).2 s := .of_same rfl (kept_checkArm hs arm).regions
  rw [Code.Clean, checkArms_cons] at hclean
  obtain ⟨hfound, hends⟩ := ih (ready_checkArm hs arm) ((grown_checkArm arm s).honest hhonest)
    (hsame.trans halike) hclean hp
  refine ⟨hfound, fun hr => ?_⟩
  obtain ⟨e, he, hlike⟩ := hends hr
  rw [Code.Ends, checkArms_cons]
  exact ⟨e, mem_reached_of_mem he, hlike⟩

end Arms

/-! ### Loops -/

section Loops
variable {cond : Option (Expr Span)} {body : Block Span} {r : Reach}

theorem kept_evalGuard (hs : Ready s) : ∀ cond : Option (Expr Span), Kept [] s (evalGuard c cond s)
  | some e => kept_evalClosed c hs e
  | none => .refl hs

/-- Behind the barrier, neither the condition nor the body of a loop changes what is seen. -/
theorem alike_round (hs : Ready s) (hwalled : Walled s) (cond : Option (Expr Span)) (body : Block Span) :
    Alike (evalGuard c cond s) s ∧ Alike (checkBlock c body (evalGuard c cond s)).2 s := by
  have hguard := kept_evalGuard (c := c) hs cond
  have hbody := hguard.trans (kept_checkBlock c body (hguard.ready hs))
  exact ⟨.of_same (hguard.scopes_eq hs hwalled) hguard.regions,
    .of_same (hbody.scopes_eq hs hwalled) hbody.regions⟩

theorem follows_done : Follows c (.done cond body) := by
  intro s p hs hhonest halike hclean hp
  have hguard := (faithful_law c true).evalGuard cond
  have hsame := (alike_round (c := c) hs hclean.1 cond body).1
  exact ⟨halike.clean hguard hhonest ((grown_checkBlock c body _).eq_nil hclean.2) hp,
    fun _ => hsame.symm.trans (halike.step hguard)⟩

theorem follows_round {path : Path (.block body) r} (ih : Follows c path) (hs : Ready s) (hhonest : Honest s)
    (halike : Alike s p) (hclean : Code.Clean c (.rounds cond body) s) (hp : p.found = []) :
    (path.run c true (evalGuard c cond p)).found = [] ∧
      (r = .continues → Alike s (path.run c true (evalGuard c cond p))) := by
  have hguard := (faithful_law c true).evalGuard cond
  have hguarded := halike.clean hguard hhonest ((grown_checkBlock c body _).eq_nil hclean.2) hp
  obtain ⟨hfound, hends⟩ := ih ((kept_evalGuard hs cond).ready hs) ((hguard.grown s).honest hhonest)
    (halike.step hguard) hclean.2 hguarded
  exact ⟨hfound, fun hr => (alike_round hs hclean.1 cond body).2.symm.trans (hends hr).2⟩

theorem follows_again {round : Path (.block body) .continues} {path : Path (.rounds cond body) r}
    (ihround : Follows c round) (ih : Follows c path) : Follows c (.again round path) := by
  intro s p hs hhonest halike hclean hp
  obtain ⟨hfound, hends⟩ := follows_round ihround hs hhonest halike hclean hp
  exact ih hs hhonest (hends rfl) hclean hfound

theorem follows_left {round : Path (.block body) .diverges} (ih : Follows c round) :
    Follows c (.left cond round) := by
  intro s p hs hhonest halike hclean hp
  exact ⟨(follows_round ih hs hhonest halike hclean hp).1, fun h => nomatch h⟩

/-- Behind a barrier the run ends where it began. -/
theorem follows_fenced {F : State → State} (halike : Alike s p) (hfound : (F (enterLoop p)).found = [])
    (hends : r = .continues → Alike (enterLoop s) (F (enterLoop p))) :
    (fenced true r F p).found = [] ∧ (r = .continues → Alike s (fenced true r F p)) := by
  cases r with
  | diverges => exact ⟨hfound, fun h => nomatch h⟩
  | continues =>
    refine ⟨hfound, fun _ id => ?_⟩
    have hback : (exitLoop s (enterLoop s)).view id = s.view id := view_of_same (exitLoop_enterLoop s) rfl
    exact hback.symm.trans (view_exitLoop (halike id) (hends rfl id))

theorem follows_loop {pos : Span} {cond : Expr Span} {path : Path (.rounds (some cond) body) r}
    (ih : Follows c path) : Follows c (.loop pos path) := by
  intro s p hs hhonest halike hclean hp
  have hwalled := walled_enterLoop s
  have hentry : Alike (enterLoop s) (enterLoop p) := fun id => view_enterLoop (halike id)
  obtain ⟨hfound, hends⟩ := ih hs.enterLoop hhonest hentry ⟨hwalled, hclean⟩ hp
  obtain ⟨hfound', hends'⟩ := follows_fenced halike hfound hends
  refine ⟨hfound', fun hr => ⟨rfl, Alike.trans (.of_same ?_ ?_) (hends' hr)⟩⟩
  · show (evalClosed c cond (enterLoop s)).scopes.exitLoop s.scopes.barrier = s.scopes
    rw [(kept_evalClosed c hs.enterLoop cond).scopes_eq hs.enterLoop hwalled]
    rfl
  · have hguard := kept_evalClosed c hs.enterLoop cond
    exact (kept_checkBlock c body (hguard.ready hs.enterLoop)).regions.trans hguard.regions

/-- The scope of a counter ends without a report. -/
theorem leaveScope_counter (var : Ident Span) (pos : Span) (s : State) :
    (leaveScope c .continues pos (define c var.name .int var.pos (pushScope s))).found = s.found := by
  have hfree : Binding.isLive ⟨var.name, .int, c.table.classify c.kinds .int, var.pos, s.regions.length,
      .unconsumed⟩ = false := by
    rw [Binding.isLive, Binding.isLinear, isLinear_int]
    rfl
  have hexit : ((define c var.name .int var.pos (pushScope s)).scopes.pop.1).exitViolations pos = [] :=
    congrArg (List.map _) (List.filter_cons_of_neg (fun h => absurd (h.symm.trans hfree) (by decide)))
  unfold leaveScope
  split
  · rw [hexit]
    rfl
  · rfl

/-- The counter of a loop, in a scope of its own around all rounds. -/
theorem follows_counter {var : Ident Span} {pos : Span} {path : Path (.rounds none body) r} (ih : Follows c path)
    (hs : Ready t) (hwalled : Walled t) (hhonest : Honest t) (halike : Alike t q)
    (hclean : (checkBlock c body (define c var.name .int var.pos (pushScope t))).2.found = []) (hq : q.found = []) :
    let ran := inScope c r pos (fun s => path.run c true (define c var.name .int var.pos s)) q
    ran.found = [] ∧ (r = .continues → Alike t ran) := by
  obtain ⟨new, hvar⟩ := kept_define c hs.pushScope var.name .int var.pos
  have hentry : Alike (define c var.name .int var.pos (pushScope t)) (define c var.name .int var.pos (pushScope q)) :=
    fun id => view_define c (view_pushScope (halike id)) ..
  obtain ⟨hfound, hends⟩ := ih (hvar.ready hs.pushScope) hhonest hentry ⟨hwalled.counter var, hclean⟩ hq
  have hleave := (leaveScope_counter (c := c) var pos t).trans ((grown_counter c var body t).eq_nil hclean)
  obtain ⟨hfound', hends'⟩ := follows_leaveScope hfound (fun hr => ⟨rfl, hends hr⟩) hhonest hleave
  have hback : Alike (leaveScope c .continues pos (define c var.name .int var.pos (pushScope t))) t :=
    .of_same (leaveScope_scopes ..) (leaveScope_regions ..)
  exact ⟨hfound', fun hr => hback.symm.trans (hends' hr).2⟩

theorem follows_count {pos : Span} {var : Ident Span} {first last : Expr Span} {path : Path (.rounds none body) r}
    (ih : Follows c path) : Follows c (.count pos var first last path) := by
  intro s p hs hhonest halike hclean hp
  have hlower := faithful_evalClosed c first
  have hupper := faithful_evalClosed c last
  have hfirst := kept_evalClosed c hs.enterLoop first
  have hlast := hfirst.trans (kept_evalClosed c (hfirst.ready hs.enterLoop) last)
  have hready := hlast.ready hs.enterLoop
  have hscopes := hlast.scopes_eq hs.enterLoop (walled_enterLoop s)
  have hbounds := (grown_counter c var body _).eq_nil hclean
  have hhonest' := (hlower.grown (enterLoop s)).honest hhonest
  -- Both bounds find nothing on the path, as they do in the walk.
  have hstart : Alike (enterLoop s) (enterLoop p) := fun id => view_enterLoop (halike id)
  have hp' := (hstart.step hlower).clean hupper hhonest' hbounds
    (hstart.clean hlower hhonest ((hupper.grown _).eq_nil hbounds) hp)
  obtain ⟨hfound, hends⟩ := follows_counter (c := c) (t := evalClosed c last (evalClosed c first (enterLoop s))) ih
    hready ((walled_enterLoop s).of_same hscopes) ((hupper.grown _).honest hhonest')
    ((hstart.step hlower).step hupper) hclean hp'
  have hback : Alike (enterLoop s) (evalClosed c last (evalClosed c first (enterLoop s))) :=
    Alike.symm (.of_same hscopes hlast.regions)
  obtain ⟨hfound', hends'⟩ := follows_fenced (F := fun q => inScope c r pos
    (fun q => path.run c true (define c var.name .int var.pos q)) (evalClosed c last (evalClosed c first q)))
    halike hfound fun hr => hback.trans (hends hr)
  refine ⟨hfound', fun hr => ⟨rfl, Alike.trans (.of_same ?_ ?_) (hends' hr)⟩⟩
  · show (evalClosed c last (evalClosed c first (enterLoop s))).scopes.exitLoop s.scopes.barrier = s.scopes
    rw [hscopes]
    rfl
  · obtain ⟨new, hvar⟩ := kept_define c hready.pushScope var.name .int var.pos
    exact ((kept_checkBlock c body (hvar.ready hready.pushScope)).regions.trans hvar.regions).trans hlast.regions

end Loops

/-! ### Borrow blocks -/

theorem follows_borrow {pos : Span} {kind : RefKind} {source name region : Ident Span} {body : Block Span}
    {r : Reach} {path : Path (.block body) r} (ih : Follows c path) :
    Follows c (.borrow pos kind source name region path) := by
  intro s p hs hhonest halike hclean hp
  have henter := faithful_enterBorrow c kind source name region
  have hleave : (leaveScope c (checkBlock c body (enterBorrow c kind source name region s).2).1 pos
      (checkBlock c body (enterBorrow c kind source name region s).2).2).found = [] :=
    (grown_leaveBorrow (enterBorrow c kind source name region s).1 pos _).eq_nil hclean
  have hbody := (grown_leaveScope c _ pos _).eq_nil hleave
  have hhonest' := (henter.grown s).honest hhonest
  have hinner := ih (ready_enterBorrow hs kind source name region) hhonest' (halike.step henter) hbody
    (halike.clean henter hhonest ((grown_checkBlock c body _).eq_nil hbody) hp)
  obtain ⟨hfound, hends⟩ := follows_leaveScope hinner.1 hinner.2
    ((grown_checkBlock c body _).honest hhonest') hleave
  cases r with
  | diverges => exact ⟨hfound, fun h => nomatch h⟩
  | continues =>
    refine ⟨(leaveBorrow_found ..).trans hfound, fun _ => ⟨(hends rfl).1, fun id => ?_⟩⟩
    show (leaveBorrow (enterBorrow c kind source name region s).1 pos _).view id =
      (leaveBorrow (enterBorrow c kind source name region p).1 pos _).view id
    rw [enterBorrow_flag_of_view c kind source name region (halike id)]
    exact view_leaveBorrow ((hends rfl).2 id) ..

/-! ### All paths -/

theorem follows {code : Code} {r : Reach} (path : Path code r) : Follows c path := by
  induction path with
  | bind => exact follows_simple fun _ => rfl
  | unpack => exact follows_simple fun _ => rfl
  | assign => exact follows_simple fun _ => rfl
  | discard => exact follows_simple fun _ => rfl
  | ret => exact follows_simple fun _ => rfl
  | choose _ ih => exact follows_choose ih
  | select _ _ _ ih => exact follows_select ih
  | loop _ _ ih => exact follows_loop ih
  | count _ _ _ _ _ ih => exact follows_count ih
  | borrow _ _ _ _ _ _ ih => exact follows_borrow ih
  | nested _ ih => exact ih
  | block _ _ ih => exact follows_block ih
  | nil => exact fun _ _ halike _ hp => ⟨hp, fun _ => ⟨rfl, halike⟩⟩
  | next _ _ ihfirst ih => exact follows_next ihfirst ih
  | stop _ _ ih => exact follows_stop ih
  | taken _ _ _ _ _ _ ih => exact follows_taken ih
  | passed _ _ ih => exact follows_passed ih
  | otherwise _ _ ih => exact follows_otherwise ih
  | skipped => exact follows_skipped
  | arm _ _ _ _ _ ih => exact follows_arm ih
  | passedArm _ _ ih => exact follows_passedArm ih
  | done => exact follows_done
  | again _ _ ihround ih => exact follows_again ihround ih
  | left _ _ ih => exact follows_left ih

end Linearity.Check
