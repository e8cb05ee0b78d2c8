import Mathlib
import Linearity.Proofs.Scopes

/-! The life of a binding.

`Scopes.run` carries out any sequence of operations on scopes, sensible or not: ids may be
stale, barriers may be put back in any order, scopes may be closed when none is open. A
binding lives from its definition until its scope is closed. Its `history` is what happens
to it in that time, the uses that succeed and the thaws; another binding may have the same
id later, and has a history of its own.

A history is a path through the states of the binding (`history_follows`): a step lemma
says what one operation does to the binding of an id, whatever binding the operation is
about. What may follow what in a history is read off the path (`resource_automaton`). -/
namespace Linearity

/-- A use of a binding by its name. -/
inductive Use where
  | consume
  | read (reads : LeafReads)
  | freeze (kind : RefKind)
  | overwrite
deriving DecidableEq

inductive Op where
  | define (name : String) (ty : Ty) (univ : Universe) (pos : Span) (depth : Nat)
  | push
  | pop
  | use (u : Use) (name : String) (pos : Span)
  | thaw (id : BindingId)
  | enterLoop
  | exitLoop (barrier : Option Nat)

/-- A binding that holds its first value. -/
def Binding.fresh (name : String) (ty : Ty) (univ : Universe) (pos : Span) (depth : Nat) : Binding where
  name := name
  ty := ty
  univ := univ
  definedAt := pos
  regionDepth := depth

/-- What a use does to the binding. -/
def Use.move (pos : Span) : Use → Binding → Except Violation BindingState
  | .consume, b => b.consume pos
  | .read reads, b => b.read reads pos
  | .freeze kind, b => b.freeze kind pos
  | .overwrite, b => b.overwrite pos

namespace Scopes

def use (s : Scopes) (u : Use) (name : String) (pos : Span) :
    Except Violation (Option BindingId) × Scopes :=
  match u with
  | .consume => s.consume name pos
  | .read reads => s.read name reads pos
  | .freeze kind => s.freeze name kind pos
  | .overwrite => s.overwrite name pos

theorem use_eq (s : Scopes) (u : Use) (name : String) (pos : Span) :
    s.use u name pos = s.attempt name pos (u.move pos) := by
  cases u <;> rfl

theorem use_spec (s : Scopes) (u : Use) (name : String) (pos : Span) :
    Attempted s name pos (u.move pos) (s.use u name pos) := by
  rw [use_eq]
  exact attempt_spec s name pos _

def step (s : Scopes) : Op → Scopes
  | .define name ty univ pos depth => (s.define (.fresh name ty univ pos depth)).2
  | .push => s.push
  | .pop => s.pop.2
  | .use u name pos => (s.use u name pos).2
  | .thaw id => s.thaw id
  | .enterLoop => s.enterLoop.2
  | .exitLoop barrier => s.exitLoop barrier

def run (s : Scopes) : List Op → Scopes
  | [] => s
  | op :: ops => run (s.step op) ops

end Scopes

/-! ### Histories -/

/-- What can happen to a binding. -/
inductive Touch where
  | used (u : Use)
  | thawed
deriving DecidableEq

namespace Scopes

/-- What an operation does to the binding of an id. -/
def touch (s : Scopes) (id : BindingId) : Op → Option Touch
  | .use u name pos =>
    match (s.use u name pos).1 with
    | .ok (some used) => if used = id then some (.used u) else none
    | .ok none | .error _ => none
  | .thaw thawed => if thawed = id then some .thawed else none
  | .define .. | .push | .pop | .enterLoop | .exitLoop _ => none

/-- What happens to the binding of an id until its scope is closed. -/
def history (id : BindingId) : Scopes → List Op → List Touch
  | _, [] => []
  | s, op :: ops =>
    if id.frame < (s.step op).frames.length then (s.touch id op).toList ++ history id (s.step op) ops
    else []

end Scopes

/-- How the state of a binding changes with what happens to it. -/
inductive Moves : BindingState → Touch → BindingState → Prop where
  | consume (pos : Span) : Moves .unconsumed (.used .consume) (.consumed pos)
  | overwrite (pos : Span) : Moves (.consumed pos) (.used .overwrite) .unconsumed
  | freeze (kind : RefKind) (pos : Span) : Moves .unconsumed (.used (.freeze kind)) (.frozen kind pos)
  | thaw (kind : RefKind) (pos : Span) : Moves (.frozen kind pos) .thawed .unconsumed
  | read (reads : LeafReads) : Moves .unconsumed (.used (.read reads)) .unconsumed
  | readFrozen (pos : Span) : Moves (.frozen .read pos) (.used (.read .any)) (.frozen .read pos)
  -- A thaw that comes when nothing is frozen does nothing.
  | spare : Moves .unconsumed .thawed .unconsumed
  | late (pos : Span) : Moves (.consumed pos) .thawed (.consumed pos)

inductive Follows : BindingState → List Touch → BindingState → Prop where
  | nil (state : BindingState) : Follows state [] state
  | cons {state next last : BindingState} {touch : Touch} {rest : List Touch} :
    Moves state touch next → Follows next rest last → Follows state (touch :: rest) last

theorem Follows.append {state next last : BindingState} {before after : List Touch} (h : Follows state before next)
    (h' : Follows next after last) : Follows state (before ++ after) last := by
  induction h with
  | nil => exact h'
  | cons hmove _ ih => exact .cons hmove (ih h')

theorem Follows.split {state last : BindingState} {before after : List Touch}
    (h : Follows state (before ++ after) last) : ∃ next, Follows state before next ∧ Follows next after last := by
  induction before generalizing state with
  | nil => exact ⟨state, .nil state, h⟩
  | cons touch rest ih =>
    cases h with
    | cons hmove hrest =>
      obtain ⟨next, hbefore, hafter⟩ := ih hrest
      exact ⟨next, .cons hmove hbefore, hafter⟩

theorem Use.moves {u : Use} {pos : Span} {b : Binding} {state : BindingState} (h : u.move pos b = .ok state) :
    Moves b.state (.used u) state := by
  cases u with
  | consume =>
    obtain ⟨hold, rfl⟩ := Binding.consume_ok h
    rw [hold]
    exact .consume pos
  | read reads =>
    simp only [move, Binding.read] at h
    split at h
    · rename_i hold
      cases h
      rw [hold]
      exact .read reads
    · rename_i kind prior hold
      split at h
      · rename_i hmay
        obtain ⟨rfl, rfl⟩ := hmay
        cases h
        rw [hold]
        exact .readFrozen prior
      · cases h
    · cases h
  | freeze kind =>
    obtain ⟨hold, rfl⟩ := Binding.freeze_ok h
    rw [hold]
    exact .freeze kind pos
  | overwrite =>
    obtain ⟨⟨first, hold⟩, rfl⟩ := Binding.overwrite_ok h
    rw [hold]
    exact .overwrite first

theorem Binding.thawed_moves (b : Binding) : Moves b.state .thawed b.thawed.state := by
  unfold thawed
  cases hstate : b.state with
  | unconsumed => simpa [hstate] using Moves.spare
  | consumed pos => simpa [hstate] using Moves.late pos
  | frozen kind pos => exact .thaw kind pos

namespace Scopes
variable {s : Scopes} {id : BindingId} {b : Binding}

theorem length_frames_pop (s : Scopes) : s.pop.2.frames.length = s.frames.length - 1 := by
  rw [← length_skeleton, skeleton_pop, List.length_tail, length_skeleton]

/-- One operation, seen from one binding whose scope it leaves open. -/
theorem step_follows (op : Op) (hb : s.get? id = some b) (hopen : id.frame < (s.step op).frames.length) :
    ∃ b', (s.step op).get? id = some b' ∧ Follows b.state (s.touch id op).toList b'.state := by
  cases op with
  | define name ty univ pos depth =>
    refine ⟨b, ?_, .nil _⟩
    have hid : id ≠ (s.define (.fresh name ty univ pos depth)).1 := by
      intro heq
      rw [heq, get?_define_fresh] at hb
      cases hb
    rw [step, get?_define, if_neg hid, hb]
  | push => exact ⟨b, (get?_push s id).trans hb, .nil _⟩
  | pop =>
    refine ⟨b, ?_, .nil _⟩
    rw [step, length_frames_pop] at hopen
    rw [step, get?_pop, if_pos (by omega), hb]
  | use u name pos =>
    have hspec := use_spec s u name pos
    simp only [step, touch]
    generalize s.use u name pos = result at hspec ⊢
    cases hspec with
    | untracked | barred | wrong => exact ⟨b, hb, .nil _⟩
    | @made used c state hlookup _ _ hmove =>
      by_cases hid : used = id
      · subst hid
        rw [(get?_of_lookup hlookup).1] at hb
        cases hb
        refine ⟨{b with state}, ?_, ?_⟩
        · rw [get?_setState, if_pos rfl, (get?_of_lookup hlookup).1]
          rfl
        · simpa using Follows.cons (Use.moves hmove) (.nil state)
      · refine ⟨b, ?_, ?_⟩
        · rw [get?_setState, if_neg hid, hb]
        · simpa [hid] using Follows.nil b.state
  | thaw thawed =>
    simp only [step, touch, get?_thaw]
    by_cases hid : thawed = id
    · refine ⟨b.thawed, by simp [hid, hb], ?_⟩
      simpa [hid] using Follows.cons b.thawed_moves (.nil _)
    · exact ⟨b, by simp [hid, hb], by simpa [hid] using Follows.nil b.state⟩
  | enterLoop => exact ⟨b, hb, .nil _⟩
  | exitLoop barrier => exact ⟨b, hb, .nil _⟩

/-- **A history is a path through the states of the binding.** -/
theorem history_follows (ops : List Op) (hb : s.get? id = some b) :
    ∃ last, Follows b.state (history id s ops) last := by
  induction ops generalizing s b with
  | nil => exact ⟨b.state, .nil _⟩
  | cons op ops ih =>
    unfold history
    split
    · rename_i hopen
      obtain ⟨b', hb', hstep⟩ := step_follows op hb hopen
      obtain ⟨last, hrest⟩ := ih hb'
      exact ⟨last, hstep.append hrest⟩
    · exact ⟨b.state, .nil _⟩

end Scopes

/-! ### What may follow what -/

/-- Whether the value goes or a new one comes. -/
def Touch.isTurn : Touch → Bool
  | .used .consume | .used .overwrite => true
  | .used (.read _) | .used (.freeze _) | .thawed => false

/-- The value goes and comes in turn, `n` times; first it comes if it is gone. -/
def turns (gone : Bool) : Nat → List Touch
  | 0 => []
  | n + 1 => .used (if gone then .overwrite else .consume) :: turns (!gone) n

theorem Follows.turns {state last : BindingState} {h : List Touch} (hpath : Follows state h last) :
    ∃ n, h.filter Touch.isTurn = turns state.isConsumed n := by
  induction hpath with
  | nil => exact ⟨0, rfl⟩
  | cons hmove _ ih =>
    obtain ⟨n, hn⟩ := ih
    cases hmove with
    | consume | overwrite =>
      refine ⟨n + 1, ?_⟩
      rw [List.filter_cons_of_pos rfl, hn]
      rfl
    | freeze | thaw | read | readFrozen | spare | late =>
      exact ⟨n, (List.filter_cons_of_neg (by simp [Touch.isTurn])).trans hn⟩

/-- A frozen binding stays frozen until it is thawed. -/
theorem Follows.frozen {kind : RefKind} {pos : Span} {last : BindingState} {h : List Touch}
    (hpath : Follows (.frozen kind pos) h last) (hthaw : .thawed ∉ h) : last = .frozen kind pos := by
  induction h with
  | nil =>
    cases hpath
    rfl
  | cons t rest ih =>
    rw [List.mem_cons, not_or] at hthaw
    cases hpath with
    | cons hmove hrest =>
      cases hmove with
      | thaw => exact absurd rfl hthaw.1
      | readFrozen => exact ih hrest hthaw.2

theorem Follows.after_freeze {state last : BindingState} {before during after : List Touch} {kind : RefKind} {t : Touch}
    (h : Follows state (before ++ .used (.freeze kind) :: (during ++ t :: after)) last) (hthaw : .thawed ∉ during) :
    t = .thawed ∨ kind = .read ∧ t = .used (.read .any) := by
  obtain ⟨_, _, hpath⟩ := h.split
  cases hpath with
  | cons hfreeze hpath =>
    cases hfreeze with
    | freeze kind pos =>
      obtain ⟨_, hduring, hpath⟩ := hpath.split
      rw [hduring.frozen hthaw] at hpath
      cases hpath with
      | cons hmove _ =>
        cases hmove with
        | thaw => exact .inl rfl
        | readFrozen => exact .inr ⟨rfl, rfl⟩

/-! ### Names -/

namespace Frame

theorem find?_newest {name : String} {slot : Nat} {b : Binding} : ∀ {f : Frame}, find? name f = some (slot, b) →
    ∀ slot' b', get? slot' f = some b' → b'.name = name → slot' ≤ slot
  | [], h => nomatch h
  | a :: older, h => by
    intro slot' b' hget hname
    unfold find? at h
    split at h
    · cases h
      exact Nat.le_of_lt_succ (get?_lt hget)
    · rename_i hne
      unfold get? at hget
      split at hget
      · cases hget
        exact absurd hname hne
      · exact find?_newest h slot' b' hget hname

theorem name_ne_of_find? {name : String} {slot : Nat} {b : Binding} : ∀ {f : Frame}, find? name f = none →
    get? slot f = some b → b.name ≠ name
  | [], _, hget => nomatch hget
  | a :: older, h, hget => by
    unfold find? at h
    split at h
    · cases h
    · rename_i hne
      unfold get? at hget
      split at hget
      · cases hget
        exact hne
      · exact name_ne_of_find? h hget

end Frame

namespace Scopes
variable {s : Scopes} {id : BindingId} {b : Binding} {name : String}

/-- A name leads to the innermost binding that has it. -/
theorem lookupIn_innermost : ∀ {fs : List Frame}, lookupIn name fs = some (id, b) →
    ∀ j c, getIn j fs = some c → c.name = name → j.frame < id.frame ∨ j.frame = id.frame ∧ j.slot ≤ id.slot
  | [], h => nomatch h
  | f :: outer, h => by
    intro j c hget hname
    unfold lookupIn at h
    unfold getIn at hget
    cases hfind : f.find? name with
    | some e =>
      rw [hfind] at h
      cases h
      split at hget
      · rename_i hframe
        exact .inr ⟨hframe, Frame.find?_newest hfind j.slot c hget hname⟩
      · exact .inl (getIn_lt hget)
    | none =>
      rw [hfind] at h
      split at hget
      · exact absurd hname (Frame.name_ne_of_find? hfind hget)
      · exact lookupIn_innermost h j c hget hname

theorem barrier_le {bar : Nat} (h : s.outsideLoop id = false) (hbar : s.barrier = some bar) : bar ≤ id.frame := by
  simpa [outsideLoop, hbar] using h

/-! ### Free bindings -/

/-- A free binding is never touched. -/
def Untouched (s : Scopes) : Prop := ∀ id b, s.get? id = some b → b.isLinear = false → b.state = .unconsumed

theorem Untouched.step (h : Untouched s) (op : Op) : Untouched (s.step op) := by
  intro id b hb hfree
  cases op with
  | define name ty univ pos depth =>
    rw [Scopes.step, get?_define] at hb
    split at hb
    · cases hb
      rfl
    · exact h id b hb hfree
  | push => exact h id b ((get?_push s id).symm.trans hb) hfree
  | pop =>
    rw [Scopes.step, get?_pop] at hb
    split at hb
    · exact h id b hb hfree
    · cases hb
  | use u name pos =>
    have hspec := use_spec s u name pos
    simp only [Scopes.step] at hb
    generalize s.use u name pos = result at hspec hb
    cases hspec with
    | untracked | barred | wrong => exact h id b hb hfree
    | made hlookup hlin _ _ =>
      rcases get?_setState_cases (get?_of_lookup hlookup).1 hb with ⟨_, hb⟩ | ⟨_, rfl⟩
      · exact h id b hb hfree
      · exact absurd (hlin.symm.trans hfree) (by decide)
  | thaw thawed =>
    rw [Scopes.step, get?_thaw] at hb
    split at hb
    · obtain ⟨c, hc, rfl⟩ := Option.map_eq_some_iff.mp hb
      have hstate := h id c hc ((Binding.isLinear_of_blank c.blank_thawed).symm.trans hfree)
      simp [Binding.thawed, hstate]
    · exact h id b hb hfree
  | enterLoop => exact h id b hb hfree
  | exitLoop barrier => exact h id b hb hfree

theorem Untouched.run (h : Untouched s) (ops : List Op) : Untouched (s.run ops) := by
  induction ops generalizing s with
  | nil => exact h
  | cons op ops ih => exact ih (h.step op)

theorem untouched_initial : Untouched initial := by
  intro id b hb
  have hframe : id.frame = 0 := Nat.lt_one_iff.mp (get?_lt hb)
  simp [initial, get?, getIn, hframe, Frame.get?] at hb

/-! ### Bindings as resources -/

/-- What a use does that succeeds with the binding of `id`. -/
structure Used (s : Scopes) (name : String) (id : BindingId) (t : Scopes) : Prop where
  linear : ∃ b, s.get? id = some b ∧ b.name = name ∧ b.isLinear = true
  innermost : ∀ j c, s.get? j = some c → c.name = name → j.frame < id.frame ∨ j.frame = id.frame ∧ j.slot ≤ id.slot
  inside : ∀ bar, s.barrier = some bar → bar ≤ id.frame
  /-- All but the states of bindings is as before. -/
  shape : t.skeleton = s.skeleton ∧ t.barrier = s.barrier
  others : ∀ j, j ≠ id → t.get? j = s.get? j

theorem Attempted.used {pos : Span} {move : Binding → Except Violation BindingState} {t : Scopes}
    (h : Attempted s name pos move (.ok (some id), t)) : Used s name id t := by
  cases h with
  | made hlookup hlin hin _ =>
    obtain ⟨hb, hname⟩ := get?_of_lookup hlookup
    exact {
      linear := ⟨_, hb, hname, hlin⟩
      innermost := lookupIn_innermost hlookup
      inside := fun bar hbar => barrier_le hin hbar
      shape := ⟨skeleton_setState .., barrier_setState ..⟩
      others := fun j hj => by rw [get?_setState, if_neg (Ne.symm hj)] }

theorem Attempted.unchanged {pos : Span} {move : Binding → Except Violation BindingState}
    {result : Except Violation (Option BindingId)} {t : Scopes} (h : Attempted s name pos move (result, t))
    (hresult : ∀ id, result ≠ .ok (some id)) : t = s := by
  cases h with
  | untracked | barred | wrong => rfl
  | @made id => exact absurd rfl (hresult id)

end Scopes

/-- What holds of the history of a binding. -/
structure Disciplined (h : List Touch) : Prop where
  /-- Consuming and overwriting it succeed in turn, and consuming first. -/
  alternate : ∃ n, h.filter Touch.isTurn = turns false n
  /-- From a freeze to the thaw that ends it nothing succeeds but reads. -/
  frozen : ∀ before kind during t after, h = before ++ .used (.freeze kind) :: (during ++ t :: after) →
    .thawed ∉ during → t = .thawed ∨ kind = .read ∧ t = .used (.read .any)

open Scopes

/-- **Bindings are resources.** After any operations on new scopes, every free binding is
unconsumed. A use that fails, or whose name leads to no linear binding, changes nothing. One that
succeeds changes at most the state of one binding: the innermost of that name, which is linear and
not outside the loop. And whatever comes after a definition, the history of the new binding is
disciplined. -/
theorem resource_automaton (ops : List Op) :
    let s := initial.run ops
    (∀ id b, s.get? id = some b → b.isLinear = false → b.state = .unconsumed) ∧
    (∀ u name pos result t, s.use u name pos = (result, t) →
      ((∀ id, result ≠ .ok (some id)) → t = s) ∧ ∀ id, result = .ok (some id) → Used s name id t) ∧
    ∀ name ty univ pos depth later,
      let defined := s.define (.fresh name ty univ pos depth)
      Disciplined (history defined.1 defined.2 later) := by
  intro s
  refine ⟨untouched_initial.run ops, fun u name pos result t huse => ?_, fun name ty univ pos depth later => ?_⟩
  · have hspec := use_spec s u name pos
    rw [huse] at hspec
    refine ⟨hspec.unchanged, fun id hid => ?_⟩
    subst hid
    exact hspec.used
  · have hnew : (s.define (.fresh name ty univ pos depth)).2.get? (s.define (.fresh name ty univ pos depth)).1 =
        some (.fresh name ty univ pos depth) := by
      rw [get?_define, if_pos rfl]
    obtain ⟨last, hpath⟩ := history_follows later hnew
    refine ⟨hpath.turns, fun before kind during t after hsplit hthaw => ?_⟩
    rw [hsplit] at hpath
    exact hpath.after_freeze hthaw

/-- A file, and a scope that is open after another was closed. -/
def reopened : List Op :=
  [.define "f" (.named "File" []) .linear ⟨0, 1⟩ 0, .push, .define "n" .int .free ⟨1, 1⟩ 0, .pop, .push]

/-- What becomes of a file `f` that hides the first one. It is frozen and read, and cannot be
consumed before it is thawed; it is consumed, filled again, cannot be consumed in a loop, and is
consumed at last. Then its scope is closed, and another file gets its id. -/
def hidden : List Op :=
  [.use (.freeze .read) "f" ⟨3, 1⟩, .use (.read .any) "f" ⟨4, 1⟩, .use .consume "f" ⟨5, 1⟩, .thaw ⟨1, 0⟩,
    .use .consume "f" ⟨6, 1⟩, .use .consume "f" ⟨7, 1⟩, .use .overwrite "f" ⟨8, 1⟩, .push, .enterLoop,
    .use .consume "f" ⟨9, 1⟩, .exitLoop none, .pop, .use .consume "f" ⟨10, 1⟩, .pop, .use .consume "f" ⟨11, 1⟩,
    .push, .define "g" (.named "File" []) .linear ⟨12, 1⟩ 0, .use .consume "g" ⟨13, 1⟩]

theorem resource_automaton_hidden :
    let s := initial.run reopened
    let defined := s.define (.fresh "f" (.named "File" []) .linear ⟨2, 1⟩ 0)
    let life := history defined.1 defined.2 hidden
    defined.1 = ⟨1, 0⟩ ∧
    life = [.used (.freeze .read), .used (.read .any), .thawed, .used .consume, .used .overwrite, .used .consume] ∧
    Disciplined life ∧ (s.use .consume "f" ⟨2, 1⟩).1 = .ok (some ⟨0, 0⟩) ∧
    Used s "f" ⟨0, 0⟩ (s.use .consume "f" ⟨2, 1⟩).2 := by
  obtain ⟨_, huse, hlife⟩ := resource_automaton reopened
  have hresult : ((initial.run reopened).use .consume "f" ⟨2, 1⟩).1 = .ok (some ⟨0, 0⟩) := by cbv
  exact ⟨by cbv, by cbv, hlife "f" (.named "File" []) .linear ⟨2, 1⟩ 0 hidden, hresult,
    (huse .consume "f" ⟨2, 1⟩ _ _ rfl).2 ⟨0, 0⟩ hresult⟩

end Linearity
