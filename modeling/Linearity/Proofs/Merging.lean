import Mathlib
import Linearity.Proofs.Moments
import Linearity.Proofs.Policy

/-! What is left of branches where they are joined.

A thorough check reports each linear binding that some of the branches consume and some do
not, once and with both sets of branches, and it reports nothing else (`Joined.reports`). A
linear binding that some branch consumes is consumed from then on, where the first such
branch consumes it; any other goes back to what it was, or becomes unconsumed if it was
consumed before the branches were joined (`Merges`).

Branches are joined on the scopes behind all conditions, which need not be those of any
branch: a binding may have been consumed by a later condition, or revived in all branches.
Nonetheless, if the branches agree on which bindings they consume, all of them end with the
bindings of the join (`join_exact`). For the same regions are open at the end of each, and
the regions tell which bindings are frozen. -/
namespace Linearity

/-! ### Each binding once -/

theorem Frame.map_fst_slots : ∀ f : Frame, f.slots.map Prod.fst = List.range f.length
  | [] => rfl
  | b :: older => by
    rw [slots, List.map_append, map_fst_slots older, List.length_cons, List.range_succ]
    rfl

theorem Scopes.nodup_entriesIn : ∀ fs : List Frame, ((entriesIn fs).map Prod.fst).Nodup
  | [] => List.nodup_nil
  | f :: outer => by
    have hslots : ((f.slots.map Prod.fst).map fun slot => (⟨outer.length, slot⟩ : BindingId)).Nodup := by
      rw [Frame.map_fst_slots]
      exact List.nodup_range.map fun i j h => congrArg BindingId.slot h
    rw [List.map_map] at hslots
    rw [entriesIn, List.map_append, List.map_map]
    refine (nodup_entriesIn outer).append hslots fun _ hid hid' => ?_
    obtain ⟨⟨id, b⟩, hb, rfl⟩ := List.mem_map.mp hid
    obtain ⟨_, _, hslot⟩ := List.mem_map.mp hid'
    -- The bindings of the outer scopes have smaller frame numbers.
    have hframe : outer.length = id.frame := congrArg BindingId.frame hslot
    have hlt := getIn_lt (mem_entriesIn.mp hb)
    omega

theorem Scopes.nodup_linearBindings (s : Scopes) : (s.linearBindings.map Prod.fst).Nodup :=
  (nodup_entriesIn s.frames).sublist (List.filter_sublist.map Prod.fst)

/-! ### Scopes up to places -/

/-- Without the place of a consumption. -/
def BindingState.unplaced : BindingState → BindingState
  | .consumed _ => .consumed ⟨0, 0⟩
  | .unconsumed => .unconsumed
  | .frozen kind pos => .frozen kind pos

theorem BindingState.unplaced_of_isConsumed {state : BindingState} (h : state.isConsumed = true) :
    state.unplaced = .consumed ⟨0, 0⟩ := by
  cases state with
  | consumed => rfl
  | _ => cases h

def Binding.unplaced (b : Binding) : Binding := {b with state := b.state.unplaced}

@[simp] theorem Binding.blank_unplaced (b : Binding) : b.unplaced.blank = b.blank := rfl

namespace Scopes

/-- The scopes, but for where bindings were consumed. -/
def unplaced (s : Scopes) : Scopes := {s with frames := s.frames.map fun f => f.map Binding.unplaced}

theorem get?_unplaced (s : Scopes) (id : BindingId) : s.unplaced.get? id = (s.get? id).map Binding.unplaced :=
  getIn_map Binding.unplaced id s.frames

theorem skeleton_unplaced (s : Scopes) : s.unplaced.skeleton = s.skeleton := by
  simp [unplaced, skeleton, Function.comp_def]

theorem ext_unplaced {s t : Scopes} (hskel : s.skeleton = t.skeleton) (hbar : s.barrier = t.barrier)
    (h : ∀ {id b b'}, s.get? id = some b → t.get? id = some b' → b.state.unplaced = b'.state.unplaced) :
    s.unplaced = t.unplaced := by
  refine ext_get? (by rw [skeleton_unplaced, skeleton_unplaced, hskel]) hbar fun id => ?_
  rw [get?_unplaced, get?_unplaced]
  cases hb : s.get? id with
  | some b =>
    obtain ⟨b', hb', hblank⟩ := get?_of_skeleton hskel.symm hb
    rw [hb', Option.map_some, Option.map_some]
    exact congrArg some (Binding.ext_blank (a := b.unplaced) (b := b'.unplaced) hblank.symm (h hb hb'))
  | none =>
    have hnone : (t.get? id).map Binding.blank = none := by
      rw [← get?_skeleton, ← hskel, get?_skeleton, hb]
      rfl
    rw [Option.map_eq_none_iff.mp hnone]

end Scopes

/-- The regions tell whether a linear binding is frozen, and by which borrow. -/
theorem Accounted.frozen_of_frozen {regions : Regions} {id : BindingId} {b b' : Binding}
    (h : Accounted regions id b) (h' : Accounted regions id b') (hlin : b.isLinear = true) {kind : RefKind} {pos : Span}
    (hstate : b.state = .frozen kind pos) : b'.state = .frozen kind pos := by
  have hmem : (⟨kind, id, pos, true⟩ : Reference) ∈ (regions.refsTo id).filter Reference.froze := by
    rw [h.frozen hlin hstate]
    exact List.mem_singleton_self _
  exact (h'.state_of_froze (List.mem_filter.mp hmem).1 rfl).2

namespace Check

/-! ### Branches told apart -/

/-- The binding is consumed at `pos`. -/
def ConsumedIn (id : BindingId) (scopes : Scopes) (pos : Span) : Prop :=
  ∃ b, scopes.get? id = some b ∧ b.state = .consumed pos

theorem consumedIn_iff {id : BindingId} {scopes : Scopes} {pos : Span} :
    ConsumedIn id scopes pos ↔ consumedAt id scopes = some pos :=
  consumedAt_eq_some.symm

theorem exists_consumedIn_iff {id : BindingId} {scopes : Scopes} :
    (∃ pos, ConsumedIn id scopes pos) ↔ (consumedAt id scopes).isSome = true := by
  rw [Option.isSome_iff_exists]
  exact exists_congr fun _ => consumedIn_iff

/-- The places of the branches whose scopes are `p`, and those of the others, both in the
order of the branches. -/
inductive Parted (p : Scopes → Prop) : List (Span × Scopes) → List Span → List Span → Prop where
  | nil : Parted p [] [] []
  | left {e : Span × Scopes} {rest : List (Span × Scopes)} {left right : List Span} : p e.2 →
    Parted p rest left right → Parted p (e :: rest) (e.1 :: left) right
  | right {e : Span × Scopes} {rest : List (Span × Scopes)} {left right : List Span} : ¬ p e.2 →
    Parted p rest left right → Parted p (e :: rest) left (e.1 :: right)

theorem parted_consumedAt (id : BindingId) : ∀ exits : List (Span × Scopes),
    Parted (fun scopes => ∃ pos, ConsumedIn id scopes pos) exits
      ((exits.filter fun e => (consumedAt id e.2).isSome).map Prod.fst)
      ((exits.filter fun e => (consumedAt id e.2).isNone).map Prod.fst)
  | [] => .nil
  | e :: rest => by
    have hrest := parted_consumedAt id rest
    cases he : consumedAt id e.2 with
    | some pos =>
      simp only [List.filter_cons, he, Option.isSome_some, Option.isNone_some, if_true, Bool.false_eq_true, if_false,
        List.map_cons]
      exact .left ⟨pos, consumedIn_iff.mpr he⟩ hrest
    | none =>
      simp only [List.filter_cons, he, Option.isSome_none, Option.isNone_none, if_true, Bool.false_eq_true, if_false,
        List.map_cons]
      refine .right (fun hconsumed => ?_) hrest
      rw [exists_consumedIn_iff, he] at hconsumed
      cases hconsumed

/-- A report that tells the branches that consume a binding from those that do not. -/
def TellsApart (exits : List (Span × Scopes)) (id : BindingId) (b : Binding) (v : Violation) : Prop :=
  ∃ consuming keeping, v = .branchesDisagree b.name consuming keeping ∧ consuming ≠ [] ∧ keeping ≠ [] ∧
    Parted (fun scopes => ∃ pos, ConsumedIn id scopes pos) exits consuming keeping

/-! ### Reports -/

theorem disagree_iff {exits : List (Span × Scopes)} {id : BindingId} : Disagree exits id ↔
    (∃ e ∈ exits, ∃ pos, ConsumedIn id e.2 pos) ∧ ∃ e ∈ exits, ∀ pos, ¬ ConsumedIn id e.2 pos := by
  have hkeeps : ∀ scopes, (∀ pos, ¬ ConsumedIn id scopes pos) ↔ (consumedAt id scopes).isSome = false := by
    intro scopes
    rw [← not_exists, exists_consumedIn_iff, Bool.not_eq_true]
  simp only [Disagree, exists_consumedIn_iff, hkeeps]

instance (exits : List (Span × Scopes)) (id : BindingId) : Decidable (Disagree exits id) :=
  inferInstanceAs (Decidable (_ ∧ _))

theorem tellsApart_disagreement {exits : List (Span × Scopes)} {entry : BindingId × Binding}
    (h : Disagree exits entry.1) : TellsApart exits entry.1 entry.2 (disagreement exits entry) := by
  obtain ⟨⟨e, he, hsome⟩, ⟨e', he', hnone⟩⟩ := h
  refine ⟨_, _, rfl, ?_, ?_, parted_consumedAt entry.1 exits⟩
  · exact List.ne_nil_of_mem (List.mem_map_of_mem (List.mem_filter.mpr ⟨he, hsome⟩))
  · exact List.ne_nil_of_mem (List.mem_map_of_mem (List.mem_filter.mpr ⟨he', by simpa using hnone⟩))

/-- The linear bindings that some branches consume and some do not. -/
def disputed (exits : List (Span × Scopes)) (scopes : Scopes) : List (BindingId × Binding) :=
  scopes.linearBindings.filter fun entry => Disagree exits entry.1

theorem mem_disputed {exits : List (Span × Scopes)} {scopes : Scopes} {id : BindingId} {b : Binding} :
    (id, b) ∈ disputed exits scopes ↔ scopes.get? id = some b ∧ b.isLinear = true ∧ Disagree exits id := by
  rw [disputed, List.mem_filter, Scopes.mem_linearBindings, decide_eq_true_iff, and_assoc]

theorem nodup_disputed (exits : List (Span × Scopes)) (scopes : Scopes) :
    ((disputed exits scopes).map Prod.fst).Nodup :=
  scopes.nodup_linearBindings.sublist (List.filter_sublist.map Prod.fst)

/-- Binding by binding, a thorough check reports the disagreements. -/
theorem joining_found {c : Context} (hc : c.Thorough) (exits : List (Span × Scopes))
    (entries : List (BindingId × Binding)) (s : State) :
    (entries.foldl (joinBinding c exits) s).found =
      s.found ++ (entries.filter fun entry => Disagree exits entry.1).map (disagreement exits) := by
  induction entries generalizing s with
  | nil => exact (List.append_nil _).symm
  | cons entry rest ih =>
    rw [List.foldl_cons, ih, joinBinding_found]
    by_cases hdis : Disagree exits entry.1
    · rw [noteDisagreement_of_disagree c hdis, hc.report_found, List.filter_cons_of_pos (by simpa using hdis),
        List.map_cons, List.append_assoc]
      rfl
    · rw [noteDisagreement_of_agree c hdis, List.filter_cons_of_neg (by simpa using hdis)]

/-! ### States -/

/-- What becomes of a binding where branches are joined. -/
structure Merges (exits : List (Span × Scopes)) (id : BindingId) (b : Binding) (state : BindingState) : Prop where
  free : b.isLinear = false → state = b.state
  /-- It is consumed where the first branch that consumes it does so. -/
  consumed : b.isLinear = true → ∀ pos, state = .consumed pos ↔
    ∃ before e rest, exits = before ++ e :: rest ∧ ConsumedIn id e.2 pos ∧
      ∀ e' ∈ before, ∀ pos', ¬ ConsumedIn id e'.2 pos'
  /-- If no branch consumes it, it is not consumed. -/
  kept : b.isLinear = true → (∀ e ∈ exits, ∀ pos, ¬ ConsumedIn id e.2 pos) →
    state = if b.state.isConsumed then .unconsumed else b.state

theorem consumedAt_eq_none {id : BindingId} {scopes : Scopes} :
    consumedAt id scopes = none ↔ ∀ pos, ¬ ConsumedIn id scopes pos := by
  rw [Option.eq_none_iff_forall_ne_some]
  exact forall_congr' fun _ => not_congr consumedIn_iff.symm

theorem merges_merged (exits : List (Span × Scopes)) (id : BindingId) (b : Binding) :
    Merges exits id b (if b.isLinear then merged exits id b.state else b.state) where
  free hfree := by rw [hfree]; rfl
  consumed hlin pos := by
    rw [if_pos hlin]
    have hfirst : merged exits id b.state = .consumed pos ↔
        exits.findSome? (fun e => consumedAt id e.2) = some pos := by
      unfold merged
      cases exits.findSome? fun e => consumedAt id e.2 with
      | some pos' => simp
      | none => cases hs : b.state <;> simp [BindingState.isConsumed]
    simp only [hfirst, List.findSome?_eq_some_iff, consumedIn_iff, consumedAt_eq_none]
  kept hlin hnone := by
    have hsome : exits.findSome? (fun e => consumedAt id e.2) = none :=
      List.findSome?_eq_none_iff.mpr fun e he => consumedAt_eq_none.mpr (hnone e he)
    rw [if_pos hlin, merged, hsome]

/-- From `s`, where branches that end in `exits` are joined, to `t`. -/
structure Joined (exits : List (Span × Scopes)) (s t : State) : Prop where
  /-- One report for each linear binding that some branches consume and some do not. -/
  reports : ∃ disputed reports, t.found = s.found ++ reports ∧ (disputed.map Prod.fst).Nodup ∧
    (∀ id b, (id, b) ∈ disputed ↔ s.scopes.get? id = some b ∧ b.isLinear = true ∧
      (∃ e ∈ exits, ∃ pos, ConsumedIn id e.2 pos) ∧ ∃ e ∈ exits, ∀ pos, ¬ ConsumedIn id e.2 pos) ∧
    List.Forall₂ (fun entry v => TellsApart exits entry.1 entry.2 v) disputed reports
  bindings : ∀ id b, s.scopes.get? id = some b → ∃ state, t.scopes.get? id = some {b with state} ∧
    Merges exits id b state
  /-- Apart from the states of bindings and the reports, all is as it was. -/
  skeleton : t.scopes.skeleton = s.scopes.skeleton
  rest : t.scopes.barrier = s.scopes.barrier ∧ t.regions = s.regions ∧ t.events = s.events ∧ t.escaped = s.escaped

theorem joined_join {c : Context} (hc : c.Thorough) {outcomes : List Outcome} (h : reached outcomes ≠ [])
    (s : State) : Joined (reached outcomes) s (join c outcomes s).2 := by
  obtain ⟨hskel, hrest⟩ := @join_frame c outcomes s
  refine ⟨?_, fun id b hb => ?_, hskel, hrest⟩
  · rw [join_of_some c s h]
    refine ⟨disputed (reached outcomes) s.scopes, _, joining_found hc (reached outcomes) s.scopes.linearBindings s,
      nodup_disputed .., fun id b => ?_, ?_⟩
    · rw [mem_disputed, disagree_iff]
    · rw [List.forall₂_map_right_iff]
      exact List.forall₂_same.mpr fun entry hentry => tellsApart_disagreement (mem_disputed.mp hentry).2.2
  · refine ⟨_, ?_, merges_merged (reached outcomes) id b⟩
    rw [get?_join c s h, hb, Option.map_some]
    cases b.isLinear <;> rfl

/-! ### Branches that agree -/

/-- If the branches agree on a binding, each of them ends with it as the join leaves it. -/
theorem merged_of_agree {exits : List (Span × Scopes)} {id : BindingId} {b b' : Binding} {e : Span × Scopes}
    {regions : Regions} (hagree : ¬ Disagree exits id) (he : e ∈ exits) (hb' : e.2.get? id = some b')
    (h : Accounted regions id b) (h' : Accounted regions id b') (hlin : b.isLinear = true)
    (hlin' : b'.isLinear = true) : (merged exits id b.state).unplaced = b'.state.unplaced := by
  have hconsumed := consumedAt_of_get? hb'
  cases hs : b'.state.isConsumed with
  | true =>
    have hmerged : (merged exits id b.state).isConsumed = true := by
      rw [merged_isConsumed]
      exact List.any_eq_true.mpr ⟨e, he, hconsumed.trans hs⟩
    rw [BindingState.unplaced_of_isConsumed hmerged, BindingState.unplaced_of_isConsumed hs]
  | false =>
    have hnone : exits.findSome? (fun e => consumedAt id e.2) = none := by
      refine List.findSome?_eq_none_iff.mpr fun e' he' => Option.not_isSome_iff_eq_none.mp fun hsome => ?_
      exact hagree ⟨⟨e', he', hsome⟩, e, he, hconsumed.trans hs⟩
    rw [merged, hnone]
    dsimp only
    cases hstate : b.state with
    | frozen kind pos => rw [h.frozen_of_frozen h' hlin hstate]; rfl
    | unconsumed | consumed =>
      -- Nor is the binding frozen at the end of the branch.
      cases hstate' : b'.state with
      | unconsumed => rfl
      | consumed => rw [hstate'] at hs; cases hs
      | frozen kind pos =>
        rw [h'.frozen_of_frozen h hlin' hstate'] at hstate
        cases hstate

/-- Where the branches of a statement agree on all bindings, every one that is reached ends with the
scopes of the join. -/
theorem Branched.scopes_of_agree {c : Context} {outcomes : List Outcome} {start s : State}
    (h : Branched start outcomes s)
    (hagree : ∀ {id b}, s.scopes.get? id = some b → b.isLinear = true → ¬ Disagree (reached outcomes) id)
    {e : Span × Scopes} (he : e ∈ reached outcomes) :
    (join c outcomes s).2.scopes.unplaced = e.2.unplaced := by
  have hexit := h.exits he
  have hskel : s.scopes.skeleton = e.2.skeleton := h.kept.skeleton_eq.trans hexit.skeleton_eq.symm
  obtain ⟨hjoin, hbar, _⟩ := @join_frame c outcomes s
  refine Scopes.ext_unplaced (hjoin.trans hskel) (hbar.trans (h.kept.barrier.trans hexit.barrier.symm)) ?_
  intro id b₁ b' hb₁ hb'
  rw [get?_join c s (List.ne_nil_of_mem he)] at hb₁
  obtain ⟨b, hb, rfl⟩ := Option.map_eq_some_iff.mp hb₁
  have hacc := h.kept.coherent.accounted hb
  have hacc' : Accounted s.regions id b' := hexit.coherent.accounted hb'
  have hblank : b'.isLinear = b.isLinear := by
    obtain ⟨b'', hb'', hblank⟩ := Scopes.get?_of_skeleton hskel.symm hb
    rw [hb'] at hb''
    cases hb''
    exact Binding.isLinear_of_blank hblank
  cases hlin : b.isLinear with
  | true =>
    rw [if_pos rfl]
    exact merged_of_agree (hagree hb hlin) he hb' hacc hacc' hlin (hblank.trans hlin)
  | false =>
    rw [if_neg Bool.false_ne_true, (hacc.free hlin).1, (hacc'.free (hblank.trans hlin)).1]

/-- A thorough check that reports nothing where branches are joined has seen them agree. -/
theorem agree_of_found {c : Context} (hc : c.Thorough) {outcomes : List Outcome} {s : State}
    (h : (join c outcomes s).2.found = s.found) {id : BindingId} {b : Binding} (hb : s.scopes.get? id = some b)
    (hlin : b.isLinear = true) : ¬ Disagree (reached outcomes) id := by
  intro hdis
  have hr : reached outcomes ≠ [] := by
    obtain ⟨⟨e, he, _⟩, _⟩ := hdis
    exact List.ne_nil_of_mem he
  rw [join_of_some c s hr, joining_found hc, List.append_right_eq_self, List.map_eq_nil_iff] at h
  exact List.ne_nil_of_mem (mem_disputed.mpr ⟨hb, hlin, hdis⟩) h

theorem reached_eq_nil {outcomes : List Outcome} : reached outcomes = [] ↔ ∀ o ∈ outcomes, o.exit = none := by
  simp only [reached, List.filterMap_eq_nil_iff, Option.map_eq_none_iff]

/-- **Joins are exact.** If no branch reaches its end the join diverges and changes nothing, and
else it goes on and does what `Joined` says, whatever the branches' scopes are. Where the
branches are those of a statement, and none of their bindings is reported, every branch that
reaches its end has the scopes of the join there, but for the places of consumptions. -/
theorem join_exact {c : Context} (hpolicy : c.settings.policy = .accumulate) :
    (∀ outcomes s,
      (join c outcomes s = (.diverges, s) ↔ ∀ o ∈ outcomes, o.exit = none) ∧
      ((∃ o ∈ outcomes, o.exit ≠ none) →
        (join c outcomes s).1 = .continues ∧ Joined (reached outcomes) s (join c outcomes s).2)) ∧
    ∀ f outcomes s, Joining c f outcomes s → (join c outcomes s).2.found = s.found →
      ∀ e ∈ reached outcomes, (join c outcomes s).2.scopes.unplaced = e.2.unplaced := by
  refine ⟨fun outcomes s => ⟨⟨fun h => ?_, fun h => join_of_none c s (reached_eq_nil.mpr h)⟩, fun h => ?_⟩, ?_⟩
  · rw [← reached_eq_nil]
    by_contra hr
    rw [join_of_some c s hr] at h
    cases congrArg Prod.fst h
  · have hr : reached outcomes ≠ [] := by
      obtain ⟨o, ho, hexit⟩ := h
      exact fun hnil => hexit (reached_eq_nil.mp hnil o ho)
    exact ⟨by rw [join_of_some c s hr], joined_join hpolicy hr s⟩
  · intro f outcomes s hjoining hfound e he
    obtain ⟨start, hbranched⟩ := hjoining.branched
    exact hbranched.scopes_of_agree (fun hb hlin => agree_of_found hpolicy hfound hb hlin) he

/-- A call that consumes `x`. -/
def consuming (name : String) (ty : Ty) (offset : Nat) : Expr Span :=
  ⟨⟨offset, 2⟩, ty, .call ⟨⟨offset, 1⟩, name⟩ [⟨⟨offset + 1, 1⟩, .param "A", .var "x"⟩]⟩

/-- The first branch closes `x`, and else the second condition does. -/
def pickerBranches : List (Branch Span) :=
  [⟨⟨8, 4⟩, ⟨⟨8, 1⟩, .bool, .lit (.bool true)⟩, ⟨⟨9, 3⟩, [.discard ⟨9, 3⟩ (consuming "close" .unit 9)]⟩⟩,
    ⟨⟨12, 3⟩, consuming "test" .bool 12, ⟨⟨14, 1⟩, []⟩⟩]

/-- A function that closes `x` one way or the other, in a block that borrows `y`. -/
def picker : FunDef Span where
  pos := ⟨0, 20⟩
  name := ⟨⟨0, 1⟩, "pick"⟩
  typeParams := [⟨⟨1, 1⟩, ⟨⟨1, 1⟩, "A"⟩, .linear⟩]
  params := [⟨⟨2, 1⟩, ⟨⟨2, 1⟩, "x"⟩, .param "A"⟩, ⟨⟨3, 1⟩, ⟨⟨3, 1⟩, "y"⟩, .param "A"⟩]
  ret := .unit
  body := ⟨⟨4, 15⟩, [.borrow ⟨4, 14⟩ .read ⟨⟨4, 1⟩, "y"⟩ ⟨⟨5, 1⟩, "r"⟩ ⟨⟨6, 1⟩, "R"⟩
    ⟨⟨7, 10⟩, [.choose ⟨7, 9⟩ pickerBranches none]⟩]⟩

def pickerContext : Context := ⟨⟨[]⟩, .ofParams picker.typeParams, {}⟩

/-- Where it comes to its branches. -/
def pickerEntry : State :=
  let body := {pushScope (entryState pickerContext picker) with escaped := []}
  let block := (enterBorrow pickerContext .read ⟨⟨4, 1⟩, "y"⟩ ⟨⟨5, 1⟩, "r"⟩ ⟨⟨6, 1⟩, "R"⟩ body).2
  {pushScope block with escaped := []}

def pickerOutcomes : List Outcome :=
  (checkBranches pickerContext pickerBranches pickerEntry).1 ++
    [⟨⟨7, 9⟩, some (checkBranches pickerContext pickerBranches pickerEntry).2.scopes⟩]

/-- Its three branches consume `x` at two places; the join takes the first of them, and
otherwise leaves what each branch leaves. -/
theorem join_exact_picker :
    let s := (checkBranches pickerContext pickerBranches pickerEntry).2
    let after := join pickerContext pickerOutcomes s
    Joining pickerContext picker pickerOutcomes s ∧ after.1 = .continues ∧ after.2.found = s.found ∧
    (reached pickerOutcomes).map (fun e => (e.1, consumedAt ⟨0, 0⟩ e.2)) =
      [(⟨8, 4⟩, some ⟨10, 1⟩), (⟨12, 3⟩, some ⟨13, 1⟩), (⟨7, 9⟩, some ⟨13, 1⟩)] ∧
    consumedAt ⟨0, 0⟩ after.2.scopes = some ⟨10, 1⟩ ∧
    ∀ e ∈ reached pickerOutcomes, after.2.scopes.unplaced = e.2.unplaced := by
  intro s after
  have hbody : Reached pickerContext picker (.stmts picker.body.stmts) _ := .inside .body
  have hstmt : Reached pickerContext picker (.stmt (.choose ⟨7, 9⟩ pickerBranches none)) pickerEntry :=
    .first (.inside (.borrow (.first hbody (by cbv)))) (by cbv)
  have hjoining : Joining pickerContext picker pickerOutcomes s := .skip hstmt
  have hfound : after.2.found = s.found := by cbv
  obtain ⟨hany, hagree⟩ := @join_exact pickerContext rfl
  have hcontinues := (hany pickerOutcomes s).2 ⟨⟨⟨7, 9⟩, some s.scopes⟩, by simp [pickerOutcomes, s], by simp⟩
  exact ⟨hjoining, hcontinues.1, hfound, by cbv, by cbv, hagree picker pickerOutcomes s hjoining hfound⟩

end Check

end Linearity
