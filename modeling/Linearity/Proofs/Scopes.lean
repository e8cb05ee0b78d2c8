import Linearity.Scopes

/-! Scopes, binding by binding.

The operations on scopes are told by what they do to the binding of an id
(`Scopes.get?`). What an operation on states may never change is the `skeleton`:
every binding of every scope without its state. Names are looked up in the
skeleton alone (`lookup_skeleton`), and scopes are determined by their skeleton,
their barrier and the bindings of the ids (`ext_get?`). -/
namespace Linearity

/-- The binding without its state. -/
def Binding.blank (b : Binding) : Binding := {b with state := .unconsumed}

@[simp] theorem Binding.blank_name (b : Binding) : b.blank.name = b.name := rfl

@[simp] theorem Binding.blank_ty (b : Binding) : b.blank.ty = b.ty := rfl

@[simp] theorem Binding.blank_isLinear (b : Binding) : b.blank.isLinear = b.isLinear := rfl

@[simp] theorem Binding.blank_regionDepth (b : Binding) : b.blank.regionDepth = b.regionDepth := rfl

theorem Binding.isLinear_of_blank {a b : Binding} (h : a.blank = b.blank) : a.isLinear = b.isLinear := by
  rw [← blank_isLinear, h, blank_isLinear]

theorem Binding.ext_blank {a b : Binding} (h : a.blank = b.blank) (hs : a.state = b.state) :
    a = b := by
  cases a
  cases b
  simp only [blank, Binding.mk.injEq] at h hs ⊢
  exact ⟨h.1, h.2.1, h.2.2.1, h.2.2.2.1, h.2.2.2.2.1, hs⟩

/-! ### One scope -/

namespace Frame

theorem get?_lt {slot : Nat} {b : Binding} : ∀ {f : Frame}, get? slot f = some b → slot < f.length
  | [], h => nomatch h
  | _ :: older, h => by
    unfold get? at h
    split at h
    · rename_i hslot
      rw [hslot]
      exact Nat.lt_succ_self _
    · exact Nat.lt_succ_of_lt (get?_lt h)

theorem get?_of_find? {name : String} {slot : Nat} {b : Binding} :
    ∀ {f : Frame}, find? name f = some (slot, b) → get? slot f = some b ∧ b.name = name
  | [], h => nomatch h
  | a :: older, h => by
    unfold find? at h
    split at h
    · rename_i hname
      cases h
      exact ⟨if_pos rfl, hname⟩
    · obtain ⟨hget, hname⟩ := get?_of_find? h
      have hlt := get?_lt hget
      exact ⟨by rw [get?, if_neg (by omega)]; exact hget, hname⟩

@[simp] theorem length_modify (i : Nat) (g : Binding → Binding) :
    ∀ f : Frame, (modify i g f).length = f.length
  | [] => rfl
  | b :: older => by
    unfold modify
    split
    · rfl
    · simp [length_modify i g older]

theorem get?_modify (i j : Nat) (g : Binding → Binding) :
    ∀ f : Frame, get? j (modify i g f) = if i = j then (get? j f).map g else get? j f
  | [] => by simp [modify, get?]
  | b :: older => by
    unfold modify
    by_cases hi : i = older.length
    · rw [if_pos hi]
      by_cases hij : i = j
      · subst hij
        simp [get?, hi]
      · have hj : j ≠ older.length := fun h => hij (hi.trans h.symm)
        simp [get?, hij, hj]
    · rw [if_neg hi, get?, length_modify, get?_modify i j g older]
      by_cases hj : j = older.length
      · simp [get?, hj, show i ≠ older.length from hi]
      · simp [get?, hj]

theorem map_modify (i : Nat) (g : Binding → Binding) (h : ∀ b, (g b).blank = b.blank) :
    ∀ f : Frame, (modify i g f).map Binding.blank = f.map Binding.blank
  | [] => rfl
  | b :: older => by
    unfold modify
    split
    · simp [h]
    · simp [map_modify i g h older]

theorem get?_map (g : Binding → Binding) (slot : Nat) : ∀ f : Frame, get? slot (f.map g) = (get? slot f).map g
  | [] => rfl
  | b :: older => by
    simp only [List.map_cons, get?, List.length_map, get?_map g slot older]
    split <;> rfl

theorem find?_map {g : Binding → Binding} (hname : ∀ b, (g b).name = b.name) (name : String) :
    ∀ f : Frame, find? name (f.map g) = (find? name f).map fun e => (e.1, g e.2)
  | [] => rfl
  | b :: older => by
    simp only [List.map_cons, find?, List.length_map, find?_map hname name older, hname]
    split <;> rfl

theorem mem_slots {slot : Nat} {b : Binding} :
    ∀ {f : Frame}, (slot, b) ∈ slots f ↔ get? slot f = some b
  | [] => by simp [slots, get?]
  | a :: older => by
    simp only [slots, List.mem_append, List.mem_singleton, Prod.mk.injEq, mem_slots (f := older), get?]
    by_cases hslot : slot = older.length
    · have hnone : get? older.length older ≠ some b := fun h => absurd (get?_lt h) (by omega)
      simp only [hslot, hnone, if_true, false_or, true_and, Option.some.injEq]
      exact eq_comm
    · simp [hslot]

theorem ext_get? : ∀ {f g : Frame}, f.length = g.length → (∀ slot, get? slot f = get? slot g) → f = g
  | [], [], _, _ => rfl
  | a :: f, b :: g, hlen, h => by
    have hlen' : f.length = g.length := by simpa using hlen
    have hab : a = b := by simpa [get?, hlen'] using h f.length
    have hrest : f = g := by
      refine ext_get? hlen' fun slot => ?_
      by_cases hslot : slot < f.length
      · simpa [get?, Nat.ne_of_lt hslot, Nat.ne_of_lt (hlen' ▸ hslot)] using h slot
      · have hf : get? slot f = none := Option.eq_none_iff_forall_ne_some.mpr fun b hb =>
          hslot (get?_lt hb)
        have hg : get? slot g = none := Option.eq_none_iff_forall_ne_some.mpr fun b hb =>
          hslot (hlen' ▸ get?_lt hb)
        rw [hf, hg]
    rw [hab, hrest]

end Frame

/-! ### All scopes -/

namespace Scopes

theorem getIn_lt {id : BindingId} {b : Binding} :
    ∀ {fs : List Frame}, getIn id fs = some b → id.frame < fs.length
  | [], h => nomatch h
  | _ :: outer, h => by
    unfold getIn at h
    split at h
    · rename_i hframe
      rw [hframe]
      exact Nat.lt_succ_self _
    · exact Nat.lt_succ_of_lt (getIn_lt h)

theorem getIn_of_le {id : BindingId} {fs : List Frame} (h : fs.length ≤ id.frame) :
    getIn id fs = none :=
  Option.eq_none_iff_forall_ne_some.mpr fun _ hb => absurd (getIn_lt hb) (Nat.not_lt.mpr h)

theorem getIn_cons_lt {id : BindingId} {f : Frame} {outer : List Frame} (h : id.frame < outer.length) :
    getIn id (f :: outer) = getIn id outer := by
  rw [getIn, if_neg (Nat.ne_of_lt h)]

theorem getIn_of_lookupIn {name : String} {id : BindingId} {b : Binding} :
    ∀ {fs : List Frame}, lookupIn name fs = some (id, b) → getIn id fs = some b ∧ b.name = name
  | [], h => nomatch h
  | f :: outer, h => by
    unfold lookupIn at h
    split at h
    · rename_i hfind
      cases h
      rw [getIn, if_pos rfl]
      exact Frame.get?_of_find? hfind
    · obtain ⟨hget, hname⟩ := getIn_of_lookupIn h
      exact ⟨by rw [getIn_cons_lt (getIn_lt hget)]; exact hget, hname⟩

@[simp] theorem length_modifyIn (id : BindingId) (g : Binding → Binding) :
    ∀ fs : List Frame, (modifyIn id g fs).length = fs.length
  | [] => rfl
  | f :: outer => by
    unfold modifyIn
    split
    · rfl
    · simp [length_modifyIn id g outer]

theorem getIn_modifyIn (i j : BindingId) (g : Binding → Binding) :
    ∀ fs : List Frame, getIn j (modifyIn i g fs) = if i = j then (getIn j fs).map g else getIn j fs
  | [] => by simp [modifyIn, getIn]
  | f :: outer => by
    unfold modifyIn
    by_cases hi : i.frame = outer.length
    · rw [if_pos hi, getIn, getIn, Frame.get?_modify]
      by_cases hj : j.frame = outer.length
      · have hij : i.slot = j.slot ↔ i = j := by
          cases i
          cases j
          simp_all
        simp [hj, hij]
      · have hij : i ≠ j := fun h => hj (h ▸ hi)
        simp [hj, hij]
    · rw [if_neg hi, getIn, getIn, length_modifyIn, getIn_modifyIn i j g outer]
      by_cases hj : j.frame = outer.length
      · have hij : i ≠ j := fun h => hi (h ▸ hj)
        simp [hj, hij]
      · simp [hj]

theorem mem_entriesIn {id : BindingId} {b : Binding} :
    ∀ {fs : List Frame}, (id, b) ∈ entriesIn fs ↔ getIn id fs = some b
  | [] => by simp [entriesIn, getIn]
  | f :: outer => by
    have hslots : (id, b) ∈ f.slots.map (fun e : Nat × Binding => ((⟨outer.length, e.1⟩ : BindingId), e.2)) ↔
        id.frame = outer.length ∧ f.get? id.slot = some b := by
      simp only [List.mem_map, Prod.mk.injEq, Prod.exists, ← Frame.mem_slots]
      constructor
      · rintro ⟨slot, b', hmem, rfl, rfl⟩
        exact ⟨rfl, hmem⟩
      · rintro ⟨hframe, hmem⟩
        exact ⟨id.slot, b, hmem, by cases id; simp_all, rfl⟩
    rw [entriesIn, List.mem_append, @mem_entriesIn id b outer, getIn]
    refine (or_congr_right hslots).trans ?_
    by_cases hframe : id.frame = outer.length
    · simp [hframe, getIn_of_le (Nat.le_of_eq hframe.symm)]
    · simp [hframe]

/-- Every binding of every scope, without its state. -/
def skeleton (s : Scopes) : List Frame := s.frames.map fun f => f.map Binding.blank

theorem getIn_map (g : Binding → Binding) (id : BindingId) : ∀ fs : List Frame,
    getIn id (fs.map fun f => f.map g) = (getIn id fs).map g
  | [] => rfl
  | f :: outer => by
    simp only [List.map_cons, getIn, List.length_map, getIn_map g id outer, Frame.get?_map]
    split <;> rfl

theorem lookupIn_map {g : Binding → Binding} (hname : ∀ b, (g b).name = b.name) (name : String) :
    ∀ fs : List Frame, lookupIn name (fs.map fun f => f.map g) = (lookupIn name fs).map fun e => (e.1, g e.2)
  | [] => rfl
  | f :: outer => by
    simp only [List.map_cons, lookupIn, Frame.find?_map hname]
    cases f.find? name with
    | none => exact lookupIn_map hname name outer
    | some e => simp

variable {s t : Scopes}

@[simp] theorem length_skeleton (s : Scopes) : s.skeleton.length = s.frames.length :=
  List.length_map ..

theorem get?_skeleton (s : Scopes) (id : BindingId) :
    getIn id s.skeleton = (s.get? id).map Binding.blank :=
  getIn_map Binding.blank id s.frames

/-- Where a name leads does not depend on states. -/
theorem lookup_skeleton (s : Scopes) (name : String) :
    lookupIn name s.skeleton = (s.lookup name).map fun e => (e.1, e.2.blank) :=
  lookupIn_map Binding.blank_name name s.frames

theorem get?_lt {id : BindingId} {b : Binding} (h : s.get? id = some b) : id.frame < s.frames.length :=
  getIn_lt h

theorem get?_of_lookup {name : String} {id : BindingId} {b : Binding}
    (h : s.lookup name = some (id, b)) : s.get? id = some b ∧ b.name = name :=
  getIn_of_lookupIn h

/-- The binding of an id in scopes of the same skeleton. -/
theorem get?_of_skeleton (h : t.skeleton = s.skeleton) {id : BindingId} {b : Binding}
    (hb : s.get? id = some b) : ∃ b', t.get? id = some b' ∧ b'.blank = b.blank := by
  have hmap : (t.get? id).map Binding.blank = some b.blank := by
    rw [← get?_skeleton, h, get?_skeleton, hb]
    rfl
  exact Option.map_eq_some_iff.mp hmap

/-- A name leads to the same id in scopes of the same skeleton. -/
theorem lookup_of_skeleton (h : t.skeleton = s.skeleton) {name : String} {id : BindingId} {b : Binding}
    (hb : s.lookup name = some (id, b)) : ∃ b', t.lookup name = some (id, b') ∧ b'.blank = b.blank := by
  have hmap : (t.lookup name).map (fun e => (e.1, e.2.blank)) = some (id, b.blank) := by
    rw [← lookup_skeleton, h, lookup_skeleton, hb]
    rfl
  obtain ⟨⟨id', b'⟩, hlookup, heq⟩ := Option.map_eq_some_iff.mp hmap
  simp only [Prod.mk.injEq] at heq
  obtain ⟨rfl, hblank⟩ := heq
  exact ⟨b', hlookup, hblank⟩

theorem lookup_none_of_skeleton (h : t.skeleton = s.skeleton) {name : String}
    (hb : s.lookup name = none) : t.lookup name = none := by
  have hmap : (t.lookup name).map (fun e => (e.1, e.2.blank)) = none := by
    rw [← lookup_skeleton, h, lookup_skeleton, hb]
    rfl
  exact Option.map_eq_none_iff.mp hmap

theorem ext_frames : ∀ {fs gs : List Frame},
    (fs.map fun f => f.map Binding.blank) = (gs.map fun f => f.map Binding.blank) →
      (∀ id, getIn id fs = getIn id gs) → fs = gs
  | [], [], _, _ => rfl
  | f :: fs, g :: gs, hmap, hget => by
    simp only [List.map_cons, List.cons.injEq] at hmap
    obtain ⟨hhead, htail⟩ := hmap
    have hlen : fs.length = gs.length := by simpa using congrArg List.length htail
    have hfg : f = g := by
      refine Frame.ext_get? (by simpa using congrArg List.length hhead) fun slot => ?_
      simpa [getIn, hlen] using hget ⟨fs.length, slot⟩
    have hrest : fs = gs := by
      refine ext_frames htail fun id => ?_
      by_cases hid : id.frame < fs.length
      · have := hget id
        rwa [getIn_cons_lt hid, getIn_cons_lt (hlen ▸ hid)] at this
      · rw [getIn_of_le (Nat.not_lt.mp hid), getIn_of_le (hlen ▸ Nat.not_lt.mp hid)]
    rw [hfg, hrest]

theorem ext_get? (hskel : s.skeleton = t.skeleton) (hbar : s.barrier = t.barrier)
    (hget : ∀ id, s.get? id = t.get? id) : s = t := by
  cases s
  cases t
  simp only [Scopes.mk.injEq]
  exact ⟨ext_frames hskel hget, hbar⟩

/-! ### Opening and closing scopes -/

@[simp] theorem get?_push (s : Scopes) (id : BindingId) : s.push.get? id = s.get? id := by
  show getIn id ([] :: s.frames) = getIn id s.frames
  rw [getIn]
  split
  · rename_i hframe
    rw [getIn_of_le (Nat.le_of_eq hframe.symm)]
    rfl
  · rfl

@[simp] theorem skeleton_push (s : Scopes) : s.push.skeleton = [] :: s.skeleton := rfl

@[simp] theorem skeleton_pop (s : Scopes) : s.pop.2.skeleton = s.skeleton.tail := by
  unfold pop skeleton
  split <;> simp_all

@[simp] theorem barrier_pop (s : Scopes) : s.pop.2.barrier = s.barrier := by
  unfold pop
  split <;> rfl

/-- Closing the innermost scope takes its bindings away and leaves the others. -/
theorem get?_pop (s : Scopes) (id : BindingId) :
    s.pop.2.get? id = if id.frame + 1 < s.frames.length then s.get? id else none := by
  unfold pop
  split
  · rename_i hnil
    simp [get?, hnil, getIn]
  · rename_i f outer hcons
    simp only [get?, hcons, List.length_cons]
    split
    · rename_i hlt
      rw [getIn_cons_lt (by omega)]
    · rename_i hge
      exact getIn_of_le (by omega)

/-- The bindings of the innermost scope are those whose id says so. -/
theorem mem_pop {b : Binding} :
    b ∈ s.pop.1 ↔ ∃ id, s.get? id = some b ∧ id.frame + 1 = s.frames.length := by
  unfold pop
  split
  · rename_i hnil
    simp [hnil]
  · rename_i f outer hcons
    have hmem : b ∈ f ↔ ∃ slot, f.get? slot = some b := by
      clear hcons
      induction f with
      | nil => simp [Frame.get?]
      | cons a older ih =>
        rw [List.mem_cons, ih]
        constructor
        · rintro (rfl | ⟨slot, hslot⟩)
          · exact ⟨older.length, if_pos rfl⟩
          · exact ⟨slot, by rw [Frame.get?, if_neg (Nat.ne_of_lt (Frame.get?_lt hslot))]; exact hslot⟩
        · rintro ⟨slot, hslot⟩
          unfold Frame.get? at hslot
          split at hslot
          · exact .inl (Option.some.inj hslot).symm
          · exact .inr ⟨slot, hslot⟩
    simp only [hmem, get?, hcons, List.length_cons, Nat.add_right_cancel_iff]
    constructor
    · rintro ⟨slot, hslot⟩
      exact ⟨⟨outer.length, slot⟩, by rw [getIn, if_pos rfl]; exact hslot, rfl⟩
    · rintro ⟨id, hget, hframe⟩
      rw [getIn, if_pos hframe] at hget
      exact ⟨id.slot, hget⟩

/-- A definition adds to the innermost scope. -/
theorem skeleton_define_eq (s : Scopes) (b : Binding) : (s.define b).2.skeleton = match s.skeleton with
    | [] => [[b.blank]]
    | f :: outer => (b.blank :: f) :: outer := by
  unfold define skeleton
  cases s.frames <;> rfl

theorem skeleton_define (s : Scopes) (b : Binding) {f : Frame} {outer : List Frame}
    (h : s.skeleton = f :: outer) : (s.define b).2.skeleton = (b.blank :: f) :: outer := by
  rw [skeleton_define_eq, h]

/-- The id of a new binding does not depend on states. -/
theorem define_id (s : Scopes) (b : Binding) : (s.define b).1 = match s.skeleton with
    | [] => ⟨0, 0⟩
    | f :: outer => ⟨outer.length, f.length⟩ := by
  unfold define skeleton
  cases s.frames with
  | nil => rfl
  | cons f outer => simp

@[simp] theorem barrier_define (s : Scopes) (b : Binding) : (s.define b).2.barrier = s.barrier := by
  unfold define
  split <;> rfl

theorem get?_define (s : Scopes) (b : Binding) (id : BindingId) :
    (s.define b).2.get? id = if id = (s.define b).1 then some b else s.get? id := by
  unfold define
  split
  · rename_i hnil
    by_cases hid : id = ⟨0, 0⟩
    · subst hid
      simp [get?, getIn, Frame.get?]
    · have hslot : id.frame = 0 → id.slot ≠ 0 := fun hf hs => hid (by cases id; simp_all)
      simp only [get?, hnil, getIn, List.length_nil, hid, if_false]
      split
      · rename_i hframe
        simp [Frame.get?, hslot hframe]
      · rfl
  · rename_i f outer hcons
    simp only [get?, hcons, getIn]
    by_cases hframe : id.frame = outer.length
    · by_cases hslot : id.slot = f.length
      · have hid : id = ⟨outer.length, f.length⟩ := by cases id; simp_all
        simp [hid, Frame.get?]
      · have hid : id ≠ ⟨outer.length, f.length⟩ := fun h => hslot (by rw [h])
        simp [hframe, hid, Frame.get?, hslot]
    · have hid : id ≠ ⟨outer.length, f.length⟩ := fun h => hframe (by rw [h])
      simp [hframe, hid]

/-- The id of a new binding was not taken. -/
theorem get?_define_fresh (s : Scopes) (b : Binding) : s.get? (s.define b).1 = none := by
  unfold define
  split
  · rename_i hnil
    simp [get?, hnil, getIn]
  · rename_i f outer hcons
    simp only [get?, hcons, getIn, if_true]
    exact Option.eq_none_iff_forall_ne_some.mpr fun b hb => absurd (Frame.get?_lt hb) (Nat.lt_irrefl _)

/-! ### Changing a binding -/

theorem get?_modify (s : Scopes) (i j : BindingId) (g : Binding → Binding) :
    (s.modify i g).get? j = if i = j then (s.get? j).map g else s.get? j :=
  getIn_modifyIn i j g s.frames

theorem skeleton_modify (s : Scopes) (id : BindingId) {g : Binding → Binding}
    (h : ∀ b, (g b).blank = b.blank) : (s.modify id g).skeleton = s.skeleton := by
  show (modifyIn id g s.frames).map _ = s.frames.map _
  induction s.frames with
  | nil => rfl
  | cons f outer ih =>
    unfold modifyIn
    split
    · simp [Frame.map_modify _ g h]
    · simp only [List.map_cons, ih]

theorem get?_setState (s : Scopes) (i j : BindingId) (state : BindingState) :
    (s.setState i state).get? j =
      if i = j then (s.get? j).map fun b => {b with state} else s.get? j :=
  get?_modify s i j _

/-- After a binding's state is set, an id leads to that binding or to what it led to. -/
theorem get?_setState_cases {i j : BindingId} {state : BindingState} {b b' : Binding}
    (hb : s.get? i = some b) (h : (s.setState i state).get? j = some b') :
    (j ≠ i ∧ s.get? j = some b') ∨ (j = i ∧ b' = {b with state}) := by
  rw [get?_setState] at h
  by_cases hij : i = j
  · subst hij
    rw [if_pos rfl, hb] at h
    exact .inr ⟨rfl, (Option.some.inj h).symm⟩
  · rw [if_neg hij] at h
    exact .inl ⟨Ne.symm hij, h⟩

theorem get?_setState_isSome {i j : BindingId} {state : BindingState} {b : Binding}
    (hb : s.get? j = some b) : ∃ b', (s.setState i state).get? j = some b' := by
  rw [get?_setState]
  split
  · exact ⟨_, by rw [hb]; rfl⟩
  · exact ⟨b, hb⟩

@[simp] theorem skeleton_setState (s : Scopes) (id : BindingId) (state : BindingState) :
    (s.setState id state).skeleton = s.skeleton :=
  skeleton_modify s id fun _ => rfl

@[simp] theorem barrier_setState (s : Scopes) (id : BindingId) (state : BindingState) :
    (s.setState id state).barrier = s.barrier := rfl

theorem setState_self {id : BindingId} {b : Binding} (hb : s.get? id = some b) :
    s.setState id b.state = s := by
  refine ext_get? (skeleton_setState ..) rfl fun j => ?_
  rw [get?_setState]
  split
  · rename_i hij
    subst hij
    rw [hb]
    rfl
  · rfl

end Scopes

/-- A frozen binding thawed; any other as it is. -/
def Binding.thawed (b : Binding) : Binding :=
  match b.state with
  | .frozen .. => {b with state := .unconsumed}
  | .unconsumed | .consumed _ => b

@[simp] theorem Binding.blank_thawed (b : Binding) : b.thawed.blank = b.blank := by
  unfold thawed
  split <;> rfl

@[simp] theorem Binding.thawed_thawed (b : Binding) : b.thawed.thawed = b.thawed := by
  unfold thawed
  cases hs : b.state <;> simp [hs]

/-! ### Moves -/

namespace Binding

theorem consume_ok {b : Binding} {pos : Span} {state : BindingState}
    (h : b.consume pos = .ok state) : b.state = .unconsumed ∧ state = .consumed pos := by
  unfold consume at h
  split at h <;> cases h
  exact ⟨by assumption, rfl⟩

theorem overwrite_ok {b : Binding} {pos : Span} {state : BindingState}
    (h : b.overwrite pos = .ok state) : (∃ at₀, b.state = .consumed at₀) ∧ state = .unconsumed := by
  unfold overwrite at h
  split at h <;> cases h
  exact ⟨⟨_, by assumption⟩, rfl⟩

theorem freeze_ok {b : Binding} {kind : RefKind} {pos : Span} {state : BindingState}
    (h : b.freeze kind pos = .ok state) : b.state = .unconsumed ∧ state = .frozen kind pos := by
  unfold freeze at h
  split at h <;> cases h
  exact ⟨by assumption, rfl⟩

theorem read_ok {b : Binding} {reads : LeafReads} {pos : Span} {state : BindingState}
    (h : b.read reads pos = .ok state) : state = b.state := by
  unfold read at h
  split at h
  · cases h
    rfl
  · split at h <;> cases h
    rfl
  · cases h

end Binding

namespace Scopes
variable {s t : Scopes}

theorem get?_thaw (s : Scopes) (i j : BindingId) :
    (s.thaw i).get? j = if i = j then (s.get? j).map Binding.thawed else s.get? j :=
  get?_modify s i j _

@[simp] theorem skeleton_thaw (s : Scopes) (id : BindingId) : (s.thaw id).skeleton = s.skeleton :=
  skeleton_modify s id Binding.blank_thawed

@[simp] theorem barrier_thaw (s : Scopes) (id : BindingId) : (s.thaw id).barrier = s.barrier := rfl

/-- All the bindings of a list of ids thawed. -/
def thawAll (s : Scopes) (ids : List BindingId) : Scopes := ids.foldl thaw s

theorem get?_thawAll (ids : List BindingId) (s : Scopes) (id : BindingId) :
    (s.thawAll ids).get? id = if id ∈ ids then (s.get? id).map Binding.thawed else s.get? id := by
  unfold thawAll
  induction ids generalizing s with
  | nil => simp
  | cons i rest ih =>
    rw [List.foldl_cons, ih, get?_thaw]
    by_cases hi : i = id
    · subst hi
      by_cases hrest : i ∈ rest <;> simp [hrest, Function.comp_def]
    · simp [hi, Ne.symm hi]

@[simp] theorem skeleton_thawAll (ids : List BindingId) (s : Scopes) :
    (s.thawAll ids).skeleton = s.skeleton := by
  unfold thawAll
  induction ids generalizing s with
  | nil => rfl
  | cons i rest ih => rw [List.foldl_cons, ih, skeleton_thaw]

@[simp] theorem barrier_thawAll (ids : List BindingId) (s : Scopes) :
    (s.thawAll ids).barrier = s.barrier := by
  unfold thawAll
  induction ids generalizing s with
  | nil => rfl
  | cons i rest ih => rw [List.foldl_cons, ih, barrier_thaw]

/-- What becomes of a move, from what its name leads to. -/
theorem attempt_of_lookup {name : String} {id : BindingId} {b : Binding}
    (h : s.lookup name = some (id, b)) (pos : Span) (move : Binding → Except Violation BindingState) :
    s.attempt name pos move =
      if b.isLinear then
        if s.outsideLoop id then (.error (.usedInLoop name pos b.definedAt), s)
        else match move b with
          | .error v => (.error v, s)
          | .ok state => (.ok (some id), s.setState id state)
      else (.ok none, s) := by
  unfold attempt tracked
  rw [h]
  cases hlin : b.isLinear
  · simp [hlin]
  · cases hout : s.outsideLoop id
    · cases hmove : move b <;> simp [hlin, hout, hmove]
    · simp [hlin, hout]

theorem attempt_of_lookup_none {name : String} (h : s.lookup name = none) (pos : Span)
    (move : Binding → Except Violation BindingState) : s.attempt name pos move = (.ok none, s) := by
  unfold attempt tracked
  rw [h]

/-- The four ways a move can go. -/
inductive Attempted (s : Scopes) (name : String) (pos : Span)
    (move : Binding → Except Violation BindingState) :
    Except Violation (Option BindingId) × Scopes → Prop where
  /-- The name leads to no linear binding. -/
  | untracked (h : ∀ id b, s.lookup name = some (id, b) → b.isLinear = false) :
    Attempted s name pos move (.ok none, s)
  /-- The binding lies outside the loop. -/
  | barred {id : BindingId} {b : Binding} (h : s.lookup name = some (id, b)) (hlin : b.isLinear = true)
    (hout : s.outsideLoop id = true) :
    Attempted s name pos move (.error (.usedInLoop name pos b.definedAt), s)
  | wrong {id : BindingId} {b : Binding} {v : Violation} (h : s.lookup name = some (id, b))
    (hlin : b.isLinear = true) (hin : s.outsideLoop id = false) (hmove : move b = .error v) :
    Attempted s name pos move (.error v, s)
  | made {id : BindingId} {b : Binding} {state : BindingState} (h : s.lookup name = some (id, b))
    (hlin : b.isLinear = true) (hin : s.outsideLoop id = false) (hmove : move b = .ok state) :
    Attempted s name pos move (.ok (some id), s.setState id state)

theorem attempt_spec (s : Scopes) (name : String) (pos : Span)
    (move : Binding → Except Violation BindingState) :
    Attempted s name pos move (s.attempt name pos move) := by
  cases hlookup : s.lookup name with
  | none =>
    rw [attempt_of_lookup_none hlookup]
    exact .untracked fun id b h => by rw [hlookup] at h; cases h
  | some e =>
    obtain ⟨id, b⟩ := e
    rw [attempt_of_lookup hlookup]
    split
    · rename_i hlin
      split
      · rename_i hout
        exact .barred hlookup hlin hout
      · rename_i hin
        split
        · rename_i hmove
          exact .wrong hlookup hlin (by simpa using hin) hmove
        · rename_i hmove
          exact .made hlookup hlin (by simpa using hin) hmove
    · rename_i hfree
      refine .untracked fun id' b' h => ?_
      rw [hlookup] at h
      cases h
      simpa using hfree

/-- A binding that may be frozen is free and stays, or it is linear and now frozen. -/
theorem freeze_ok {scopes scopes' : Scopes} {name : String} {kind : RefKind} {pos : Span}
    {frozen : Option BindingId} {id : BindingId} {b : Binding}
    (hlookup : scopes.lookup name = some (id, b))
    (h : scopes.freeze name kind pos = (.ok frozen, scopes')) :
    (frozen = none ∧ scopes' = scopes ∧ b.isLinear = false) ∨
    (frozen = some id ∧ scopes' = scopes.setState id (.frozen kind pos) ∧ b.isLinear = true ∧
      scopes.outsideLoop id = false ∧ b.state = .unconsumed) := by
  have hspec := attempt_spec scopes name pos fun b => b.freeze kind pos
  change Attempted _ _ _ _ (scopes.freeze name kind pos) at hspec
  rw [h] at hspec
  cases hspec with
  | untracked hfree => exact .inl ⟨rfl, rfl, hfree id b hlookup⟩
  | made hlookup' hlin hin hmove =>
    rw [hlookup] at hlookup'
    cases hlookup'
    obtain ⟨hold, rfl⟩ := Binding.freeze_ok hmove
    exact .inr ⟨rfl, rfl, hlin, hin, hold⟩

/-! ### The bindings that are to be consumed -/

theorem mem_linearBindings {id : BindingId} {b : Binding} :
    (id, b) ∈ s.linearBindings ↔ s.get? id = some b ∧ b.isLinear := by
  simp [linearBindings, mem_entriesIn, get?]

theorem mem_live {b : Binding} : b ∈ s.live ↔ ∃ id, s.get? id = some b ∧ b.isLive := by
  simp [live, mem_entriesIn, get?]

end Scopes

end Linearity
