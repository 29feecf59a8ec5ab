import ObjectModel.Proofs.Cloning.Forgetting
import ObjectModel.Proofs.Cloning.Shadowing

/-!
# Noting what is bound

What is bound in a scope is gone when the scope is left. So that it can be spoken of,
it is noted when it is bound, with the scopes that are entered (`Noted`); this makes no
difference to cloning (`Cloner.cloneObject_eq_noted`).

What has been bound in the innermost scope shows there and nowhere else
(`Elaboration.Gains`). If the scopes that are entered on the way are left again, what was
bound in them does not show at all (`Noted.Adds`).
-/

namespace ObjectModel

/-- A name that was bound. -/
structure Recording where
  sort : NameSort
  name : String
  object : Ref
  /-- The scopes that were entered at that time, the innermost first. -/
  scopes : List Ref
deriving DecidableEq

/-- What a name was bound to last. -/
def Recording.last? (l : List Recording) (sort : NameSort) (name : String) : Option Ref :=
  (l.filter fun x => x.sort = sort ∧ x.name = name).getLast?.map (·.object)

namespace Elaboration

variable {e : Elaboration} {l : List Recording} {x : Recording} {sort : NameSort} {name : String}
  {r scope : Ref} {w : Frame → Frame}

/-! ## The innermost frame -/

/-- The innermost frame. -/
def innermost (e : Elaboration) : Frame := (e.scopes.head?.map Prod.snd).getD e.root

/-- The scopes that are entered, the innermost first. -/
def entered (e : Elaboration) : List Ref := e.scopes.map Prod.fst

theorem frames_eq_cons : e.frames = e.innermost :: e.frames.tail := by
  rw [frames, innermost]
  cases e.scopes <;> rfl

theorem lookup_eq : e.lookup (·.table sort) name =
    ((e.innermost.table sort).get? name).or
      (e.frames.tail.findSome? fun f => (f.table sort).get? name) := by
  rw [lookup, frames_eq_cons, List.findSome?_cons]
  cases (e.innermost.table sort).get? name <;> rfl

theorem innermost_record : (e.record w).innermost = w e.innermost := by
  rw [record, innermost, innermost]
  split
  · rename_i hscopes
    rw [hscopes]
    rfl
  · rename_i hscopes
    rw [hscopes]
    rfl

/-- A name is bound in the innermost frame, so the others stay. -/
theorem tail_frames_record : (e.record w).frames.tail = e.frames.tail := by
  rw [frames_record, frames_eq_cons]
  rfl

theorem explicit_record : (e.record w).explicit = e.explicit := by
  rw [record]
  split <;> rfl

theorem uniquify_record : (e.record w).uniquify = e.uniquify := by
  rw [record]
  split <;> rfl

/-- Binding a name of any sort is a change to the innermost frame. -/
theorem perform_record :
    e.perform (.record sort name r) = e.record (·.insert name r sort) := by
  cases sort <;> rfl

/-! ## Names that are bound in turn -/

/-- The names are bound in the innermost scope, one after the other. -/
def replay (e : Elaboration) (l : List Recording) : Elaboration :=
  l.foldl (fun e x => e.perform (.record x.sort x.name x.object)) e

theorem replay_append {l' : List Recording} : e.replay (l ++ l') = (e.replay l).replay l' :=
  List.foldl_append

/-- From `e` to `e'`, no scope has been entered or left, and the innermost frame has come
    to bind what is in the list. -/
structure Gains (e : Elaboration) (l : List Recording) (e' : Elaboration) : Prop where
  depth : e'.depth = e.depth
  /-- The frames are those of the same scopes. -/
  entered : e'.entered = e.entered
  /-- All frames but the innermost are the same. -/
  outer : e'.frames.tail = e.frames.tail
  explicit : e'.explicit = e.explicit
  uniquify : e'.uniquify = e.uniquify
  /-- What the innermost frame has, it had before or comes from the list. -/
  innermost : ∀ sort name, (e'.innermost.table sort).get? name =
    (Recording.last? l sort name).or ((e.innermost.table sort).get? name)
  /-- What is found under a name was found before or comes from the list. -/
  found : ∀ sort name, e'.lookup (·.table sort) name =
    (Recording.last? l sort name).or (e.lookup (·.table sort) name)

/-- What does not depend on the innermost frame stays. -/
theorem replay_eq {α : Type} {p : Elaboration → α} (hp : ∀ e w, p (record e w) = p e) :
    p (e.replay l) = p e := by
  induction l generalizing e with
  | nil => rfl
  | cons x l ih => rw [replay, List.foldl_cons, ← replay, ih, perform_record, hp]

theorem entered_replay : (e.replay l).entered = e.entered :=
  replay_eq (p := entered) fun _ _ => scopes_record

theorem tail_frames_replay : (e.replay l).frames.tail = e.frames.tail :=
  replay_eq (p := fun e => e.frames.tail) fun _ _ => tail_frames_record

/-- What is bound later comes before. -/
theorem innermost_replay : ((e.replay l).innermost.table sort).get? name =
    (Recording.last? l sort name).or ((e.innermost.table sort).get? name) := by
  -- What is bound last decides, so the induction is from the end.
  induction l using List.reverseRecOn with
  | nil => rfl
  | append_singleton l x ih =>
    rw [replay_append, replay, List.foldl_cons, List.foldl_nil, perform_record, innermost_record,
      Frame.table_insert, Recording.last?, List.filter_append]
    by_cases hsort : x.sort = sort
    · rw [if_pos hsort.symm, SortedMap.get?_insert]
      by_cases hname : x.name = name
      · simp [hsort, hname]
      · rw [if_neg (Ne.symm hname), ih, Recording.last?]
        simp [hname]
    · rw [if_neg (Ne.symm hsort), ih, Recording.last?]
      simp [hsort]

/-- If names are bound in turn, the innermost frame has them, the last one of each,
    and nothing else changes. -/
theorem gains_replay (e : Elaboration) (l : List Recording) : e.Gains l (e.replay l) where
  depth := by
    have hlength := congrArg List.length (entered_replay (e := e) (l := l))
    rwa [entered, entered, List.length_map, List.length_map] at hlength
  entered := entered_replay
  outer := tail_frames_replay
  explicit := replay_eq (p := explicit) fun _ _ => explicit_record
  uniquify := replay_eq (p := uniquify) fun _ _ => uniquify_record
  innermost _ _ := innermost_replay
  found sort name := by
    rw [lookup_eq, lookup_eq, innermost_replay, tail_frames_replay, Option.or_assoc]

/-- What is bound in a scope goes with it. -/
theorem leave_replay_enter : ((e.enter scope).replay l).leave scope = e := by
  -- Nothing but the frame of the scope is changed.
  have hreplay (f : Frame) : ∃ f', ({ e with scopes := (scope, f) :: e.scopes } :
      Elaboration).replay l = { e with scopes := (scope, f') :: e.scopes } := by
    induction l generalizing f with
    | nil => exact ⟨f, rfl⟩
    | cons x l ih =>
      rw [replay, List.foldl_cons, ← replay, perform_record]
      exact ih _
  obtain ⟨f', hf'⟩ := hreplay {}
  rw [enter, hf', leave]
  exact if_pos rfl

end Elaboration

/-! ## Noting -/

/-- An elaboration with a list of what was bound. -/
structure Noted where
  elaboration : Elaboration
  /-- What was bound, in order. -/
  recordings : List Recording := []

namespace Noted

variable {s t u : Noted} {l l' : List Recording} {r : Ref}

/-- The scopes that are entered, the innermost first. -/
def entered (s : Noted) : List Ref := s.elaboration.entered

/-- Binds a name, and notes it. -/
def record (s : Noted) (sort : NameSort) (name : String) (r : Ref) : Noted where
  elaboration := s.elaboration.perform (.record sort name r)
  recordings := s.recordings ++ [⟨sort, name, r, s.entered⟩]

instance : Bindings Noted where
  bindAny s := Bindings.bindAny s.elaboration
  bindNet s := Bindings.bindNet s.elaboration
  bindParam s := Bindings.bindParam s.elaboration
  bindTaskFunc s := Bindings.bindTaskFunc s.elaboration
  recordNet s := s.record .net
  recordParam s := s.record .param
  recordTaskFunc s := s.record .taskFunc
  enterScope s r := { s with elaboration := s.elaboration.enter r }
  leaveScope s r := { s with elaboration := s.elaboration.leave r }
  uniquifies s := Bindings.uniquifies s.elaboration

/-- Noting changes nothing of the elaboration that is noted. -/
theorem forgetful : Bindings.Forgetful elaboration where
  bindAny _ _ := rfl
  bindNet _ _ := rfl
  bindParam _ _ := rfl
  bindTaskFunc _ _ := rfl
  recordNet _ _ _ := rfl
  recordParam _ _ _ := rfl
  recordTaskFunc _ _ _ := rfl
  enterScope _ _ := rfl
  leaveScope _ _ := rfl
  uniquifies _ := rfl

/-- From `s` to `t`, the names in the list were bound, and all scopes that were entered
    have been left again. -/
structure Adds (s : Noted) (l : List Recording) (t : Noted) : Prop where
  recordings : t.recordings = s.recordings ++ l
  /-- What was bound in the scopes of `s` is bound there. -/
  elaboration : t.elaboration = s.elaboration.replay (l.filter (·.scopes = s.entered))
  /-- All that was bound was bound in the scopes of `s`, or further in. -/
  within : ∀ x ∈ l, s.entered <:+ x.scopes

theorem Adds.refl (s : Noted) : s.Adds [] s :=
  ⟨(List.append_nil _).symm, rfl, fun _ hx => absurd hx List.not_mem_nil⟩

theorem Adds.entered (h : s.Adds l t) : t.entered = s.entered := by
  rw [Noted.entered, h.elaboration]
  exact Elaboration.entered_replay

/-- What is added by two parts is added one after the other. -/
theorem Adds.trans (h : s.Adds l t) (h' : t.Adds l' u) : s.Adds (l ++ l') u where
  recordings := by rw [h'.recordings, h.recordings, List.append_assoc]
  elaboration := by
    rw [h'.elaboration, h.entered, h.elaboration, List.filter_append, Elaboration.replay_append]
  within x hx := by
    rcases List.mem_append.1 hx with hx | hx
    · exact h.within x hx
    · exact h.entered ▸ h'.within x hx

/-- A name that is bound is noted with the scopes that are entered. -/
theorem adds_record (s : Noted) (sort : NameSort) (name : String) (r : Ref) :
    s.Adds [⟨sort, name, r, s.entered⟩] (s.record sort name r) where
  recordings := rfl
  elaboration := by simp [record, Elaboration.replay]
  within x hx := by
    obtain rfl := List.mem_singleton.1 hx
    exact List.suffix_rfl

/-- What is added in a scope does not show when it is left. -/
theorem Adds.leave (h : (Bindings.enterScope s r).Adds l t) :
    s.Adds l (Bindings.leaveScope t r) := by
  have hentered : (Bindings.enterScope s r).entered = r :: s.entered := rfl
  have hwithin : ∀ x ∈ l, r :: s.entered <:+ x.scopes := hentered ▸ h.within
  have hnone : l.filter (·.scopes = s.entered) = [] := by
    refine List.filter_eq_nil_iff.2 fun x hx hscopes => ?_
    have hle := (hwithin x hx).length_le
    rw [of_decide_eq_true hscopes, List.length_cons] at hle
    omega
  refine ⟨h.recordings, ?_, fun x hx => (List.suffix_cons r _).trans (hwithin x hx)⟩
  change t.elaboration.leave r = _
  rw [hnone, h.elaboration]
  exact Elaboration.leave_replay_enter

end Noted

/-! ## Scopes of objects that are cloned -/

namespace Cloning

/-- A name is bound in one of the tables. -/
theorem exists_adds_record (kind : BindingKind) (name : String) (r : Ref) (s : Noted) :
    ∃ sort, s.Adds [⟨sort, name, r, s.entered⟩] (record kind name r s) := by
  cases kind with
  | net => exact ⟨.net, s.adds_record .net name r⟩
  | param => exact ⟨.param, s.adds_record .param name r⟩

/-- An object that is a scope is entered before what it holds is cloned. -/
theorem entered_prepare (how : Method) (policy : PolicyTable) (copy : Ref) (s : Noted) :
    (how.prepare policy copy s).entered =
      if how.isScope policy then copy :: s.entered else s.entered := by
  have hrecord : (if how.custom = some .taskFunc ∧ how.name ≠ "" then
      Bindings.recordTaskFunc s how.name copy else s).entered = s.entered := by
    split
    · exact (s.adds_record .taskFunc how.name copy).entered
    · rfl
  unfold Method.prepare
  dsimp only
  split
  · exact congrArg (copy :: ·) hrecord
  · exact hrecord

/-- An object is cloned in a scope of its own or in that of its owner. In either case
    the scopes are the same when this is done, and at most its name is bound besides. -/
theorem exists_adds_conclude (how : Method) (policy : PolicyTable) (copy : Ref) (s : Noted) :
    ∃ own : List Recording, (∀ x ∈ own, x.name = how.name ∧ how.name ≠ "" ∧ x.object = copy) ∧
      ∀ l t, (how.prepare policy copy s).Adds l t →
        s.Adds (own ++ l) (how.conclude policy copy t) := by
  obtain ⟨own, t₁, hown, hown', hprepare⟩ : ∃ own t₁,
      (∀ x ∈ own, x.name = how.name ∧ how.name ≠ "" ∧ x.object = copy) ∧ s.Adds own t₁ ∧
        how.prepare policy copy s =
          if how.isScope policy then Bindings.enterScope t₁ copy else t₁ := by
    unfold Method.prepare
    split
    · rename_i h
      refine ⟨_, _, fun x hx => ?_, s.adds_record .taskFunc how.name copy, rfl⟩
      rw [List.mem_singleton.1 hx]
      exact ⟨rfl, h.2, rfl⟩
    · exact ⟨[], s, fun _ hx => absurd hx List.not_mem_nil, .refl s, rfl⟩
  -- The name was bound before the scope is entered, so it is still there when it is left.
  refine ⟨own, hown, fun l t h => hown'.trans ?_⟩
  rw [hprepare] at h
  unfold Method.conclude
  split
  · rename_i hscope
    rw [if_pos hscope] at h
    exact h.leave
  · rename_i hscope
    rwa [if_neg hscope] at h

end Cloning

namespace Cloner

/-- The state with nothing noted yet. -/
def noting (c : Cloner Elaboration) : Cloner Noted :=
  ⟨c.graph, { elaboration := c.bindings }, c.memo⟩

/-- Cloning an object while what is bound is noted. -/
def noteObject (c : Cloner Elaboration) (r : Ref) (parent : Option Ref) :
    Except GraphError Ref × Cloner Noted :=
  c.noting.cloneObject r parent

/-- What is bound while an object is cloned, in order. -/
def recordings (c : Cloner Elaboration) (r : Ref) (parent : Option Ref) : List Recording :=
  (c.noteObject r parent).2.bindings.recordings

/-- Noting what is bound makes no difference to what is cloned. -/
theorem cloneObject_eq_noted (c : Cloner Elaboration) (r : Ref) (parent : Option Ref) :
    c.cloneObject r parent =
      ((c.noteObject r parent).1, (c.noteObject r parent).2.mapBindings Noted.elaboration) :=
  cloneObject_mapBindings Noted.forgetful c.noting r parent

end Cloner

end ObjectModel
