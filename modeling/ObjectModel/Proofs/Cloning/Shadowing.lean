import Mathlib.Data.List.Induction
import ObjectModel.Proofs.Cloning.Scopes

/-!
# What a name means

While a design is elaborated, names are bound as nets, as parameters and as tasks
or functions, in the scope that is the innermost at the time. Each of these is
looked for from the innermost frame outward. But a name of any sort is looked for
as a net first, in all frames, and only then as the others. So it does not always
mean what the innermost frame says that binds it (`Elaboration.Lexical`): a net
further out comes before a parameter further in
(`Elaboration.bindAny_not_lexical`). `Elaboration.lexical_run_iff` tells what a
name means, and when it means what it should.
-/

namespace ObjectModel

/-- What a name may be bound as. -/
inductive NameSort
  | net
  | param
  | taskFunc
deriving DecidableEq

/-- All of them, in the order in which a name is looked for. -/
def NameSort.all : List NameSort := [net, param, taskFunc]

theorem NameSort.mem_all (sort : NameSort) : sort ∈ all := by cases sort <;> decide

namespace Frame

/-- The table of names that are bound as this. -/
def table (f : Frame) : NameSort → NameTable
  | .net => f.nets
  | .param => f.params
  | .taskFunc => f.taskFuncs

/-- The frame with one more name. -/
def insert (f : Frame) (name : String) (r : Ref) : NameSort → Frame
  | .net => { f with nets := f.nets.insert name r }
  | .param => { f with params := f.params.insert name r }
  | .taskFunc => { f with taskFuncs := f.taskFuncs.insert name r }

/-- What the frame binds a name to, whatever it is bound as. -/
def bound (f : Frame) (name : String) : List Ref :=
  NameSort.all.filterMap fun sort => (f.table sort).get? name

variable {f : Frame} {name other : String} {sort sort' : NameSort} {r s : Ref}

theorem mem_bound : r ∈ f.bound name ↔ ∃ sort, (f.table sort).get? name = some r := by
  rw [bound, List.mem_filterMap]
  exact exists_congr fun sort => and_iff_right sort.mem_all

theorem bound_eq_nil : f.bound name = [] ↔ ∀ sort, (f.table sort).get? name = none := by
  rw [bound, List.filterMap_eq_nil_iff]
  exact forall_congr' fun sort => forall_prop_of_true sort.mem_all

theorem table_insert : (f.insert name r sort).table sort' =
    if sort' = sort then (f.table sort').insert name r else f.table sort' := by
  cases sort <;> cases sort' <;> rfl

/-- What is found in a frame was there, or was put in under its name. -/
theorem get?_table_insert (h : ((f.insert name r sort).table sort').get? other = some s) :
    (sort' = sort ∧ other = name ∧ s = r) ∨ (f.table sort').get? other = some s := by
  rw [table_insert] at h
  split at h
  · rw [SortedMap.get?_insert] at h
    split at h
    · exact .inl ⟨‹_›, ‹_›, (Option.some.inj h).symm⟩
    · exact .inr h
  · exact .inr h

end Frame

namespace Elaboration

/-- What may happen to bindings. -/
inductive Operation
  /-- A name is bound from outside. -/
  | bind (name : String) (r : Ref)
  /-- A name is bound in the innermost scope. -/
  | record (sort : NameSort) (name : String) (r : Ref)
  | enter (scope : Ref)
  | leave (scope : Ref)
deriving DecidableEq

/-- The bindings after an operation. -/
def perform (e : Elaboration) : Operation → Elaboration
  | .bind name r => e.bind name r
  | .record .net name r => Bindings.recordNet e name r
  | .record .param name r => Bindings.recordParam e name r
  | .record .taskFunc name r => Bindings.recordTaskFunc e name r
  | .enter scope => Bindings.enterScope e scope
  | .leave scope => Bindings.leaveScope e scope

/-- The bindings after a run from the start. -/
def run (uniquify : Bool) (ops : List Operation) : Elaboration :=
  ops.foldl perform { uniquify }

/-- The innermost frame that binds a name, whatever it is bound as. -/
def innermost? (e : Elaboration) (name : String) : Option Frame :=
  e.frames.find? fun f => f.bound name ≠ []

/-- What the name should mean: something that the innermost frame binds it to that
    binds it, and nothing if no frame does. -/
def meanings (e : Elaboration) (name : String) : List (Option Ref) :=
  match e.innermost? name with
  | some f => (f.bound name).map some
  | none => [none]

/-- The name means what it should. -/
def Lexical (e : Elaboration) (name : String) : Prop :=
  Bindings.bindAny e name ∈ e.meanings name

instance (e : Elaboration) (name : String) : Decidable (e.Lexical name) :=
  inferInstanceAs (Decidable (_ ∈ _))

/-- What the name is taken for: the first that some frame binds it as. -/
def leading? (e : Elaboration) (name : String) : Option NameSort :=
  NameSort.all.find? fun sort => (e.lookup (·.table sort) name).isSome

variable {e : Elaboration} {name : String} {r : Ref} {f : Frame} {sort : NameSort}
  {ops : List Operation}

/-! ## Looking up -/

/-- What is found is bound by the first of the frames that binds the name as this sort. -/
theorem lookup_eq_some : e.lookup (·.table sort) name = some r ↔ ∃ inner f outer,
    e.frames = inner ++ f :: outer ∧ (f.table sort).get? name = some r ∧
      ∀ g ∈ inner, (g.table sort).get? name = none :=
  List.findSome?_eq_some_iff

theorem lookup_eq_none : e.lookup (·.table sort) name = none ↔
    ∀ f ∈ e.frames, (f.table sort).get? name = none :=
  List.findSome?_eq_none_iff

/-- A name that is not bound from outside means what it does as the first that any
    frame binds it as. -/
theorem bindAny_eq (hname : e.explicit.get? name = none) :
    Bindings.bindAny e name = (e.leading? name).bind fun sort => e.lookup (·.table sort) name := by
  have hsorts : Bindings.bindAny e name = (e.explicit.get? name <|>
      e.lookup (·.table .net) name <|> e.lookup (·.table .param) name <|>
      e.lookup (·.table .taskFunc) name) := rfl
  rw [hsorts, hname, leading?, NameSort.all]
  simp only [List.find?_cons, List.find?_nil]
  cases hnet : e.lookup (·.table .net) name with
  | some r => simp [hnet]
  | none =>
    cases hparam : e.lookup (·.table .param) name with
    | some r => simp [hparam]
    | none => cases htask : e.lookup (·.table .taskFunc) name <;> simp [htask]

/-- No sort comes first for a name that nothing binds. -/
theorem leading?_eq_none : e.leading? name = none ↔ ∀ f ∈ e.frames, f.bound name = [] := by
  rw [leading?, List.find?_eq_none]
  simp only [Bool.not_eq_true, Option.isSome_eq_false_iff, Option.isNone_iff_eq_none,
    lookup_eq_none, Frame.bound_eq_nil]
  exact ⟨fun h f hf sort => h sort sort.mem_all f hf, fun h sort _ f hf => h f hf sort⟩

theorem exists_lookup (h : e.leading? name = some sort) :
    ∃ r, e.lookup (·.table sort) name = some r := by
  have hsome := List.find?_some h
  exact Option.isSome_iff_exists.1 hsome

theorem innermost?_eq_none : e.innermost? name = none ↔ ∀ f ∈ e.frames, f.bound name = [] := by
  simp [innermost?]

/-- The innermost frame that binds a name comes before all others that do. -/
theorem innermost?_eq_some : e.innermost? name = some f ↔ f.bound name ≠ [] ∧
    ∃ inner outer, e.frames = inner ++ f :: outer ∧ ∀ g ∈ inner, g.bound name = [] := by
  simp [innermost?, List.find?_eq_some_iff_append]

/-- Nothing is found under a name if no frame binds it. -/
theorem bindAny_eq_none (hname : e.explicit.get? name = none) :
    Bindings.bindAny e name = none ↔ ∀ f ∈ e.frames, f.bound name = [] := by
  rw [bindAny_eq hname, ← leading?_eq_none]
  cases hsort : e.leading? name with
  | none => simp
  | some sort =>
    obtain ⟨r, hr⟩ := exists_lookup hsort
    simp [hr]

/-- What the innermost frame binds that binds the name, or else what is found
    further out. -/
theorem lookup_of_innermost {inner outer : List Frame} (hframes : e.frames = inner ++ f :: outer)
    (hinner : ∀ g ∈ inner, g.bound name = []) : e.lookup (·.table sort) name =
      ((f.table sort).get? name).or (outer.findSome? fun g => (g.table sort).get? name) := by
  have hnone : inner.findSome? (fun g => (g.table sort).get? name) = none :=
    List.findSome?_eq_none_iff.2 fun g hg => Frame.bound_eq_nil.1 (hinner g hg) sort
  rw [lookup, hframes, List.findSome?_append, hnone, Option.none_or, List.findSome?_cons]
  cases (f.table sort).get? name <;> rfl

/-- The name is taken from the innermost frame that binds it: that frame does not
    have it as what the name is taken for, and a frame further out has, for an
    object that the innermost one does not bind to the name. -/
def Captured (e : Elaboration) (name : String) : Prop :=
  ∃ inner f outer sort r, e.frames = inner ++ f :: outer ∧ (∀ g ∈ inner, g.bound name = []) ∧
    e.leading? name = some sort ∧ (f.table sort).get? name = none ∧
    (outer.findSome? fun g => (g.table sort).get? name) = some r ∧
    f.bound name ≠ [] ∧ r ∉ f.bound name

/-- A name means what it should unless it is taken from the innermost frame. -/
theorem lexical_iff (hname : e.explicit.get? name = none) :
    e.Lexical name ↔ ¬ e.Captured name := by
  rw [Lexical, meanings, bindAny_eq hname]
  -- The frame that decides is the innermost one that binds the name at all.
  cases hf : e.innermost? name with
  | none =>
    have hnone := innermost?_eq_none.1 hf
    rw [leading?_eq_none.2 hnone]
    refine iff_of_true List.mem_cons_self ?_
    rintro ⟨inner, f, outer, sort, r, hframes, -, -, -, -, hbound, -⟩
    exact hbound (hnone f (hframes ▸ List.mem_append_right _ List.mem_cons_self))
  | some f =>
    obtain ⟨hbound, inner, outer, hframes, hinner⟩ := innermost?_eq_some.1 hf
    have hleading : e.leading? name ≠ none := fun h => hbound
      (leading?_eq_none.1 h f (hframes ▸ List.mem_append_right _ List.mem_cons_self))
    obtain ⟨sort, hsort⟩ := Option.ne_none_iff_exists'.1 hleading
    obtain ⟨r, hr⟩ := exists_lookup hsort
    simp only [hsort, Option.bind_some, hr, List.mem_map, Option.some.injEq, exists_eq_right]
    constructor
    · rintro hmem
        ⟨inner', f', outer', sort', s, hframes', hinner', hsort', hnone, hs, hbound', hnot⟩
      have hf' := innermost?_eq_some.2 ⟨hbound', inner', outer', hframes', hinner'⟩
      obtain rfl := Option.some.inj (hf.symm.trans hf')
      obtain rfl := Option.some.inj (hsort.symm.trans hsort')
      rw [lookup_of_innermost hframes' hinner', hnone, Option.none_or, hs] at hr
      exact hnot (Option.some.inj hr ▸ hmem)
    · intro hfree
      by_contra hnot
      rw [lookup_of_innermost hframes hinner] at hr
      cases hget : (f.table sort).get? name with
      | some s =>
        rw [hget] at hr
        exact hnot (Frame.mem_bound.2 ⟨sort, hget.trans hr⟩)
      | none =>
        rw [hget, Option.none_or] at hr
        exact hfree ⟨inner, f, outer, sort, r, hframes, hinner, hsort, hget, hr, hbound, hnot⟩

/-! ## Runs -/

/-- What frames bind after an operation they bound before, or it was recorded. -/
theorem get?_perform {op : Operation} (hf : f ∈ (e.perform op).frames)
    (hr : (f.table sort).get? name = some r) :
    op = .record sort name r ∨ ∃ g ∈ e.frames, (g.table sort).get? name = some r := by
  -- A record goes into the innermost frame, so the others are as they were.
  have hrecord {sort' : NameSort} {name' : String} {r' : Ref}
      (hf : f ∈ (e.record (·.insert name' r' sort')).frames) :
      Operation.record sort' name' r' = .record sort name r ∨
        ∃ g ∈ e.frames, (g.table sort).get? name = some r := by
    rw [frames_record] at hf
    cases hframes : e.frames with
    | nil => simp [hframes] at hf
    | cons g rest =>
      rw [hframes, List.modifyHead_cons, List.mem_cons] at hf
      rcases hf with rfl | hf
      · rcases Frame.get?_table_insert hr with ⟨rfl, rfl, rfl⟩ | hr
        · exact .inl rfl
        · exact .inr ⟨g, List.mem_cons_self, hr⟩
      · exact .inr ⟨f, List.mem_cons_of_mem _ hf, hr⟩
  cases op with
  | bind name' r' => exact .inr ⟨f, hf, hr⟩
  | record sort' name' r' => cases sort' <;> exact hrecord hf
  | enter scope =>
    rcases List.mem_cons.1 hf with rfl | hf
    · cases sort <;> cases hr
    · exact .inr ⟨f, hf, hr⟩
  | leave scope => exact .inr ⟨f, (frames_leave scope).mem hf, hr⟩

/-- What frames bind after a run was recorded on the way. -/
theorem get?_run {uniquify : Bool} (hf : f ∈ (run uniquify ops).frames)
    (hr : (f.table sort).get? name = some r) : .record sort name r ∈ ops := by
  induction ops using List.reverseRecOn generalizing f with
  | nil =>
    rw [List.mem_singleton.1 hf] at hr
    cases sort <;> cases hr
  | append_singleton ops op ih =>
    rw [run, List.foldl_append, List.foldl_cons, List.foldl_nil] at hf
    rcases get?_perform hf hr with rfl | ⟨g, hg, hr⟩
    · exact List.mem_append_right _ List.mem_cons_self
    · exact List.mem_append_left _ (ih hg hr)

/-- What a name means after a run that is not bound from outside: what the
    innermost frame binds it to that has it as the first that any frame has it as.
    This is what the innermost frame binds it to that binds it at all, unless it is
    taken from there, which does not happen to a name that is recorded as one
    thing only. -/
theorem lexical_run_iff {uniquify : Bool} (hname : (run uniquify ops).explicit.get? name = none) :
    (∀ r, Bindings.bindAny (run uniquify ops) name = some r ↔
      ∃ sort, (run uniquify ops).leading? name = some sort ∧
        ∃ inner f outer, (run uniquify ops).frames = inner ++ f :: outer ∧
          (f.table sort).get? name = some r ∧ ∀ g ∈ inner, (g.table sort).get? name = none) ∧
    (Bindings.bindAny (run uniquify ops) name = none ↔
      ∀ f ∈ (run uniquify ops).frames, f.bound name = []) ∧
    ((run uniquify ops).Lexical name ↔ ¬ (run uniquify ops).Captured name) ∧
    ((∀ sort sort' r r', .record sort name r ∈ ops → .record sort' name r' ∈ ops →
      sort = sort') → (run uniquify ops).Lexical name) := by
  refine ⟨fun r => ?_, bindAny_eq_none hname, lexical_iff hname, fun honce => ?_⟩
  · simp only [bindAny_eq hname, Option.bind_eq_some_iff, lookup_eq_some]
  · rw [lexical_iff hname]
    rintro ⟨inner, f, outer, sort, r, hframes, -, -, hnone, hr, hbound, -⟩
    -- The frames further out have the name as another thing than the innermost one.
    obtain ⟨s, hs⟩ := List.exists_mem_of_ne_nil _ hbound
    obtain ⟨sort', hs⟩ := Frame.mem_bound.1 hs
    obtain ⟨g, hg, hr⟩ := List.exists_of_findSome?_eq_some hr
    have hsort := honce sort sort' r s
      (get?_run (hframes ▸ List.mem_append_right _ (List.mem_cons_of_mem _ hg)) hr)
      (get?_run (hframes ▸ List.mem_append_right _ List.mem_cons_self) hs)
    rw [hsort, hs] at hnone
    cases hnone

/-- A net in a scope hides one outside, whatever else is bound there. -/
theorem lexical_run_iff_nets :
    let ops : List Operation := [.record .net "a" ⟨0, 0⟩, .record .taskFunc "b" ⟨0, 1⟩,
      .enter ⟨1, 0⟩, .record .param "b" ⟨0, 2⟩, .record .net "a" ⟨0, 3⟩]
    (run false ops).Lexical "a" ∧ Bindings.bindAny (run false ops) "a" = some ⟨0, 3⟩ := by
  intro ops
  refine ⟨(lexical_run_iff (by decide +kernel)).2.2.2 fun sort sort' r r' h h' => ?_,
    by decide +kernel⟩
  simp only [ops, List.mem_cons, Operation.record.injEq, reduceCtorEq, List.not_mem_nil, or_false,
    false_or, String.reduceEq, false_and, and_false, true_and] at h h'
  rcases h with ⟨rfl, -⟩ | ⟨rfl, -⟩ <;> rcases h' with ⟨rfl, -⟩ | ⟨rfl, -⟩ <;> rfl

/-- A net outside comes before the parameter in the scope that has its name. -/
theorem bindAny_not_lexical :
    let e := run false [.record .net "a" ⟨0, 0⟩, .enter ⟨1, 0⟩, .record .param "a" ⟨0, 1⟩]
    e.explicit.get? "a" = none ∧ (e.innermost? "a").map (·.bound "a") = some [⟨0, 1⟩] ∧
      Bindings.bindAny e "a" = some ⟨0, 0⟩ ∧ ¬ e.Lexical "a" := by
  decide +kernel

end Elaboration

end ObjectModel
