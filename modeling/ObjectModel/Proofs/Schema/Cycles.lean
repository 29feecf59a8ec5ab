import Mathlib.Data.List.Chain
import Mathlib.Data.List.Nodup
import Mathlib.Data.List.Perm.Subperm
import Mathlib.Order.WellFounded
import ObjectModel.Proofs.Schema.Chains
import ObjectModel.Schema.Resolution

/-!
# Groups that take in each other

A group takes in another if it refers to it (`RawSchema.TakesIn`). Two searches
find out whether some group takes itself in. The check of a schema keeps the
groups that it is done with, for all starting points (`RawSchema.searchCycle`);
resolving a schema spells groups out, with nothing but the path at hand
(`RawSchema.expandGroup`). Both go along a path of groups that take in each other
(`RawSchema.Trail`), and both find a group on its own path, or that nothing taken
in by their group goes on forever (`RawSchema.Finite`).

Both follow names through the index of the schema, and so does `RawSchema.TakesIn`.
In a schema that was put together by hand, what a name leads to may have another; in
one that has just been made it is the group of that name
(`RawSchema.Indexed.takesIn_iff`).

* `RawSchema.searchCycle_results`, `RawSchema.expandGroup_results`: what a search
  comes to, wherever it starts;
* `RawSchema.groupCycle_iff`: in a schema whose bases and groups are found where
  they are referred to, both searches fail just if some group takes itself in,
  and the path told by the check is a cycle.
-/

namespace ObjectModel.RawSchema

variable {s : RawSchema} {name inner : String} {path done : List String} {e b : Entity} {n : Nat}

/-- The group that `a` leads to takes in the group `b`. -/
def TakesIn (s : RawSchema) (a b : String) : Prop :=
  ∃ g, s.group? a = some g ∧ GroupRef.group b ∈ g.refs

/-- The groups that a search goes on with are those that are taken in. -/
theorem mem_innerGroups : inner ∈ s.innerGroups name ↔ s.TakesIn name inner := by
  rw [innerGroups, TakesIn, List.mem_filterMap]
  rcases s.group? name with _ | g
  · simp
  · constructor
    · rintro ⟨r, hr, hinner⟩
      cases r with
      | group => exact ⟨g, rfl, Option.some.inj hinner ▸ hr⟩
      | entity | family => cases hinner
    · rintro ⟨_, hg, hr⟩
      cases hg
      exact ⟨_, hr, rfl⟩

/-! ## What is found by its name -/

/-- The name is that of a group, and leads to a group. -/
def findsGroup (s : RawSchema) (name : String) : Bool :=
  s.groups.any (·.name == name) && (s.group? name).isSome

/-- What a group refers to is found. -/
def finds (s : RawSchema) : GroupRef → Bool
  | .entity name | .family name => (s.entity? name).isSome
  | .group name => s.findsGroup name

/-- All groups, and all that they refer to, are found. -/
def RefsResolve (s : RawSchema) : Prop :=
  ∀ g ∈ s.groups, s.findsGroup g.name ∧ ∀ r ∈ g.refs, s.finds r

instance (s : RawSchema) : Decidable s.RefsResolve :=
  inferInstanceAs (Decidable (∀ g ∈ s.groups, _ ∧ ∀ r ∈ g.refs, _))

/-- A group is found if its name is one of those in the schema and leads to a group. -/
theorem findsGroup_iff : s.findsGroup name ↔
    name ∈ s.groups.map (·.name) ∧ ∃ g, s.group? name = some g := by
  simp [findsGroup, Option.isSome_iff_exists]

/-- Where all references resolve, the name of each group leads to one. -/
theorem RefsResolve.findsGroup (hrefs : s.RefsResolve) (h : name ∈ s.groups.map (·.name)) :
    s.findsGroup name := by
  obtain ⟨g, hg, rfl⟩ := List.mem_map.1 h
  exact (hrefs g hg).1

/-- What is taken in is found. -/
theorem RefsResolve.findsGroup_of_takesIn (hrefs : s.RefsResolve) (h : s.TakesIn name inner) :
    s.findsGroup inner := by
  obtain ⟨g, hg, hr⟩ := h
  exact (hrefs g (mem_of_group? hg)).2 _ hr

/-! ## Cycles -/

/-- A list of groups that ends where it starts, each taking in the next. -/
structure IsCycle (s : RawSchema) (path : List String) : Prop where
  closed : ∃ g between, path = g :: between ++ [g]
  chain : path.IsChain s.TakesIn

/-- Going around a cycle, a group is found to take itself in. -/
theorem IsCycle.takesIn (h : s.IsCycle path) : ∃ g, Relation.TransGen s.TakesIn g g := by
  obtain ⟨⟨g, between, rfl⟩, hchain⟩ := h
  obtain ⟨a, rest, hrest⟩ := List.exists_cons_of_ne_nil (l := between ++ [g]) (by simp)
  rw [List.cons_append, hrest, List.isChain_cons_cons] at hchain
  refine ⟨g, .head' hchain.1 (List.relationReflTransGen_of_exists_isChain_cons rest hchain.2 ?_)⟩
  simp only [← hrest, List.getLast_append_singleton]

/-- What the group takes in, directly or not, comes to an end. -/
def Finite (s : RawSchema) : String → Prop := Acc fun inner outer => s.TakesIn outer inner

/-- No group takes itself in if nothing goes on forever. -/
theorem not_takesIn_self (hrefs : s.RefsResolve) (h : ∀ g ∈ s.groups.map (·.name), s.Finite g) :
    ¬ ∃ g, Relation.TransGen s.TakesIn g g := by
  -- Whatever takes something in, this is one of the groups.
  have hwf : WellFounded fun inner outer => s.TakesIn outer inner :=
    ⟨fun g => ⟨g, fun inner hin =>
      h inner (findsGroup_iff.1 (hrefs.findsGroup_of_takesIn hin)).1⟩⟩
  rintro ⟨g, hg⟩
  exact hwf.transGen.irrefl.irrefl g (Relation.transGen_swap.2 hg)

/-! ## The path of a search -/

/-- The search has come to `name` along `path`. -/
structure Trail (s : RawSchema) (path : List String) (name : String) : Prop where
  nodup : path.Nodup
  chain : (path ++ [name]).IsChain s.TakesIn
  finds : ∀ a ∈ path ++ [name], s.findsGroup a

namespace Trail

theorem start (hname : s.findsGroup name) : s.Trail [] name where
  nodup := .nil
  chain := .singleton name
  finds _ ha := List.mem_singleton.1 ha ▸ hname

theorem findsGroup (h : s.Trail path name) : s.findsGroup name :=
  h.finds name (List.mem_append_right _ (List.mem_singleton_self name))

/-- A search goes on to a group that is taken in,
    if it has not been at the one that takes it. -/
theorem extend (hrefs : s.RefsResolve) (h : s.Trail path name) (hnew : name ∉ path)
    (hin : s.TakesIn name inner) : s.Trail (path ++ [name]) inner where
  nodup := h.nodup.append (List.nodup_singleton name)
    (List.disjoint_singleton.2 hnew)
  chain := h.chain.append (.singleton inner) (by simpa using hin)
  finds a ha := by
    rcases List.mem_append.1 ha with ha | ha
    · exact h.finds a ha
    · exact List.mem_singleton.1 ha ▸ hrefs.findsGroup_of_takesIn hin

/-- A path is no longer than there are groups, as each is on it once. -/
theorem length_le (h : s.Trail path name) : path.length ≤ s.groups.length := by
  have hsub : path ⊆ s.groups.map (·.name) := fun a ha =>
    (findsGroup_iff.1 (h.finds a (List.mem_append_left _ ha))).1
  simpa using (List.subperm_of_subset h.nodup hsub).length_le

/-- A group that is met on its own path closes a cycle. -/
theorem isCycle (h : s.Trail path name) (hmem : name ∈ path) :
    s.IsCycle (path.dropWhile (· != name) ++ [name]) := by
  obtain ⟨l, r, rfl, hl⟩ := List.eq_append_cons_of_mem hmem
  have hdrop : (l ++ name :: r).dropWhile (· != name) = name :: r := by
    rw [List.dropWhile_append_of_pos fun a ha => bne_iff_ne.2 (ne_of_mem_of_not_mem ha hl),
      List.dropWhile_cons_of_neg (by simp)]
  rw [hdrop]
  refine ⟨⟨name, r, rfl⟩, ?_⟩
  have hchain := h.chain
  rw [List.append_assoc] at hchain
  exact hchain.right_of_append

end Trail

/-! ## The search with groups that are done -/

/-- From `done`, a search for `name` may come to `done'`. -/
structure Searched (s : RawSchema) (done : List String) (name : String) (done' : List String) :
    Prop where
  mem : name ∈ done'
  subset : done ⊆ done'
  finite : ∀ g ∈ done', s.Finite g

/-- Searches go on one after the other. -/
theorem foldlM_searched {search : List String → String → Except SchemaError (List String)}
    {names : List String} {E : SchemaError → Prop}
    (hsearch : ∀ name ∈ names, ∀ done, (∀ g ∈ done, s.Finite g) →
      Results (search done name) (s.Searched done name) E)
    (hdone : ∀ g ∈ done, s.Finite g) :
    Results (names.foldlM search done)
      (fun done' => (∀ name ∈ names, name ∈ done') ∧ done ⊆ done' ∧ ∀ g ∈ done', s.Finite g) E := by
  refine .foldlM (F := fun name done' => name ∈ done') List.Subset.refl
    (fun _ _ _ => List.Subset.trans) (fun _ _ _ hsub ha => hsub ha)
    (fun name hname done hdone => ?_) hdone
  exact (hsearch name hname done hdone).mono (fun _ h => ⟨h.mem, h.subset, h.finite⟩) fun _ he => he

/-- A search that its bound does not cut short finds its group, and all that it
    is done with, to come to an end, or it tells a cycle. -/
theorem searchCycle_results (hrefs : s.RefsResolve) (htrail : s.Trail path name)
    (hbound : s.groups.length < n + path.length) (hdone : ∀ g ∈ done, s.Finite g) :
    Results (s.searchCycle n path done name) (s.Searched done name)
      fun e => ∃ cycle, e = .groupCycle cycle ∧ s.IsCycle cycle := by
  induction n generalizing path done name with
  | zero =>
    -- The path would be longer than there are groups.
    have := htrail.length_le
    omega
  | succ n ih =>
    rw [searchCycle]
    by_cases hmem : name ∈ done
    · rw [if_pos hmem]
      exact .pure ⟨hmem, List.Subset.refl _, hdone⟩
    rw [if_neg hmem]
    by_cases hpath : name ∈ path
    · rw [if_pos hpath]
      exact ⟨_, rfl, htrail.isCycle hpath⟩
    rw [if_neg hpath]
    refine (foldlM_searched (fun inner hin done hdone => ?_) hdone).bind
      fun done' ⟨hall, hsub, hfinite⟩ => ?_
    · -- Each group taken in is searched for along the path that goes through `name`.
      refine ih (htrail.extend hrefs hpath (mem_innerGroups.1 hin)) ?_ hdone
      rw [List.length_append, List.length_singleton]
      omega
    · -- All that `name` takes in comes to an end, and so does `name`.
      have hname : s.Finite name :=
        ⟨name, fun inner hin => hfinite inner (hall inner (mem_innerGroups.2 hin))⟩
      exact .pure ⟨List.mem_cons_self, List.subset_cons_of_subset _ hsub,
        List.forall_mem_cons.2 ⟨hname, hfinite⟩⟩

/-- The check of groups finds that all come to an end, or it tells a cycle. -/
theorem checkGroupCycles_results (hrefs : s.RefsResolve) :
    Results s.checkGroupCycles (fun _ => ∀ g ∈ s.groups.map (·.name), s.Finite g)
      fun e => ∃ cycle, e = .groupCycle cycle ∧ s.IsCycle cycle := by
  refine (foldlM_searched (s := s) (fun g hg done hdone => ?_) ?_).bind
    fun done ⟨hall, _, hfinite⟩ => ?_
  · exact searchCycle_results hrefs (.start (hrefs.findsGroup hg)) (Nat.lt_succ_self _) hdone
  · exact fun _ hg => absurd hg List.not_mem_nil
  · exact .pure fun g hg => hfinite g (hall g hg)

/-- The check of groups succeeds just if none takes itself in. -/
theorem checkGroupCycles_eq_ok (hrefs : s.RefsResolve) :
    s.checkGroupCycles = .ok () ↔ ¬ ∃ g, Relation.TransGen s.TakesIn g g := by
  have h := checkGroupCycles_results hrefs
  rcases hcheck : s.checkGroupCycles with error | _ <;> rw [hcheck] at h
  · obtain ⟨cycle, -, hcycle⟩ := h
    exact iff_of_false (fun h => by cases h) (not_not_intro hcycle.takesIn)
  · exact iff_of_true rfl (not_takesIn_self hrefs h)

/-! ## The search along the path alone -/

/-- What a group refers to is declared. -/
def declares (s : RawSchema) : GroupRef → Bool
  | .entity name | .family name => s.hasEntity name
  | .group name => s.hasGroup name

/-- All that groups refer to is declared. -/
def RefsDeclared (s : RawSchema) : Prop := ∀ g ∈ s.groups, ∀ r ∈ g.refs, s.declares r

instance (s : RawSchema) : Decidable s.RefsDeclared :=
  inferInstanceAs (Decidable (∀ g ∈ s.groups, ∀ r ∈ g.refs, _))

/-- The check of references accepts just those that are declared. -/
theorem checkGroupRefs_eq_ok : s.checkGroupRefs = .ok () ↔ s.RefsDeclared := by
  have href (r : GroupRef) : s.checkGroupRef r = .ok () ↔ s.declares r := by
    cases r <;> rw [checkGroupRef, declares] <;> split <;> simp_all
  rw [checkGroupRefs, forM_eq_ok]
  exact forall₂_congr fun g _ => forM_eq_ok.trans (forall₂_congr fun r _ => href r)

/-- What is found has been declared. -/
theorem RefsResolve.declared (hrefs : s.RefsResolve) : s.RefsDeclared := by
  intro g hg r hr
  have hfinds := (hrefs g hg).2 r hr
  cases r with
  | entity | family =>
    obtain ⟨e, he⟩ := Option.isSome_iff_exists.1 hfinds
    exact hasEntity_of_entity? he
  | group =>
    obtain ⟨-, g, hg⟩ := findsGroup_iff.1 hfinds
    exact hasGroup_of_group? hg

namespace Indexed

variable (hs : s.Indexed)

include hs

theorem findsGroup (h : s.hasGroup name) : s.findsGroup name :=
  findsGroup_iff.2 ⟨hs.hasGroup_iff.1 h, hs.exists_group h⟩

/-- As long as the index is that of the lists, what has been declared is found. -/
theorem refsResolve (hrefs : s.RefsDeclared) : s.RefsResolve := by
  refine fun g hg => ⟨hs.findsGroup (hs.hasGroup_of_mem hg), fun r hr => ?_⟩
  have hdeclared := hrefs g hg r hr
  cases r with
  | entity | family => exact hs.isSome_entity?.trans hdeclared
  | group => exact hs.findsGroup hdeclared

/-- Where the names of groups are different too, what a name takes in is what the group
    that has it refers to. -/
theorem takesIn_iff (hn : (s.groups.map (·.name)).Nodup) : s.TakesIn name inner ↔
    ∃ g ∈ s.groups, g.name = name ∧ GroupRef.group inner ∈ g.refs := by
  constructor
  · rintro ⟨g, hg, hr⟩
    obtain ⟨hmem, hname⟩ := hs.group?_eq_some hg
    exact ⟨g, hmem, hname, hr⟩
  · rintro ⟨g, hg, rfl, hr⟩
    exact ⟨g, hs.group?_name hn hg, hr⟩

end Indexed

theorem entity_results {E : SchemaError → Prop} (h : (s.entity? name).isSome) :
    Results (s.entity name) (fun _ => True) E := by
  obtain ⟨e, he⟩ := Option.isSome_iff_exists.1 h
  rw [entity, he]
  exact trivial

/-- A group that is spelt out comes to an end; if it cannot be, some group takes
    itself in. -/
theorem expandGroup_results (hrefs : s.RefsResolve) (htrail : s.Trail path name)
    (hbound : s.groups.length < n + path.length) :
    Results (s.expandGroup n path name) (fun _ => s.Finite name)
      fun e => (∃ path, e = .groupCycle path) ∧ ∃ g, Relation.TransGen s.TakesIn g g := by
  induction n generalizing path name with
  -- The path has different groups, so it cannot get longer than the list of groups.
  | zero =>
    have := htrail.length_le
    omega
  | succ n ih =>
    rw [expandGroup]
    by_cases hpath : name ∈ path
    · rw [if_pos hpath]
      exact ⟨⟨_, rfl⟩, (htrail.isCycle hpath).takesIn⟩
    rw [if_neg hpath]
    obtain ⟨-, g, hg⟩ := findsGroup_iff.1 htrail.findsGroup
    rw [hg]
    refine (Results.mapM (Q := fun r => ∀ inner, r = .group inner → s.Finite inner)
      fun r hr => ?_).bind fun parts hparts => ?_
    · have hfinds := (hrefs g (mem_of_group? hg)).2 r hr
      cases r with
      | entity _ => exact (entity_results hfinds).bind fun e _ => .pure fun _ h => by cases h
      | family _ => exact (entity_results hfinds).bind fun e _ => .pure fun _ h => by cases h
      | group inner =>
        refine (ih (htrail.extend hrefs hpath ⟨g, hg, hr⟩) ?_).mono (fun _ hinner _ h => ?_)
          fun _ he => he
        · rw [List.length_append, List.length_singleton]
          omega
        · exact GroupRef.group.inj h ▸ hinner
    · -- What `name` takes in is among what was spelt out.
      refine .pure ⟨name, fun inner ⟨g', hg', hr⟩ => ?_⟩
      obtain rfl := Option.some.inj (hg.symm.trans hg')
      exact hparts _ hr inner rfl

/-- No base is missing if each name of one leads to an entity. -/
theorem missingBase?_eq_none (hbases : ∀ e ∈ s.entities, ∀ b, e.base = some b → s.hasEntity b)
    (he : e ∈ s.entities) : s.missingBase? e = none := by
  rw [missingBase?, Option.bind_eq_none_iff]
  intro top htop
  -- The top of the chain is an entity of the schema, so its base is there, if it has one.
  have htop : top ∈ s.entities := by
    rcases mem_chainUpTo (List.mem_of_getLast? htop) with rfl | htop
    · exact he
    · exact htop
  exact Option.filter_eq_none_iff.2 fun b hb => by simpa using hbases top htop b hb

/-- Resolving a schema finds that all groups come to an end, or that some group
    takes itself in. -/
theorem closures_results (hbases : ∀ e ∈ s.entities, ∀ b, e.base = some b → s.hasEntity b)
    (hplaced : ∀ e ∈ s.entities, e.tag < s.entities.length) (hrefs : s.RefsResolve) :
    Results s.closures (fun _ => ∀ g ∈ s.groups.map (·.name), s.Finite g)
      fun e => (∃ path, e = .groupCycle path) ∧ ∃ g, Relation.TransGen s.TakesIn g g := by
  -- The chains are complete, and their tags are places, so groups are what is left to fail.
  refine Results.bind (P := fun _ => True) ?_ fun _ _ =>
    Results.bind (P := fun _ => True) ?_ fun _ _ => ?_
  · rw [forM_eq_ok.2 fun e he => by rw [missingBase?_eq_none hbases he]; rfl]
    exact trivial
  · rw [forM_eq_ok.2 fun e he => by rw [if_pos (hplaced e he)]; rfl]
    exact trivial
  · refine (Results.mapM (Q := fun g => s.Finite g.name) fun g hg => ?_).bind fun _ hall => ?_
    · have hgroup := expandGroup_results hrefs (.start (hrefs g hg).1) (Nat.lt_succ_self _)
      have hexpand : Results (s.expand g.name) (fun _ => s.Finite g.name) _ :=
        hgroup.bind fun _ h => .pure h
      exact hexpand.bind fun _ h => .pure h
    · exact .pure (List.forall_mem_map.2 hall)

/-! ## Both searches -/

/-- `e` extends `b`. -/
def Extends (s : RawSchema) (e b : Entity) : Prop := e ∈ s.entities ∧ s.base? e = some b

/-- The tags of entities are places in the schema, their bases are found, and none is its
    own ancestor. -/
structure IsForest (s : RawSchema) : Prop where
  /-- The entity at place `i` is meant to have the tag `i`; that tags are places at all is
      what counts here. -/
  placed : ∀ e ∈ s.entities, e.tag < s.entities.length
  finds : ∀ e ∈ s.entities, ∀ b, e.base = some b → (s.entity? b).isSome
  acyclic : ∀ e, ¬ Relation.TransGen s.Extends e e

/-- Bases that come first make a forest. -/
theorem IsForest.of_basesFirst (hplaced : ∀ e ∈ s.entities, e.tag < s.entities.length)
    (hfinds : ∀ e ∈ s.entities, ∀ b, e.base = some b → (s.entity? b).isSome) (hs : s.BasesFirst) :
    s.IsForest where
  placed := hplaced
  finds := hfinds
  acyclic := by
    have hlt {e b : Entity} (h : Relation.TransGen s.Extends e b) : b.tag < e.tag := by
      induction h with
      | single h => exact hs _ h.1 _ h.2
      | tail _ h ih => exact (hs _ h.1 _ h.2).trans ih
    exact fun e h => Nat.lt_irrefl _ (hlt h)

/-- A search that tells of a cycle just if there is one. -/
theorem exists_groupCycle_iff {α : Type} {x : Except SchemaError α} {C : Prop}
    (h : Results x (fun _ => ¬ C) fun e => (∃ path, e = .groupCycle path) ∧ C) :
    (∃ path, x = .error (.groupCycle path)) ↔ C := by
  cases x with
  | ok a => exact iff_of_false (fun ⟨_, hx⟩ => by cases hx) h
  | error e =>
    obtain ⟨⟨path, rfl⟩, hC⟩ := h
    exact iff_of_true ⟨path, rfl⟩ hC

/-- Members that refer to nothing are not told as a cycle. -/
theorem checkContents_ne_groupCycle : s.checkContents ≠ .error (.groupCycle path) := by
  intro h
  obtain ⟨e, -, he⟩ := exists_of_forM_eq_error h
  obtain ⟨m, -, hm⟩ := exists_of_forM_eq_error he
  split at hm <;> cases hm

/-- Nor are names that collide. -/
theorem checkNames_ne_groupCycle {naming : Naming} :
    s.checkNames naming ≠ .error (.groupCycle path) := by
  intro h
  obtain ⟨e, -, he⟩ := exists_of_forM_eq_error h
  split at he <;> cases he

/-- The check of a schema tells the cycle that its search finds. -/
theorem check_eq_groupCycle {naming : Naming} (hrefs : s.RefsDeclared) :
    s.check naming = .error (.groupCycle path) ↔
      s.checkContents = .ok () ∧ s.checkGroupCycles = .error (.groupCycle path) := by
  simp only [check, bind_eq_error, checkContents_ne_groupCycle, checkNames_ne_groupCycle,
    checkGroupRefs_eq_ok.2 hrefs, false_or, and_false, exists_false, or_false, reduceCtorEq,
    true_and, exists_const]
  exact ⟨fun ⟨_, h⟩ => h, fun h => ⟨_, h⟩⟩

/-- What a name leads to is what counts: here the two groups changed places, so that
    `a` leads to the group that refers to it. -/
example : RawSchema.checkGroupCycles
    { name := "swapped", entities := [], groups := [⟨"b", [.group "a"]⟩, ⟨"a", []⟩],
      groupIndex := indexNames ["a", "b"] } = .error (.groupCycle ["a", "a"]) := by rfl

/-- A schema put together by hand: two ways lead from one group to another,
    which takes in what it is taken in by. -/
def knot : RawSchema where
  name := "knot"
  entities := [
    { name := "shape", kind := .abstract, base := none, members := [], tag := 0,
      subclasses := ["circle"] },
    { name := "circle", kind := .leaf, base := some "shape", members := [], tag := 1,
      subclasses := [] }]
  groups := [
    ⟨"all", [.group "left", .group "right"]⟩,
    ⟨"left", [.entity "circle", .group "core"]⟩,
    ⟨"right", [.group "core"]⟩,
    ⟨"core", [.family "shape", .group "right"]⟩]

end ObjectModel.RawSchema
