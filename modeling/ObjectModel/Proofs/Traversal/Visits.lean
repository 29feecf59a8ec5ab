import ObjectModel.Graph.Traversal
import ObjectModel.Proofs.Graph.Typing
import ObjectModel.Proofs.Search

/-!
# What a walk visits

A walk is a depth-first search (`Search`) in which an object is followed by
what its members hold, in order, except that a list is passed over if an
earlier list of the object has its relation (`openedRefs`): lists are known by
their relations, and no list is entered twice.

* `Graph.visitUpTo_visits`: a walk of sufficient depth is such a search;
* `Graph.entered_traverse`: what is entered from a root.
-/

namespace ObjectModel

open WalkEvent

/-- The value is a list that was made. -/
def Value.isList : Value → Bool
  | .refs (some _) => true
  | _ => false

namespace Graph

/-! ## Between two visits -/

/-- What holds of a walk between two visits: the lists entered are of objects
    entered, and these are the ones that the events tell. -/
structure Walk.Valid (w : Walk) : Prop where
  owner : ∀ r relation, (r, relation) ∈ w.visited.lists → r ∈ w.visited.objects
  entered : entered w.events = w.visited.objects

/-- The objects that a walk has entered. -/
def Walk.seen (w : Walk) : Set Ref := {r | r ∈ w.visited.objects}

/-- From `w` to `w'` no list was entered of any of the objects. -/
def Walk.Keeps (w w' : Walk) (objects : Set Ref) : Prop :=
  ∀ r ∈ objects, ∀ relation, (r, relation) ∈ w'.visited.lists ↔ (r, relation) ∈ w.visited.lists

/-- `x` takes a walk from `w` to `w'` in visiting the objects `l`. -/
structure Walking.Goes (next : Ref → List Ref) (x : Walking Unit) (w : Walk) (l : List Ref)
    (w' : Walk) : Prop where
  run : x.run w = (.ok (), w')
  valid : w'.Valid
  search : Search next w.seen l w'.seen

variable {next : Ref → List Ref} {x y : Walking Unit} {w u w' : Walk} {k l : List Ref}

theorem Walking.Goes.nothing (hw : w.Valid) : Walking.Goes next (pure ()) w [] w :=
  ⟨rfl, hw, .done⟩

theorem Walking.Goes.bind (hx : Walking.Goes next x w k u) (hy : Walking.Goes next y u l w') :
    Walking.Goes next (x >>= fun _ => y) w (k ++ l) w' :=
  ⟨(run_bind_ok hx.run).trans hy.run, hy.valid, hx.search.append hy.search⟩

theorem Walk.Keeps.trans {A : Set Ref} (h : w.Keeps u A) (h' : u.Keeps w' A) : w.Keeps w' A :=
  fun r hr relation => (h' r hr relation).trans (h r hr relation)

/-- `visit` takes walks through single objects, entering no list of an object
    that was entered before, as long as less than `n` of the objects `all`
    remain to be entered. -/
def Visits (next : Ref → List Ref) (all : List Ref) (n : Nat)
    (visit : Ref → Option String → Walking Unit) : Prop :=
  ∀ w r relation, w.Valid → r ∈ all → remaining all w.visited.objects < n →
    ∃ w', Walking.Goes next (visit r relation) w [r] w' ∧ w.Keeps w' w.seen

variable {all : List Ref} {n : Nat} {visit : Ref → Option String → Walking Unit}

/-- The elements of a list are visited one after the other. -/
theorem Visits.forM (hv : Visits next all n visit) (relation : Option String) {items : List Ref}
    (hitems : ∀ r ∈ items, r ∈ all) (hw : w.Valid) (hn : remaining all w.visited.objects < n) :
    ∃ w', Walking.Goes next (items.forM (visit · relation)) w items w' ∧ w.Keeps w' w.seen := by
  induction items generalizing w with
  | nil => exact ⟨w, .nothing hw, fun _ _ _ => .rfl⟩
  | cons r items ih =>
    obtain ⟨u, hu, hk⟩ := hv w r relation hw (hitems r List.mem_cons_self) hn
    have hsub : w.visited.objects ⊆ u.visited.objects := fun s hs => hu.search.subset hs
    obtain ⟨w', hw', hk'⟩ := ih (fun s hs => hitems s (List.mem_cons_of_mem _ hs)) hu.valid
      (Nat.lt_of_le_of_lt (remaining_le hsub) hn)
    exact ⟨w', hu.bind hw', hk.trans fun s hs => hk' s (hsub hs)⟩

/-! ## Members -/

/-- What is visited after an object with such members. Lists that have one of
    the relations `seen` are passed over. -/
def openedRefs (seen : List String) : List (Member × Value) → List Ref
  | [] => []
  | (m, v) :: members =>
    if v.isList then
      if m.relation ∈ seen then openedRefs seen members
      else v.references ++ openedRefs (m.relation :: seen) members
    else v.references ++ openedRefs seen members

/-- Telling of something else than an object enters none. -/
theorem Walk.Valid.tell {e : WalkEvent} (hw : w.Valid) (he : WalkEvent.entered [e] = []) :
    Walk.Valid { w with events := w.events ++ [e] } where
  owner := hw.owner
  entered := by
    rw [← hw.entered, ← List.append_nil (WalkEvent.entered w.events), ← he]
    exact List.filterMap_append

theorem run_tell (e : WalkEvent) (w : Walk) :
    (Walking.tell e).run w = (.ok (), { w with events := w.events ++ [e] }) := rfl

theorem run_markList (owner : Ref) (relation : String) (w : Walk) :
    (Walking.markList owner relation).run w =
      (.ok (w.visited.insertList owner relation).1,
        { w with visited := (w.visited.insertList owner relation).2 }) := rfl

variable {r : Ref}

/-- A list whose relation the owner has had before is passed over. -/
theorem visitList_seen {relation : String} {items : List Ref} (hw : w.Valid)
    (h : (r, relation) ∈ w.visited.lists) :
    Walking.Goes next (visitList visit r relation items) w [] w := by
  refine ⟨?_, hw, .done⟩
  have hmark : (Walking.markList r relation).run w = (.ok false, w) := by
    rw [run_markList, Visited.insertList, if_pos h]
  exact run_bind_ok hmark

/-- The elements of any other list are visited, and the relation is kept. -/
theorem Visits.list (hv : Visits next all n visit) {relation : String} {items : List Ref}
    (hitems : ∀ s ∈ items, s ∈ all) (hw : w.Valid) (hr : r ∈ w.visited.objects)
    (hn : remaining all w.visited.objects < n) (h : (r, relation) ∉ w.visited.lists) :
    ∃ w', Walking.Goes next (visitList visit r relation items) w items w' ∧
      w.Keeps w' (w.seen \ {r}) ∧
        ∀ q, (r, q) ∈ w'.visited.lists ↔ q = relation ∨ (r, q) ∈ w.visited.lists := by
  -- The list is marked before its items are visited, so it is not opened again below them.
  let u : Walk :=
    { visited := { w.visited with lists := w.visited.lists ++ [(r, relation)] }
      events := w.events ++ [.enterList r relation items] }
  have hu : u.Valid := by
    refine Walk.Valid.tell
      (w := { w with visited := { w.visited with lists := w.visited.lists ++ [(r, relation)] } })
      ⟨fun s q hs => ?_, hw.entered⟩ rfl
    rcases List.mem_append.1 hs with hs | hs
    · exact hw.owner s q hs
    · rw [List.mem_singleton] at hs
      cases hs
      exact hr
  obtain ⟨w', hw', hk⟩ := hv.forM (some relation) hitems hu hn
  have hmark : (Walking.markList r relation).run w =
      (.ok true, { w with
        visited := { w.visited with lists := w.visited.lists ++ [(r, relation)] } }) := by
    rw [run_markList, Visited.insertList, if_neg h]
  refine ⟨{ w' with events := w'.events ++ [.leaveList r relation items] },
    ⟨?_, hw'.valid.tell rfl, hw'.search⟩, fun s hs q => ?_, fun q => ?_⟩
  · exact (run_bind_ok hmark).trans ((run_bind_ok (run_tell _ _)).trans (run_bind_ok hw'.run))
  · rw [hk s hs.1 q]
    simp [u, show s ≠ r from hs.2]
  · rw [hk r hr q]
    simp [u, or_comm]

/-- The members of an object are visited in turn. The object is entered
    already, and its lists of the relations `seen` are. -/
theorem Visits.members (hv : Visits next all n visit) {members : List (Member × Value)}
    {seen : List String} (hrefs : ∀ e ∈ members, ∀ s ∈ e.2.references, s ∈ all) (hw : w.Valid)
    (hr : r ∈ w.visited.objects) (hseen : ∀ q, (r, q) ∈ w.visited.lists ↔ q ∈ seen)
    (hn : remaining all w.visited.objects < n) :
    ∃ w', Walking.Goes next (members.forM fun (m, v) => visitMember visit r m v) w
      (openedRefs seen members) w' ∧ w.Keeps w' (w.seen \ {r}) := by
  induction members generalizing seen w with
  | nil => exact ⟨w, .nothing hw, fun _ _ _ => .rfl⟩
  | cons e members ih =>
    obtain ⟨m, v⟩ := e
    have hv' := hrefs (m, v) List.mem_cons_self
    -- Once the first member is visited, the others go on from there.
    have go {u : Walk} {k : List Ref} {seen' : List String}
        (hu : Walking.Goes next (visitMember visit r m v) w k u)
        (hk : w.Keeps u (w.seen \ {r})) (hs : ∀ q, (r, q) ∈ u.visited.lists ↔ q ∈ seen') :
        ∃ w', Walking.Goes next (((m, v) :: members).forM fun (m, v) => visitMember visit r m v) w
          (k ++ openedRefs seen' members) w' ∧ w.Keeps w' (w.seen \ {r}) := by
      have hsub : w.visited.objects ⊆ u.visited.objects := fun s hs => hu.search.subset hs
      obtain ⟨w', hw', hk'⟩ := ih (fun e he => hrefs e (List.mem_cons_of_mem _ he)) hu.valid
        (hsub hr) hs (Nat.lt_of_le_of_lt (remaining_le hsub) hn)
      exact ⟨w', hu.bind hw', hk.trans fun s hs => hk' s ⟨hsub hs.1, hs.2⟩⟩
    match v, hv' with
    | .refs (some items), hv' =>
      rw [openedRefs, if_pos (show (Value.refs (some items)).isList = true from rfl)]
      by_cases hm : m.relation ∈ seen
      · rw [if_pos hm]
        exact go (visitList_seen hw ((hseen _).2 hm)) (fun _ _ _ => .rfl) hseen
      · rw [if_neg hm]
        obtain ⟨u, hu, hk, hl⟩ := hv.list hv' hw hr hn (fun h => hm ((hseen _).1 h))
        exact go hu hk fun q => by rw [hl, hseen, List.mem_cons]
    | .ref (some s), hv' =>
      obtain ⟨u, hu, hk⟩ := hv w s (some m.relation) hw (hv' s List.mem_cons_self) hn
      exact go hu (fun s hs => hk s hs.1) fun q => by rw [hk r hr, hseen]
    | .ref none, _ | .refs none, _ | .bool _, _ | .int _, _ | .uint _, _ | .text _, _ =>
      exact go (.nothing hw) (fun _ _ _ => .rfl) hseen

/-! ## Objects -/

variable {g : Graph} {o : Object}

/-- The members that a walk follows, in the words of the schema. -/
theorem walkedMembers_eq (hg : g.WellTyped) (ho : g.object? r = some o) :
    ∃ e, g.schema.entityAt? r.tag = some e ∧
      g.walkedMembers r = .ok (((g.schema.membersBaseFirst e).zip o.values).filter fun (m, _) =>
        m.isReference && !g.model.policy.skipsTraversal (g.schema.chain e) m) := by
  obtain ⟨e, l, he, hent, hl, hmem, -⟩ := hg.object ho
  refine ⟨e, he, bind_eq_ok.2 ⟨o, object_eq_ok.2 ho, bind_eq_ok.2 ⟨e, hent, ?_⟩⟩⟩
  exact bind_eq_ok.2 ⟨_, map_eq_ok.2 ⟨l, hl, hmem⟩, rfl⟩

/-- In a live graph they refer to objects. -/
theorem exists_walkedMembers (hg : g.WellTyped) (hlive : g.Live) (ho : g.object? r = some o) :
    ∃ members, g.walkedMembers r = .ok members ∧
      ∀ e ∈ members, ∀ s ∈ e.2.references, s ∈ g.refs := by
  obtain ⟨e, -, hmembers⟩ := walkedMembers_eq hg ho
  refine ⟨_, hmembers, fun e he s hs => ?_⟩
  exact mem_refs.2 (hlive r o ho e.2 (List.of_mem_zip (List.mem_filter.1 he).1).2 s hs)

/-- What is visited after an object. -/
def openedFrom (g : Graph) (r : Ref) : List Ref :=
  match g.walkedMembers r with
  | .ok members => openedRefs [] members
  | .error _ => []

/-- A walk of sufficient depth visits what has not been visited before. -/
theorem visitUpTo_visits (hg : g.WellTyped) (hlive : g.Live) (n : Nat) :
    Visits g.openedFrom g.refs n (g.visitUpTo n) := by
  induction n with
  | zero => exact fun _ _ _ _ _ hn => absurd hn (Nat.not_lt_zero _)
  | succ n ih =>
    intro w r relation hw hr hn
    by_cases hseen : r ∈ w.visited.objects
    · -- An object entered before is passed over.
      have hmark : (Walking.mark r).run w = (.ok false, w) := by
        change (Except.ok (w.visited.insert r).1, { w with visited := (w.visited.insert r).2 }) = _
        rw [Visited.insert, if_pos hseen]
      exact ⟨w, ⟨run_bind_ok hmark, hw, .seen hseen .done⟩, fun _ _ _ => .rfl⟩
    · -- A new object is entered first, which leaves fewer to enter, and has had
      -- no lists entered so far.
      let v : Walk := { w with visited := { w.visited with objects := w.visited.objects ++ [r] } }
      let u : Walk := { v with events := w.events ++ [.enter r relation] }
      have hmark : (Walking.mark r).run w = (.ok true, v) := by
        change (Except.ok (w.visited.insert r).1, { w with visited := (w.visited.insert r).2 }) = _
        rw [Visited.insert, if_neg hseen]
      have hu : u.Valid := by
        refine ⟨fun s q hs => List.mem_append_left _ (hw.owner s q hs), ?_⟩
        simp only [u, v, WalkEvent.entered, List.filterMap_append]
        exact congrArg (· ++ [r]) hw.entered
      obtain ⟨o, ho⟩ := contains_iff.1 (mem_refs.1 hr)
      obtain ⟨members, hmembers, hrefs⟩ := exists_walkedMembers hg hlive ho
      have hsub : w.visited.objects ⊆ u.visited.objects := List.subset_append_left _ _
      have hru : r ∈ u.visited.objects := List.mem_append_right _ (List.mem_singleton_self r)
      have hlists : ∀ q, (r, q) ∈ u.visited.lists ↔ q ∈ ([] : List String) := fun q =>
        iff_of_false (fun h => hseen (hw.owner r q h)) List.not_mem_nil
      obtain ⟨w', hw', hk⟩ := ih.members hrefs hu hru hlists
        (Nat.lt_of_lt_of_le (remaining_lt hsub hr hseen hru) (Nat.le_of_lt_succ hn))
      have hopened : g.openedFrom r = openedRefs [] members := by rw [openedFrom, hmembers]
      refine ⟨{ w' with events := w'.events ++ [.leave r relation] }, ⟨?_, hw'.valid.tell rfl, ?_⟩,
        fun s hs q => hk s ⟨hsub hs, fun h => hseen (h ▸ hs)⟩ q⟩
      · have hrun : (ExceptT.mk (pure (g.walkedMembers r)) : Walking _).run v =
            (.ok members, v) :=
          congrArg (·, v) hmembers
        exact (run_bind_ok hmark).trans ((run_bind_ok hrun).trans
          ((run_bind_ok (run_tell _ _)).trans (run_bind_ok hw'.run)))
      · refine .visit hseen ?_ .done
        have hinsert : insert r w.seen = u.seen := by
          ext s
          simp [Walk.seen, u, v, or_comm]
        rw [hinsert, hopened]
        exact hw'.search

/-- A walk from an object of a graph ends well, and enters what can be reached
    by what it opens. -/
theorem entered_traverse (hg : g.WellTyped) (hlive : g.Live) (hr : g.contains r = true) :
    (g.traverse r).1 = .ok (entered (g.traverse r).2).length ∧
      ∀ s, s ∈ entered (g.traverse r).2 ↔
        Relation.ReflTransGen (fun a b => b ∈ g.openedFrom a) r s := by
  have hstart : Walk.Valid {} := ⟨fun _ _ h => absurd h List.not_mem_nil, rfl⟩
  -- Before anything is visited, no more objects are left than the graph has.
  have hdepth : remaining g.refs [] < g.size + 1 :=
    Nat.lt_succ_of_le (length_refs (g := g) ▸ remaining_le_length)
  obtain ⟨w, hw, -⟩ :=
    visitUpTo_visits hg hlive (g.size + 1) {} r none hstart (mem_refs.2 hr) hdepth
  have hseen : Walk.seen {} = ∅ := Set.eq_empty_iff_forall_notMem.2 fun _ => List.not_mem_nil
  have hsearch := hseen ▸ hw.search
  have hrun : g.traverse r = (.ok w.visited.size, w.events) := by
    rw [traverse, hw.run]
    rfl
  refine ⟨?_, fun s => ?_⟩
  · rw [hrun, hw.valid.entered]
    rfl
  · rw [hrun, hw.valid.entered]
    exact hsearch.mem_iff.trans ⟨fun ⟨b, hb, h⟩ => List.mem_singleton.1 hb ▸ h,
      fun h => ⟨r, List.mem_singleton_self r, h⟩⟩

end Graph

end ObjectModel
