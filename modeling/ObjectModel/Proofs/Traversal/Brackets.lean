import ObjectModel.Proofs.Traversal.Completeness

/-!
# Brackets

What a walk tells is a sequence of brackets: an object is entered and left, and so is a
list (`Bracket`). Brackets stand inside of each other (`Nested`) as the graph has it
(`Graph.Inside`): in an object stand the objects and lists that it holds in members which
the walk follows, and in a list stand its elements.

* `Graph.bracketed_visitUpTo`: a walk to whatever depth tells brackets, of what it has
  entered and nothing else;
* `Graph.traverse_nested`: the brackets of a whole walk.
-/

namespace ObjectModel

/-- What a walk enters and leaves again. -/
inductive Bracket
  /-- An object, and the relation through which it is reached. -/
  | object (r : Ref) (relation : Option String)
  | list (owner : Ref) (relation : String) (items : List Ref)
deriving DecidableEq, Repr

namespace Bracket

def entering : Bracket → WalkEvent
  | object r relation => .enter r relation
  | list owner relation items => .enterList owner relation items

def leaving : Bracket → WalkEvent
  | object r relation => .leave r relation
  | list owner relation items => .leaveList owner relation items

/-- The object, or that which holds the list. -/
def holder : Bracket → Ref
  | object r _ => r
  | list owner _ _ => owner

end Bracket

namespace WalkEvent

def opens? : WalkEvent → Option Bracket
  | enter r relation => some (.object r relation)
  | enterList owner relation items => some (.list owner relation items)
  | _ => none

def closes? : WalkEvent → Option Bracket
  | leave r relation => some (.object r relation)
  | leaveList owner relation items => some (.list owner relation items)
  | _ => none

/-- The brackets opened, in order. -/
def opened (events : List WalkEvent) : List Bracket := events.filterMap opens?

/-- The brackets closed, in order. -/
def closed (events : List WalkEvent) : List Bracket := events.filterMap closes?

/-- The lists entered, by owner and relation. -/
def enteredKeys (events : List WalkEvent) : List (Ref × String) :=
  (enteredLists events).map fun (owner, relation, _) => (owner, relation)

/-- The objects that are entered and not left after an event, the innermost first. -/
def nest (objects : List Ref) : WalkEvent → List Ref
  | enter r _ => r :: objects
  | leave _ _ => objects.tail
  | _ => objects

/-- The object that is entered last of those that are not left. -/
def innermost? (events : List WalkEvent) : Option Ref := (events.foldl nest []).head?

end WalkEvent

/-- A sequence of brackets that may stand inside of `outer`, with others inside of them. -/
inductive Nested (inside : Bracket → Bracket → Prop) : Bracket → List WalkEvent → Prop
  | nothing {outer : Bracket} : Nested inside outer []
  | bracket {outer b : Bracket} {inner rest : List WalkEvent} : inside outer b →
    Nested inside b inner → Nested inside outer rest →
      Nested inside outer (b.entering :: (inner ++ b.leaving :: rest))

open WalkEvent

section

variable {events events' : List WalkEvent}

theorem opened_append : opened (events ++ events') = opened events ++ opened events' :=
  List.filterMap_append

theorem closed_append : closed (events ++ events') = closed events ++ closed events' :=
  List.filterMap_append

theorem entered_append : entered (events ++ events') = entered events ++ entered events' :=
  List.filterMap_append

theorem enteredKeys_append :
    enteredKeys (events ++ events') = enteredKeys events ++ enteredKeys events' := by
  rw [enteredKeys, enteredLists, List.filterMap_append, List.map_append]
  rfl

end

section

variable {b : Bracket} {inner rest pre post : List WalkEvent} {e : WalkEvent}

/-- A bracket is opened before what is inside of it. -/
theorem opened_bracket : opened (b.entering :: (inner ++ b.leaving :: rest)) =
    b :: (opened inner ++ opened rest) := by
  rw [← List.singleton_append, opened_append, opened_append]
  cases b <;> rfl

/-- A bracket is closed after what is inside of it. -/
theorem closed_bracket : closed (b.entering :: (inner ++ b.leaving :: rest)) =
    closed inner ++ b :: closed rest := by
  rw [← List.singleton_append, closed_append, closed_append]
  cases b <;> rfl

theorem closed_perm_bracket (hinner : (closed inner).Perm (opened inner))
    (hrest : (closed rest).Perm (opened rest)) :
    (closed (b.entering :: (inner ++ b.leaving :: rest))).Perm
      (opened (b.entering :: (inner ++ b.leaving :: rest))) := by
  rw [opened_bracket, closed_bracket]
  exact List.perm_middle.trans ((hinner.append hrest).cons b)

/-- An event other than the closing of a bracket is its opening, or happens inside of
    it, or after it. -/
theorem eq_or_inside_or_after
    (h : b.entering :: (inner ++ b.leaving :: rest) = pre ++ e :: post) (he : e ≠ b.leaving) :
    (pre = [] ∧ e = b.entering) ∨
    (∃ pre' post', pre = b.entering :: pre' ∧ inner = pre' ++ e :: post') ∨
    ∃ pre', pre = b.entering :: (inner ++ b.leaving :: pre') ∧ rest = pre' ++ e :: post := by
  cases pre with
  | nil => exact .inl ⟨rfl, (List.cons.inj h).1.symm⟩
  | cons d pre =>
    obtain ⟨rfl, hbody⟩ : b.entering = d ∧ inner ++ b.leaving :: rest = pre ++ e :: post :=
      List.cons.inj h
    rcases List.append_eq_append_iff.1 hbody with ⟨pre', rfl, hrest⟩ | ⟨post', rfl, hpost⟩
    · cases pre' with
      | nil => exact absurd (List.cons.inj hrest).1.symm he
      | cons d pre' =>
        obtain ⟨rfl, rfl⟩ := List.cons.inj hrest
        exact .inr (.inr ⟨pre', rfl, rfl⟩)
    · cases post' with
      | nil => exact absurd (List.cons.inj hpost).1 he
      | cons d post' =>
        obtain ⟨rfl, -⟩ := List.cons.inj hpost
        exact .inr (.inl ⟨pre, post', rfl, rfl⟩)

end

namespace Nested

variable {inside : Bracket → Bracket → Prop} {outer b : Bracket} {events events' : List WalkEvent}

/-- Sequences of brackets are put together. -/
theorem append (h : Nested inside outer events) (h' : Nested inside outer events') :
    Nested inside outer (events ++ events') := by
  induction h with
  | nothing => exact h'
  | bracket hb hinner _ _ ih =>
    rw [List.cons_append, List.append_assoc, List.cons_append]
    exact .bracket hb hinner (ih h')

/-- A bracket is put around what is inside of it. -/
theorem single (hb : inside outer b) (h : Nested inside b events) :
    Nested inside outer (b.entering :: (events ++ [b.leaving])) :=
  .bracket hb h .nothing

/-- What is opened is closed, and nothing else is. -/
theorem closed_perm (h : Nested inside outer events) : (closed events).Perm (opened events) := by
  induction h with
  | nothing => exact .refl _
  | bracket _ _ _ ihinner ihrest => exact closed_perm_bracket ihinner ihrest

/-- All objects that are entered on the way are left again. -/
theorem foldl_nest (h : Nested inside outer events) (objects : List Ref) :
    events.foldl nest objects = objects := by
  induction h generalizing objects with
  | nothing => rfl
  | @bracket _ b inner rest _ _ _ ihinner ihrest =>
    rw [List.foldl_cons, List.foldl_append, ihinner, List.foldl_cons, ihrest]
    cases b <;> rfl

end Nested

namespace Graph

variable (g : Graph)

/-- What may stand in a bracket. -/
inductive Inside : Bracket → Bracket → Prop
  /-- An object in one that refers to it. -/
  | target {r s : Ref} {relation : Option String} {i : Nat} {m : Member} :
    g.Follows r i m (.ref (some s)) →
      Inside (.object r relation) (.object s (some m.relation))
  /-- A list in its owner. -/
  | list {r : Ref} {relation : Option String} {i : Nat} {m : Member} {items : List Ref} :
    g.Follows r i m (.refs (some items)) →
      Inside (.object r relation) (.list r m.relation items)
  /-- An object in a list that has it. -/
  | element {r s : Ref} {relation : String} {items : List Ref} : s ∈ items →
      Inside (.list r relation items) (.object s (some relation))

/-- `r` refers to `s` in a member of the relation that walks do not pass over. -/
def RefersBy (r : Ref) (relation : Option String) (s : Ref) : Prop :=
  ∃ i m v, g.Follows r i m v ∧ relation = some m.relation ∧ s ∈ v.references

/-- A list is held by its owner. -/
def Held : Bracket → Prop
  | .object _ _ => True
  | .list r relation items => ∃ i m, g.Follows r i m (.refs (some items)) ∧ relation = m.relation

variable {g}

/-- An object is referred to by that in whose bracket, or in whose list, it stands. -/
theorem Inside.refersBy {outer : Bracket} {s : Ref} {relation : Option String}
    (h : g.Inside outer (.object s relation)) (houter : g.Held outer) :
    g.RefersBy outer.holder relation s := by
  cases h with
  | target hf => exact ⟨_, _, _, hf, rfl, List.mem_cons_self⟩
  | element hs =>
    obtain ⟨i, m, hf, rfl⟩ := houter
    exact ⟨i, m, _, hf, rfl, hs⟩

theorem Inside.held {outer b : Bracket} (h : g.Inside outer b) : g.Held b := by
  cases h with
  | list hf => exact ⟨_, _, hf, rfl⟩
  | _ => trivial

/-- Only the lists of an object stand in it. -/
theorem Inside.head? {outer b : Bracket} (h : g.Inside outer b) {objects : List Ref}
    (hobjects : objects.head? = some outer.holder) :
    (nest objects b.entering).head? = some b.holder := by
  cases h with
  | list _ => exact hobjects
  | _ => rfl

/-- Each object is referred to by the one in whose bracket it stands most closely. -/
theorem refersBy_of_nested {outer : Bracket} {events pre post : List WalkEvent} {s : Ref}
    {relation : Option String} (h : Nested g.Inside outer events)
    (houter : g.Held outer) (objects : List Ref) (hobjects : objects.head? = some outer.holder)
    (hevents : events = pre ++ .enter s relation :: post) :
    ∃ t, (pre.foldl nest objects).head? = some t ∧ g.RefersBy t relation s := by
  induction h generalizing pre post objects with
  | nothing => exact absurd hevents.symm (List.append_ne_nil_of_right_ne_nil _ (by simp))
  | @bracket outer b inner rest hb hinner hrest ihinner ihrest =>
    have hleaving : WalkEvent.enter s relation ≠ b.leaving := by cases b <;> nofun
    -- The event is where the bracket opens, inside it or after it is closed.
    rcases eq_or_inside_or_after hevents hleaving with
      ⟨rfl, hentering⟩ | ⟨pre', _, rfl, rfl⟩ | ⟨pre', rfl, rfl⟩
    · cases b with
      | object _ _ =>
        cases hentering
        exact ⟨_, hobjects, hb.refersBy houter⟩
      | list _ _ _ => cases hentering
    · exact ihinner hb.held (nest objects b.entering) (hb.head? hobjects) rfl
    · have hclosed : nest (nest objects b.entering) b.leaving = objects := by
        cases b <;> rfl
      rw [List.foldl_cons, List.foldl_append, hinner.foldl_nest, List.foldl_cons, hclosed]
      exact ihrest houter objects hobjects rfl

/-! ## What a part of a walk tells -/

/-- From `w` to `w'`, a walk tells the events, which are of all that it enters. -/
structure Walk.Adds (w w' : Walk) (told : List WalkEvent) : Prop where
  events : w'.events = w.events ++ told
  objects : w'.visited.objects = w.visited.objects ++ entered told
  lists : w'.visited.lists = w.visited.lists ++ enteredKeys told
  distinct : w.visited.objects.Nodup ∧ w.visited.lists.Nodup →
    w'.visited.objects.Nodup ∧ w'.visited.lists.Nodup

/-- From `w` to `w'`, a walk tells brackets that stand in `outer`. -/
def Walk.Tells (g : Graph) (outer : Bracket) (w w' : Walk) : Prop :=
  ∃ told, Nested g.Inside outer told ∧ w.Adds w' told

variable {outer : Bracket} {w u w' : Walk} {k l : List WalkEvent}

theorem Walk.Adds.nothing (w : Walk) : w.Adds w [] :=
  ⟨(List.append_nil _).symm, (List.append_nil _).symm, (List.append_nil _).symm, id⟩

theorem Walk.Adds.trans (h : w.Adds u k) (h' : u.Adds w' l) : w.Adds w' (k ++ l) where
  events := by rw [h'.events, h.events, List.append_assoc]
  objects := by rw [h'.objects, h.objects, entered_append, List.append_assoc]
  lists := by rw [h'.lists, h.lists, enteredKeys_append, List.append_assoc]
  distinct := h'.distinct ∘ h.distinct

theorem Walk.Tells.refl (g : Graph) (outer : Bracket) (w : Walk) : w.Tells g outer w :=
  ⟨[], .nothing, .nothing w⟩

theorem Walk.Tells.trans (h : w.Tells g outer u) (h' : u.Tells g outer w') :
    w.Tells g outer w' := by
  obtain ⟨k, hk, hadds⟩ := h
  obtain ⟨l, hl, hadds'⟩ := h'
  exact ⟨k ++ l, hk.append hl, hadds.trans hadds'⟩

/-- A bracket is closed when what stands in it has been told. -/
theorem ends_close {b : Bracket} {x : Walking Unit} (hopen : w.Adds u [b.entering])
    (hx : Keeps (u.Tells g b) (fun _ => True) x) :
    Ends (x >>= fun _ => Walking.tell b.leaving) u (fun _ w' => ∃ inner, Nested g.Inside b inner ∧
      w.Adds w' (b.entering :: (inner ++ [b.leaving]))) fun _ => True := by
  refine (hx u (.refl g b u)).bind fun _ w' ⟨inner, hinner, hadds⟩ => ?_
  refine .of_run (run_tell _ _) ⟨inner, hinner, ?_⟩
  refine (hopen.trans hadds).trans (l := [b.leaving]) ⟨rfl, ?_, ?_, id⟩
  · cases b <;> exact (List.append_nil _).symm
  · cases b <;> exact (List.append_nil _).symm

/-- `visit` tells the bracket of an object, unless it was entered before. -/
def Bracketed (g : Graph) (visit : Ref → Option String → Walking Unit) : Prop :=
  ∀ w r relation, Ends (visit r relation) w (fun _ w' =>
    if r ∈ w.visited.objects then w' = w
    else ∃ inner, Nested g.Inside (.object r relation) inner ∧
      w.Adds w' (.enter r relation :: (inner ++ [.leave r relation]))) fun _ => True

variable {visit : Ref → Option String → Walking Unit} {r : Ref} {relation : Option String}

/-- Objects that may stand in a bracket are visited there. -/
theorem Bracketed.keeps (hv : Bracketed g visit) (hin : g.Inside outer (.object r relation))
    (w : Walk) : Keeps (w.Tells g outer) (fun _ => True) (visit r relation) := by
  intro u hu
  refine (hv u r relation).mono (fun _ w' h => hu.trans ?_) fun _ h => h
  split at h
  · exact h ▸ .refl g outer u
  · obtain ⟨inner, hinner, hadds⟩ := h
    exact ⟨_, hinner.single hin, hadds⟩

/-- What is entered for the first time is entered once. -/
theorem nodup_snoc {α : Type} {l : List α} {a : α} (hl : l.Nodup) (ha : a ∉ l) :
    (l ++ [a]).Nodup := List.concat_eq_append ▸ hl.concat ha

/-- A list that may stand in a bracket is visited there. -/
theorem Bracketed.visitList (hv : Bracketed g visit) {relation : String} {items : List Ref}
    (hin : g.Inside outer (.list r relation items)) (w : Walk) :
    Keeps (w.Tells g outer) (fun _ => True) (visitList visit r relation items) := by
  intro u hu
  refine .after (run_markList r relation u) ?_
  rw [Visited.insertList]
  split
  · exact .pure hu
  rename_i hnew
  rw [if_pos rfl]
  refine .after (run_tell _ _) ?_
  refine .mono (ends_close (w := u) (b := .list r relation items)
    ⟨rfl, (List.append_nil _).symm, rfl, fun h => ⟨h.1, nodup_snoc h.2 hnew⟩⟩
    (.forM fun s hs => hv.keeps (.element hs) _)) ?_ fun _ h => h
  rintro _ w' ⟨inner, hinner, hadds⟩
  exact hu.trans ⟨_, hinner.single hin, hadds⟩

/-- What a member holds is visited in the bracket of the object. -/
theorem Bracketed.visitMember (hv : Bracketed g visit) {i : Nat} {m : Member} {v : Value}
    (hf : g.Follows r i m v) (w : Walk) :
    Keeps (w.Tells g (.object r relation)) (fun _ => True) (visitMember visit r m v) := by
  unfold Graph.visitMember
  split
  · exact hv.keeps (.target hf) w
  · exact hv.visitList (.list hf) w
  · exact .pure _

/-- Members that a walk follows are followed. -/
theorem follows_of_mem_walkedMembers (hg : g.WellTyped) {members : List (Member × Value)}
    (h : g.walkedMembers r = .ok members) {m : Member} {v : Value} (hm : (m, v) ∈ members) :
    ∃ i, g.Follows r i m v := by
  obtain ⟨o, ho, -⟩ := bind_eq_ok.1 h
  rw [object_eq_ok] at ho
  obtain ⟨e, he, hmembers⟩ := walkedMembers_eq hg ho
  obtain rfl := Except.ok.inj (hmembers.symm.trans h)
  obtain ⟨hzip, hfollowed⟩ := List.mem_filter.1 hm
  obtain ⟨i, hi⟩ := List.mem_iff_getElem?.1 hzip
  obtain ⟨hm, hv⟩ := List.getElem?_zip_eq_some.1 hi
  rw [Bool.and_eq_true, Bool.not_eq_true'] at hfollowed
  exact ⟨i, o, e, ho, he, hm, hv, hfollowed.2⟩

/-- An object is entered, its members are gone through, and it is left. -/
theorem Bracketed.visitWith (hg : g.WellTyped) (hv : Bracketed g visit) :
    Bracketed g (g.visitWith visit) := by
  intro w r relation
  have hmark : (Walking.mark r).run w =
      (.ok (w.visited.insert r).1, { w with visited := (w.visited.insert r).2 }) := rfl
  refine .after hmark ?_
  rw [Visited.insert]
  split
  · exact .pure rfl
  rename_i hnew
  rw [if_pos rfl]
  cases hmembers : g.walkedMembers r with
  | error e => exact .of_run_error (run_bind_error rfl) trivial
  | ok members =>
    refine .after
      (t := { w with visited := { w.visited with objects := w.visited.objects ++ [r] } }) rfl
      (.after (run_tell _ _) ?_)
    -- The object was not visited before, so this is the only time it is entered.
    refine ends_close (b := .object r relation)
      ⟨rfl, rfl, (List.append_nil _).symm, fun h => ⟨nodup_snoc h.1 hnew, h.2⟩⟩
      (.forM ?_)
    rintro ⟨m, v⟩ hm
    obtain ⟨i, hf⟩ := follows_of_mem_walkedMembers hg hmembers hm
    exact hv.visitMember hf _

/-- Walks to whatever depth tell brackets. -/
theorem bracketed_visitUpTo (hg : g.WellTyped) (n : Nat) : Bracketed g (g.visitUpTo n) := by
  induction n with
  | zero => exact fun _ _ _ => trivial
  | succ n ih => exact ih.visitWith hg

/-- A walk that ends well has told one bracket, and entered each object and list
    in it once. -/
theorem exists_nested (hg : g.WellTyped) {n : Nat} (hok : (g.traverse r).1 = .ok n) :
    ∃ inner, (g.traverse r).2 = .enter r none :: (inner ++ [.leave r none]) ∧
      Nested g.Inside (.object r none) inner ∧
        (entered (g.traverse r).2).Nodup ∧ (enteredKeys (g.traverse r).2).Nodup := by
  -- The walk sets out where nothing has been entered.
  obtain ⟨_, hrun, -⟩ := map_eq_ok.1 hok
  have hends := (bracketed_visitUpTo hg (g.size + 1) {} r none).of_ok hrun
  rw [if_neg (show r ∉ ({} : Walk).visited.objects from List.not_mem_nil)] at hends
  obtain ⟨inner, hinner, hadds⟩ := hends
  obtain ⟨hobjects, hlists⟩ := hadds.distinct ⟨List.nodup_nil, List.nodup_nil⟩
  rw [hadds.objects] at hobjects
  rw [hadds.lists] at hlists
  have hevents : (g.traverse r).2 = .enter r none :: (inner ++ [.leave r none]) := hadds.events
  exact ⟨inner, hevents, hinner, hevents ▸ hobjects, hevents ▸ hlists⟩

/-- The walk from an object ends well, and tells brackets.

    * The outermost bracket is that of the object, which is reached through no relation. What
      stands inside of a bracket are objects and lists that it holds in members which walks
      do not pass over.
    * Each object, and each list of an owner and a relation, is entered at most once, and
      left exactly once, as it was entered.
    * The relation through which another object is reached is that of a member, which walks
      do not pass over, of the object in whose bracket it stands most closely.
    * The number that the walk comes to is that of the objects entered. -/
theorem traverse_nested (hg : g.WellTyped) (hlive : g.Live) (hr : g.contains r = true) :
    (∃ inner, (g.traverse r).2 = .enter r none :: (inner ++ [.leave r none]) ∧
      Nested g.Inside (.object r none) inner) ∧
    ((entered (g.traverse r).2).Nodup ∧ (enteredKeys (g.traverse r).2).Nodup ∧
      (closed (g.traverse r).2).Perm (opened (g.traverse r).2)) ∧
    (∀ pre s relation post, (g.traverse r).2 = pre ++ .enter s relation :: post →
      pre = [] ∧ s = r ∧ relation = none ∨
        ∃ t, innermost? pre = some t ∧ g.RefersBy t relation s) ∧
    (g.traverse r).1 = .ok (entered (g.traverse r).2).length := by
  obtain ⟨hok, -⟩ := entered_traverse hg hlive hr
  obtain ⟨inner, hevents, hinner, hobjects, hlists⟩ := exists_nested hg hok
  have hperm : (closed (g.traverse r).2).Perm (opened (g.traverse r).2) :=
    hevents ▸ closed_perm_bracket (b := .object r none) hinner.closed_perm .rfl
  refine ⟨⟨inner, hevents, hinner⟩, ⟨hobjects, hlists, hperm⟩, ?_, hok⟩
  intro pre s relation post hpre
  rw [hevents] at hpre
  rcases eq_or_inside_or_after (b := .object r none) hpre nofun with
    ⟨rfl, hentering⟩ | ⟨pre', _, rfl, rfl⟩ | ⟨pre', -, hnil⟩
  · cases hentering
    exact .inl ⟨rfl, rfl, rfl⟩
  · exact .inr (refersBy_of_nested hinner trivial [r] rfl rfl)
  · exact absurd hnil.symm (List.append_ne_nil_of_right_ne_nil _ (List.cons_ne_nil _ _))

/-- Two nodes, of which the second refers back to the first, also in a list. -/
def knot : Graph := Network.graph {} [{ left := some [1] }, { next := some 0, right := some [0] }]

/-- From the first node of a knot, a walk enters both, the second in a list of the
    first, which refers to it by the relation of that list. -/
theorem traverse_nested_knot :
    (knot.WellTyped ∧ knot.Live ∧ knot.contains (Network.ref 0) = true) ∧
      (knot.traverse (Network.ref 0)).2 =
        [.enter (Network.ref 0) none,
          .enterList (Network.ref 0) "links" [Network.ref 1],
            .enter (Network.ref 1) (some "links"),
              .enterList (Network.ref 1) "links" [Network.ref 0],
              .leaveList (Network.ref 1) "links" [Network.ref 0],
            .leave (Network.ref 1) (some "links"),
          .leaveList (Network.ref 0) "links" [Network.ref 1],
        .leave (Network.ref 0) none] ∧
      (knot.traverse (Network.ref 0)).1 = .ok 2 ∧
      knot.RefersBy (Network.ref 0) (some "links") (Network.ref 1) := by
  have hg : knot.WellTyped := Network.wellTyped _ _
  have hlive : knot.Live := Network.live (by decide)
  have hr : knot.contains (Network.ref 0) = true := by decide
  obtain ⟨-, -, hrefers, hcount⟩ := traverse_nested hg hlive hr
  have hevents : (knot.traverse (Network.ref 0)).2 = _ := rfl
  refine ⟨⟨hg, hlive, hr⟩, hevents, hcount, ?_⟩
  rcases hrefers [_, _] (Network.ref 1) (some "links") _ hevents with ⟨hnil, -⟩ | ⟨t, ht, hrefers⟩
  · exact absurd hnil (List.cons_ne_nil _ _)
  · obtain rfl := Option.some.inj ht
    exact hrefers

end Graph

end ObjectModel
