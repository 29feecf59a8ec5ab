import Mathlib.Data.List.Nodup
import ObjectModel.Proofs.Cloning.Replacing
import ObjectModel.Proofs.Cloning.Unbound

/-!
# Where copies are placed

Where nothing is bound, an object is copied when it is met for the first time,
and its copy is placed under the copy of the object from which it is met. Its
children are cloned after its members; then the copy gets theirs for children,
wherever these were placed.

What was copied is kept in a log, with what each object leads to
(`Graph.follows`). Since all that a copied object leads to is copied before
cloning goes back, an object is met from the one copied last of those that lead
to it (`Copy.host`). Parts of cloning add to the log (`Cloning.Placing`).

* `Cloning.Placing.trans`, `Cloning.Placing.make`: logs are put together, and an
  object is put below what was copied from it;
* `Cloning.places_cloneUpTo`: cloning to whatever depth places copies so;
* `Cloner.cloneObject_places`: the parent and the children of every copy, and
  when they agree.
-/

namespace ObjectModel

/-- An object that was copied: what it became, and what was cloned from it. -/
structure Copy where
  source : Ref
  image : Ref
  parts : List Ref

/-- The object from which `r` is met, if those in the list have been copied, the
    last first. -/
def Copy.host (copies : List Copy) (r : Ref) : Option Copy := copies.find? (r ∈ ·.parts)

namespace Copy

variable {copies later : List Copy} {r : Ref} {v : Copy}

theorem host_eq_none : host copies r = none ↔ ∀ v ∈ copies, r ∉ v.parts := by
  simp [host]

theorem host_append_of_none (h : host copies r = none) :
    host (later ++ copies) r = host later r := by
  rw [host, List.find?_append, ← host, ← host, h, Option.or_none]

/-- What is met from no later object is met from the one before. -/
theorem host_append_singleton (hr : host later r = none → r ∈ v.parts) :
    host (later ++ [v]) r = some ((host later r).getD v) := by
  rw [host, List.find?_append, ← host]
  cases h : host later r with
  | some u => rfl
  | none => simp [hr h]

end Copy

/-- The references in those members that `deep` holds of. -/
def followed (deep : Member → Bool) (members : List Member) (values : List Value) : List Ref :=
  (members.zip values).flatMap fun (m, v) => if m.isReference && deep m then v.references else []

namespace Graph

variable {g h : Graph} {r : Ref}

/-- What an object leads to where nothing is bound: what members refer to whose
    objects are cloned, and then the children. A constant leads to nothing. -/
def follows (g : Graph) (r : Ref) : List Ref :=
  match g.object? r, g.members r with
  | some o, .ok members =>
    if g.model.cloneKind r.tag = .custom .constant then []
    else followed (Cloning.clonesDeep g.model.policy (g.model.chainAt r.tag)
      (g.model.cloneKind r.tag).custom?) members o.values ++ o.header.children
  | _, _ => []

/-- What an object leads to is not changed by new objects. -/
theorem Extends.follows (hgh : g.Extends h) (hr : g.contains r = true) :
    h.follows r = g.follows r := by
  have hmembers : h.members r = g.members r :=
    congrArg (fun m : Model => Layout.members <$> m.layout r.tag) hgh.model
  rw [Graph.follows, Graph.follows, hgh.object?_eq hr, hmembers, hgh.model]

end Graph

namespace Cloner

variable {σ : Type} {g : Graph} {c c' : Cloner σ} {w : Copy}

/-- The copy is as it is left: what was cloned is what its source leads to, and
    its children are what became of those of the source. A constant is left
    without children. -/
structure Leaves (g : Graph) (c : Cloner σ) (w : Copy) : Prop where
  parts : w.parts = g.follows w.source
  constant : g.model.cloneKind w.source.tag = .custom .constant → c.graph.childrenOf w.image = []
  children : g.model.cloneKind w.source.tag ≠ .custom .constant →
    List.Forall₂ (fun k k' => c.cloned? k = some k') (g.childrenOf w.source)
      (c.graph.childrenOf w.image)

theorem Leaves.mono (h : Leaves g c w)
    (hcloned : ∀ q s, c.cloned? q = some s → c'.cloned? q = some s)
    (hchildren : c'.graph.childrenOf w.image = c.graph.childrenOf w.image) : Leaves g c' w where
  parts := h.parts
  constant hkind := hchildren.trans (h.constant hkind)
  children hkind := hchildren ▸ (h.children hkind).imp hcloned

theorem Leaves.of_extends {h : Graph} (hw : Leaves h c w) (hgh : g.Extends h)
    (hr : g.contains w.source = true) : Leaves g c w where
  parts := hw.parts.trans (hgh.follows hr)
  constant hkind := hw.constant (hgh.model ▸ hkind)
  children hkind := hgh.childrenOf hr ▸ hw.children (hgh.model ▸ hkind)

end Cloner

namespace Cloning

/-- From `c` to `c'`, the objects in the log were copied, the last first, being
    met from one another or as one of `items` under `p`. -/
structure Placing {σ : Type} (p : Option Ref) (items : List Ref) (c c' : Cloner σ)
    (log : List Copy) : Prop where
  extension : c.graph.Extends c'.graph
  cloned : ∀ q s, c'.cloned? q = some s ↔
    (∃ w ∈ log, w.source = q ∧ w.image = s) ∨ c.cloned? q = some s
  new : ∀ w ∈ log, c.cloned? w.source = none
  sources : (log.map (·.source)).Nodup
  fresh : ∀ w ∈ log, c.graph.contains w.image = false ∧ c'.graph.contains w.image = true
  images : (log.map (·.image)).Nodup
  leaves : ∀ w ∈ log, c.graph.contains w.source = true → c'.Leaves c.graph w
  closed : ∀ w ∈ log, ∀ q ∈ w.parts, ∃ s, c'.cloned? q = some s
  placed : ∀ w earlier, w :: earlier <:+ log →
    c'.graph.parent? w.image = ((Copy.host earlier w.source).map (·.image)).or p
  asked : ∀ w earlier, w :: earlier <:+ log → Copy.host earlier w.source = none → w.source ∈ items

namespace Placing

variable {σ : Type} {p : Option Ref} {items items' : List Ref} {c c' c'' : Cloner σ}
  {log log' : List Copy} {r s : Ref} {v w : Copy}

theorem refl (p : Option Ref) (items : List Ref) (c : Cloner σ) : Placing p items c c [] where
  extension := .refl _
  cloned q s := by simp
  new := by simp
  sources := .nil
  fresh := by simp
  images := .nil
  leaves := by simp
  closed := by simp
  placed := by simp
  asked := by simp

theorem mono (h : Placing p items c c' log) (hsub : items ⊆ items') :
    Placing p items' c c' log :=
  { h with asked := fun w earlier hw hnone => hsub (h.asked w earlier hw hnone) }

/-- Copies stay. -/
theorem lasts (h : Placing p items c c' log) (hs : c.cloned? r = some s) :
    c'.cloned? r = some s :=
  (h.cloned r s).2 (.inr hs)

theorem cloned_of_mem (h : Placing p items c c' log) (hw : w ∈ log) :
    c'.cloned? w.source = some w.image :=
  (h.cloned _ _).2 (.inl ⟨w, hw, rfl, rfl⟩)

/-- What is new in the end was new before. -/
theorem none_of_none (h : Placing p items c c' log) (hr : c'.cloned? r = none) :
    c.cloned? r = none := by
  cases hs : c.cloned? r with
  | none => rfl
  | some s => rw [h.lasts hs] at hr; cases hr

theorem contains_eq_false (h : Placing p items c c' log) (hr : c'.graph.contains r = false) :
    c.graph.contains r = false :=
  Bool.eq_false_iff.2 fun hlive => Bool.eq_false_iff.1 hr (h.extension.contains hlive)

/-- What is new in the end is met from nothing that was copied. -/
theorem host_eq_none (h : Placing p items c c' log) (hr : c'.cloned? r = none) :
    Copy.host log r = none := by
  refine Copy.host_eq_none.2 fun v hv hmem => ?_
  obtain ⟨s, hs⟩ := h.closed v hv r hmem
  rw [hr] at hs
  cases hs

/-- A part of a log that ends within another. -/
theorem cons_suffix_append {earlier : List Copy} (h : w :: earlier <:+ log' ++ log) :
    w :: earlier <:+ log ∨ ∃ e, earlier = e ++ log ∧ w :: e <:+ log' := by
  induction log' with
  | nil => exact .inl h
  | cons a log' ih =>
    rw [List.cons_append, List.suffix_cons_iff] at h
    rcases h with h | h
    · obtain ⟨rfl, rfl⟩ := List.cons.inj h
      exact .inr ⟨log', rfl, List.suffix_refl _⟩
    · exact (ih h).imp_right fun ⟨e, he, hsuffix⟩ => ⟨e, he, hsuffix.trans (List.suffix_cons _ _)⟩

/-- The earlier part of a log ends in what was logged first. -/
theorem cons_suffix_append_singleton {earlier : List Copy} (h : w :: earlier <:+ log ++ [v]) :
    w = v ∧ earlier = [] ∨ ∃ e, earlier = e ++ [v] ∧ w :: e <:+ log := by
  refine (cons_suffix_append h).imp_left fun h => ?_
  rcases List.suffix_cons_iff.1 h with h | h
  · exact List.cons.inj h
  · exact absurd (List.suffix_nil.1 h) (List.cons_ne_nil _ _)

/-- What is copied later comes before what is copied first. -/
theorem trans (h : Placing p items c c' log) (h' : Placing p items c' c'' log') :
    Placing p items c c'' (log' ++ log) where
  extension := h.extension.trans h'.extension
  cloned q s := by
    simp only [h'.cloned, h.cloned, List.mem_append, or_and_right, exists_or, or_assoc]
  new w hw := by
    rcases List.mem_append.1 hw with hw | hw
    · exact h.none_of_none (h'.new w hw)
    · exact h.new w hw
  sources := by
    rw [List.map_append]
    -- What the first part has copied is remembered, so the second does not copy it again.
    refine h'.sources.append h.sources fun q hq' hq => ?_
    obtain ⟨w', hw', rfl⟩ := List.mem_map.1 hq'
    obtain ⟨w, hw, hsame⟩ := List.mem_map.1 hq
    have hnew := h'.new w' hw'
    rw [← hsame, h.cloned_of_mem hw] at hnew
    cases hnew
  fresh w hw := by
    rcases List.mem_append.1 hw with hw | hw
    · exact ⟨h.contains_eq_false (h'.fresh w hw).1, (h'.fresh w hw).2⟩
    · exact ⟨(h.fresh w hw).1, h'.extension.contains (h.fresh w hw).2⟩
  images := by
    rw [List.map_append]
    -- A copy of the second part was not there yet when the first ended.
    refine h'.images.append h.images fun s hs' hs => ?_
    obtain ⟨w', hw', rfl⟩ := List.mem_map.1 hs'
    obtain ⟨w, hw, hsame⟩ := List.mem_map.1 hs
    exact Bool.eq_false_iff.1 (h'.fresh w' hw').1 (hsame ▸ (h.fresh w hw).2)
  leaves w hw hlive := by
    rcases List.mem_append.1 hw with hw | hw
    · exact (h'.leaves w hw (h.extension.contains hlive)).of_extends h.extension hlive
    · exact (h.leaves w hw hlive).mono (fun _ _ => h'.lasts)
        (h'.extension.childrenOf (h.fresh w hw).2)
  closed w hw q hq := by
    rcases List.mem_append.1 hw with hw | hw
    · exact h'.closed w hw q hq
    · exact (h.closed w hw q hq).imp fun s => h'.lasts
  placed w earlier hsuffix := by
    rcases cons_suffix_append hsuffix with hw | ⟨e, rfl, hw⟩
    · -- Copied in the first part, and left where it is by the second.
      rw [h'.extension.parent? (h.fresh w (hw.subset List.mem_cons_self)).2]
      exact h.placed w earlier hw
    · -- Copied in the second part: all that the first part leads to is older.
      rw [Copy.host_append_of_none (h.host_eq_none (h'.new w (hw.subset List.mem_cons_self)))]
      exact h'.placed w e hw
  asked w earlier hsuffix hnone := by
    rcases cons_suffix_append hsuffix with hw | ⟨e, rfl, hw⟩
    · exact h.asked w earlier hw hnone
    · rw [Copy.host_append_of_none (h.host_eq_none (h'.new w (hw.subset List.mem_cons_self)))]
        at hnone
      exact h'.asked w e hw hnone

section

variable {o : Object} {f : Object → Object} {parts : List Ref}

/-- What is copied after a copy of `r` is begun is not `r`, and does not become
    that copy. -/
theorem apart (htag : r.tag < c.graph.stores.length)
    (h : Placing p items (c.withImage r o) c' log) (hw : w ∈ log) :
    w.source ≠ r ∧ w.image ≠ c.graph.fresh r.tag ∧ c.cloned? w.source = none ∧
      c.graph.contains w.image = false := by
  have hnone := h.new w hw
  have hfresh := (h.fresh w hw).1
  have hsource : w.source ≠ r := by
    rintro rfl
    rw [Cloner.cloned?_withImage, if_pos rfl] at hnone
    cases hnone
  refine ⟨hsource, ?_, ?_, ?_⟩
  · intro hsame
    rw [hsame, Cloner.contains_withImage htag] at hfresh
    cases hfresh
  · rwa [Cloner.cloned?_withImage, if_neg hsource] at hnone
  · exact Bool.eq_false_iff.2 fun hlive =>
      Bool.eq_false_iff.1 hfresh ((Graph.Extends.refl _).add.contains hlive)

/-- An object is put below all that was copied from it, when its copy is written
    into. -/
theorem make (hnew : c.cloned? r = none) (htag : r.tag < c.graph.stores.length)
    (hparent : o.header.parent = p)
    (h : Placing (some (c.graph.fresh r.tag)) parts (c.withImage r o) c' log)
    (hparts : ∀ q ∈ parts, ∃ s, c'.cloned? q = some s)
    (hf : ∀ o, (f o).header.parent = o.header.parent)
    (hleaves : c.graph.contains r = true → Cloner.Leaves c.graph
      { c' with graph := c'.graph.modify (c.graph.fresh r.tag) f }
      ⟨r, c.graph.fresh r.tag, parts⟩) :
    Placing p [r] c { c' with graph := c'.graph.modify (c.graph.fresh r.tag) f }
      (log ++ [⟨r, c.graph.fresh r.tag, parts⟩]) := by
  have hmade : (c.withImage r o).graph.contains (c.graph.fresh r.tag) = true :=
    Cloner.contains_withImage htag
  -- The parts are copied after `r` is in the memo,
  -- so none of them is `r` and no copy is its copy.
  have hgrows : c.graph.Extends (c.withImage r o).graph := (Graph.Extends.refl _).add
  exact {
    extension := (hgrows.trans h.extension).modify Graph.contains_fresh
    cloned := fun q s => by
      refine (h.cloned q s).trans ?_
      rw [Cloner.cloned?_withImage]
      simp only [List.mem_append, List.mem_singleton, or_and_right, exists_or, exists_eq_left,
        or_assoc]
      by_cases hq : q = r
      · simp [hq, hnew]
      · simp [hq, Ne.symm hq]
    new := List.forall_mem_append.2
      ⟨fun w hw => (h.apart htag hw).2.2.1, List.forall_mem_singleton.2 hnew⟩
    sources := by
      rw [List.map_append]
      refine h.sources.append (List.nodup_singleton _) (List.disjoint_singleton.2 fun hmem => ?_)
      obtain ⟨w, hw, hsame⟩ := List.mem_map.1 hmem
      exact (h.apart htag hw).1 hsame
    fresh := by
      simp only [Graph.contains_modify]
      refine List.forall_mem_append.2 ⟨fun w hw => ?_, List.forall_mem_singleton.2 ?_⟩
      · exact ⟨(h.apart htag hw).2.2.2, (h.fresh w hw).2⟩
      · exact ⟨Graph.contains_fresh, h.extension.contains hmade⟩
    images := by
      rw [List.map_append]
      refine h.images.append (List.nodup_singleton _) (List.disjoint_singleton.2 fun hmem => ?_)
      obtain ⟨w, hw, hsame⟩ := List.mem_map.1 hmem
      exact (h.apart htag hw).2.1 hsame
    leaves := by
      refine List.forall_mem_append.2 ⟨fun w hw hlive => ?_, List.forall_mem_singleton.2 hleaves⟩
      refine ((h.leaves w hw (hgrows.contains hlive)).of_extends hgrows hlive).mono
        (fun _ _ hs => hs) ?_
      rw [Graph.childrenOf, Graph.childrenOf, Graph.object?_modify_of_ne _ (h.apart htag hw).2.1]
    closed := List.forall_mem_append.2 ⟨h.closed, List.forall_mem_singleton.2 hparts⟩
    placed := fun w earlier hsuffix => by
      rw [Graph.parent?_modify_of_eq hf]
      rcases cons_suffix_append_singleton hsuffix with ⟨rfl, rfl⟩ | ⟨e, rfl, hw⟩
      · rw [h.extension.parent? hmade]
        exact (Graph.parent?_eq (Graph.object?_add_fresh htag)).trans hparent
      · -- What is met from nothing else is met from `r`, whose copy it is put under.
        rw [Copy.host_append_singleton (h.asked w e hw), h.placed w e hw]
        cases Copy.host e w.source <;> rfl
    asked := fun w earlier hsuffix hnone => by
      rcases cons_suffix_append_singleton hsuffix with ⟨rfl, rfl⟩ | ⟨e, rfl, hw⟩
      · exact List.mem_singleton_self r
      · rw [Copy.host_append_singleton (h.asked w e hw)] at hnone
        cases hnone }

end

end Placing

/-- From `c` to `c'`, objects were copied, being met from one another or as one of
    `items` under `p`. -/
def Places (p : Option Ref) (items : List Ref) {σ : Type} (c c' : Cloner σ) : Prop :=
  ∃ log, Placing p items c c' log

namespace Places

variable {σ : Type} {p : Option Ref} {items items' : List Ref} {c c' c'' : Cloner σ} {r s : Ref}

theorem refl (p : Option Ref) (items : List Ref) (c : Cloner σ) : Places p items c c :=
  ⟨[], .refl p items c⟩

theorem trans (h : Places p items c c') (h' : Places p items c' c'') : Places p items c c'' :=
  let ⟨_, h⟩ := h
  let ⟨_, h'⟩ := h'
  ⟨_, h.trans h'⟩

theorem mono (h : Places p items c c') (hsub : items ⊆ items') : Places p items' c c' :=
  h.imp fun _ h => h.mono hsub

theorem lasts (h : Places p items c c') (hs : c.cloned? r = some s) : c'.cloned? r = some s :=
  let ⟨_, h⟩ := h
  h.lasts hs

end Places

/-! ## Parts of cloning -/

/-- Cloning by `clone` tells what became of an object, and places what it copies. -/
def PlacesEach (clone : Ref → Option Ref → Cloning NoBindings Ref) : Prop :=
  ∀ c r p, Ends (clone r p) c (fun s c' => c'.cloned? r = some s ∧ Places p [r] c c') fun _ => True

variable {clone : Ref → Option Ref → Cloning NoBindings Ref} {c : Cloner NoBindings}
  {p : Option Ref} {r : Ref}

/-- There is only one way in which nothing is bound. -/
theorem run_changeBindings_noBindings (f : NoBindings → NoBindings) :
    (changeBindings f : Cloning NoBindings Unit).run c = (.ok (), c) := by
  have hsame : f c.bindings = c.bindings := by cases f c.bindings; cases c.bindings; rfl
  exact congrArg (fun b => (Except.ok (), { c with bindings := b })) hsame

/-- The new object is under `p`, and has no children. -/
theorem ends_allocate_image {σ : Type} {c : Cloner σ} {source : Header}
    (hr : c.graph.contains r = true) :
    Ends (allocate r p source) c (fun copy c' => copy = c.graph.fresh r.tag ∧
      ∃ o : Object, o.header.parent = p ∧ o.header.children = [] ∧ c' = c.withImage r o)
      fun _ => True :=
  ends_allocate_of (Graph.tag_lt_of_contains hr) (fun _ => trivial) fun _ _ =>
    ⟨rfl, _, rfl, rfl, rfl⟩

/-- Objects in a list are cloned one after the other. -/
theorem PlacesEach.mapM (hclone : PlacesEach clone) (l : List Ref) :
    Ends (l.mapM (clone · p)) c
      (fun copies c' => List.Forall₂ (fun k k' => c'.cloned? k = some k') l copies ∧
        Places p l c c') fun _ => True := by
  have hall := Ends.mapM (l := l) (R := Places p l) (F := fun k k' c' => c'.cloned? k = some k')
    (I := fun _ => True) (E := fun _ => True) (f := (clone · p)) (s := c) (.refl p l)
    (fun _ _ _ => .trans) (fun _ _ _ _ h hs => h.lasts hs) (fun k hk c _ => ?_) trivial
  · exact hall.mono (fun _ _ h => ⟨h.1, h.2.1⟩) fun _ h => h
  · exact (hclone c k p).mono
      (fun _ _ h => ⟨h.1, h.2.mono fun _ h => List.mem_singleton.1 h ▸ hk, trivial⟩) fun _ h => h

/-- All of a list was cloned. -/
def All {σ : Type} (items : List Ref) (c : Cloner σ) : Prop :=
  ∀ q ∈ items, ∃ s, c.cloned? q = some s

/-- Where there is a copy for each of some objects, all of them have been copied. -/
theorem All.of_forall₂ {σ : Type} {c : Cloner σ} {items copies : List Ref}
    (h : List.Forall₂ (fun k k' => c.cloned? k = some k') items copies) : All items c := by
  intro q hq
  induction h with
  | nil => cases hq
  | cons hk _ ih =>
    rcases List.mem_cons.1 hq with rfl | hq
    · exact ⟨_, hk⟩
    · exact ih hq

theorem Places.all {σ : Type} {items items' : List Ref} {c c' : Cloner σ}
    (h : Places p items c c') (hall : All items' c) : All items' c' :=
  fun q hq => (hall q hq).imp fun _ => h.lasts

/-- All references of a value are copied, one after the other. -/
theorem PlacesEach.mapRefs (hclone : PlacesEach clone) (v : Value) :
    Ends (mapRefs (clone · p) v) c (fun _ c' => All v.references c' ∧ Places p v.references c c')
      fun _ => True := by
  have hnone {v : Value} (h : v.references = []) : Ends (pure v : Cloning NoBindings Value) c
      (fun _ c' => All v.references c' ∧ Places p v.references c c') fun _ => True :=
    .pure ⟨fun q hq => absurd (h ▸ hq) List.not_mem_nil, .refl _ _ _⟩
  unfold Cloning.mapRefs
  split
  · refine (hclone c _ p).bind fun s c' ⟨hs, h⟩ => .pure ⟨?_, h⟩
    exact fun q hq => ⟨s, List.mem_singleton.1 hq ▸ hs⟩
  · exact (hclone.mapM _).bind fun copies c' ⟨hcopies, h⟩ => .pure ⟨.of_forall₂ hcopies, h⟩
  · refine hnone ?_
    cases v with
    | ref target => cases target <;> simp_all [Value.references]
    | refs items => cases items <;> simp_all [Value.references]
    | _ => rfl

/-- Members are cloned one after the other. -/
theorem PlacesEach.mapMembers (hclone : PlacesEach clone) (policy : PolicyTable) (how : Method)
    (members : List Member) (values : List Value) :
    let parts := followed (clonesDeep policy how.chain how.custom) members values
    Ends ((members.zip values).mapM fun (m, v) =>
        if m.isReference then cloneReferences (clone · p) policy how members values m v
        else pure v) c
      (fun _ c' => All parts c' ∧ Places p parts c c') fun _ => True := by
  intro parts
  -- What is cloned in a member, of all that is.
  let cloned (mv : Member × Value) : List Ref :=
    if mv.1.isReference && clonesDeep policy how.chain how.custom mv.1 then mv.2.references else []
  have hall := Ends.mapM (l := members.zip values) (R := Places p parts)
    (F := fun mv (_ : Value) c' => All (cloned mv) c') (I := fun _ => True) (E := fun _ => True)
    (f := fun (m, v) =>
      if m.isReference then cloneReferences (clone · p) policy how members values m v else pure v)
    (s := c) (.refl p parts) (fun _ _ _ => .trans) (fun _ _ _ _ h => h.all)
    (fun mv hmv c _ => ?_) trivial
  · refine hall.mono (fun copies c' h => ⟨fun q hq => ?_, h.2.1⟩) fun _ h => h
    obtain ⟨mv, hmv, hq⟩ := List.mem_flatMap.1 hq
    obtain ⟨i, hi, rfl⟩ := List.mem_iff_getElem.1 hmv
    exact h.1.get hi (h.1.length_eq ▸ hi) q hq
  · obtain ⟨m, v⟩ := mv
    have hsub : cloned (m, v) ⊆ parts := fun q hq => List.mem_flatMap.2 ⟨(m, v), hmv, hq⟩
    suffices hone : Ends _ c (fun _ c' => All (cloned (m, v)) c' ∧ Places p (cloned (m, v)) c c')
        fun _ => True from
      hone.mono (fun _ _ h => ⟨h.1, h.2.mono hsub, trivial⟩) fun _ h => h
    dsimp only [cloned]
    have hshared : Ends (pure v : Cloning NoBindings Value) c
        (fun _ c' => All [] c' ∧ Places p [] c c') fun _ => True :=
      .pure ⟨fun q hq => absurd hq List.not_mem_nil, .refl _ _ _⟩
    cases href : m.isReference with
    | false => exact hshared
    | true =>
      simp only [if_true, cloneReferences_noBindings, Bool.true_and]
      cases clonesDeep policy how.chain how.custom m with
      | true => exact hclone.mapRefs v
      | false => exact hshared

/-- The bindings are passed over. -/
theorem ends_changeBindings {α : Type} {f : NoBindings → NoBindings}
    {x : Unit → Cloning NoBindings α} {Q : α → Cloner NoBindings → Prop}
    {E : Cloner NoBindings → Prop} (h : Ends (x ()) c Q E) :
    Ends (changeBindings f >>= x) c Q E :=
  .after (run_changeBindings_noBindings f) h

/-- An object is placed under its parent, and what it leads to under the object. -/
theorem PlacesEach.generic (hclone : PlacesEach clone) (hnew : c.cloned? r = none)
    (hkind : c.graph.model.cloneKind r.tag ≠ .custom .constant) :
    Ends (Cloning.generic clone (c.graph.model.chainAt r.tag)
      (c.graph.model.cloneKind r.tag).custom? r p) c
      (fun s c' => c'.cloned? r = some s ∧ Places p [r] c c') fun _ => True := by
  refine ends_read trivial fun source hread => ?_
  have ho := Graph.object_eq_ok.1 hread
  have hlive := Graph.contains_of_object? ho
  have htag := Graph.tag_lt_of_contains hlive
  refine (ends_allocate_image hlive).bind fun copy c₁ ⟨hcopy, o, hparent, _, hc₁⟩ => ?_
  subst hcopy hc₁
  refine .after (run_fromGraph rfl) (.after (run_fromGraph rfl) (ends_changeBindings ?_))
  generalize Option.getD _ "" = name
  refine ends_read trivial fun members hread => ?_
  have hmembers : c.graph.members r = .ok members := hread
  refine (hclone.mapMembers _ ⟨_, _, name⟩ members source.values).bind
    fun values c₁ ⟨hall, h₁⟩ => ?_
  refine (hclone.mapM source.header.children).bind fun children c₂ ⟨hchildren, h₂⟩ =>
    ends_changeBindings ?_
  -- The copy gets what became of the members and children.
  obtain ⟨log, hlog⟩ := (h₁.mono (List.subset_append_left _ _)).trans
    (h₂.mono (List.subset_append_right _ _))
  have hmade := hlog.extension.contains (Cloner.contains_withImage htag)
  refine .after (run_changeGraph (Graph.updateHeader_eq hmade)) (.after (run_changeGraph
    (Graph.setValues_eq ((Graph.contains_modify _).trans hmade))) (.pure ?_))
  rw [Graph.modify_modify]
  have hplacing := hlog.make hnew htag hparent
    (fun q hq => (List.mem_append.1 hq).elim (h₂.all hall q) (All.of_forall₂ hchildren q))
    (f := fun o => { header := { o.header with children }, values }) (fun _ => rfl) fun _ => {
      parts := by rw [Graph.follows, ho, hmembers]; exact (if_neg hkind).symm
      constant := fun h => absurd h hkind
      children := fun _ => by
        rw [Graph.childrenOf_eq ho, Graph.childrenOf_modify (k := fun _ => children) hmade
          fun _ => rfl, if_pos rfl]
        exact hchildren }
  exact ⟨hplacing.cloned_of_mem (List.mem_append_right _ (List.mem_singleton_self _)), _, hplacing⟩

/-- A constant is copied without its children. -/
theorem ends_shallow_places (hnew : c.cloned? r = none)
    (hkind : c.graph.model.cloneKind r.tag = .custom .constant) :
    Ends (shallow r p) c (fun s c' => c'.cloned? r = some s ∧ Places p [r] c c')
      fun _ => True := by
  refine ends_read trivial fun source hread => ?_
  have ho := Graph.object_eq_ok.1 hread
  have hlive := Graph.contains_of_object? ho
  have htag := Graph.tag_lt_of_contains hlive
  refine (ends_allocate_image hlive).bind fun copy c₁ ⟨hcopy, o, hparent, hchildren, hc₁⟩ => ?_
  subst hcopy hc₁
  have hmade := Cloner.contains_withImage (c := c) (r := r) (o := o) htag
  refine .after (run_changeGraph (Graph.setValues_eq hmade)) (.pure ?_)
  -- A constant is copied by its values alone: it has no parts and no children.
  have hplacing := (Placing.refl _ [] (c.withImage r o)).make hnew htag hparent
    (fun q hq => absurd hq List.not_mem_nil)
    (f := fun o => { o with values := source.values }) (fun _ => rfl) fun _ => {
      parts := by
        rw [Graph.follows, ho]
        split
        · exact (if_pos hkind).symm
        · rfl
      constant := fun _ => (Graph.childrenOf_modify_of_eq
        (f := fun o => { o with values := source.values }) fun _ => rfl).trans
        ((Graph.childrenOf_eq (Graph.object?_add_fresh htag)).trans hchildren)
      children := fun h => absurd hkind h }
  exact ⟨hplacing.cloned_of_mem (List.mem_append_right _ (List.mem_singleton_self _)), _, hplacing⟩

/-- No clone is found by its name. -/
theorem PlacesEach.dedup (hclone : PlacesEach clone) {kind : BindingKind}
    (hnew : c.cloned? r = none) (hkind : c.graph.model.cloneKind r.tag = .dedupByName kind) :
    Ends (Cloning.dedup clone (c.graph.model.chainAt r.tag) kind r p) c
      (fun s c' => c'.cloned? r = some s ∧ Places p [r] c c') fun _ => True := by
  have hgeneric := hclone.generic (p := p) hnew (by rw [hkind]; exact EntityClone.noConfusion)
  rw [hkind] at hgeneric
  refine .after (run_fromGraph rfl) ?_
  split
  · exact hgeneric
  · have hunbound (name : String) : bound? kind name c.bindings = none := by cases kind <;> rfl
    refine .after (a := none) (congrArg (fun b => (Except.ok b, c)) (hunbound _)) ?_
    exact hgeneric.bind fun s c' h => ends_changeBindings (.pure h)

/-- Each way of cloning an object places what it copies. -/
theorem PlacesEach.cloneWith (hclone : PlacesEach clone) :
    PlacesEach (Cloning.cloneWith clone) := by
  intro c r p
  refine ends_cloneWith (fun s hs => ⟨hs, .refl _ _ _⟩) (fun _ => trivial)
    (fun hnew _ => ?_) (fun hnew _ => ?_) fun hnew hkind => ?_
  · exact hclone.generic hnew
  · exact hclone.dedup hnew
  · exact ends_shallow_places hnew hkind

/-- Cloning to whatever depth places copies under those that lead to them. -/
theorem places_cloneUpTo (n : Nat) : PlacesEach (cloneUpTo n) := by
  induction n with
  | zero => exact fun _ _ _ => trivial
  | succ n ih => exact ih.cloneWith

end Cloning

/-! ## Parents and children of copies -/

/-- Where children and parents agree, the copy of a child is placed under the copy
    of its parent just if the child is met from there in this run. -/
theorem Cloning.Placing.parent?_iff {c c' : Cloner NoBindings} {parent : Option Ref}
    {items : List Ref} {log : List Copy} {v : Copy} {k k' : Ref}
    (h : Placing parent items c c' log)
    (hadopted : ∀ p k, k ∈ c.graph.childrenOf p ↔ c.graph.parent? k = some p)
    (hmemo : ∀ q s, c.cloned? q = some s → c.graph.contains s = true)
    (hv : v ∈ log) (hparent : parent ≠ some v.image) (hk : c'.cloned? k = some k') :
    c'.graph.parent? k' = some v.image ↔
      ∃ w earlier, w :: earlier <:+ log ∧ w.source = k ∧ Copy.host earlier k = some v := by
  constructor
  · intro hplace
    rcases (h.cloned k k').1 hk with ⟨w, hw, rfl, rfl⟩ | hk
    · obtain ⟨later, earlier, rfl⟩ := List.append_of_mem hw
      have hsuffix := List.suffix_append later (w :: earlier)
      refine ⟨w, earlier, hsuffix, rfl, ?_⟩
      -- The copy is under its host, and copies of different objects are different.
      rw [h.placed w earlier hsuffix] at hplace
      cases hhost : Copy.host earlier w.source with
      | none => exact absurd (by simpa [hhost] using hplace) hparent
      | some u =>
        have himage : u.image = v.image := by simpa [hhost] using hplace
        have hu : u ∈ later ++ w :: earlier := List.mem_append_right _
          (List.mem_cons_of_mem _ (List.mem_of_find?_eq_some hhost))
        rw [List.inj_on_of_nodup_map h.images hu hv himage]
    · -- A copy of an earlier run has its parent already, which is no new object.
      rw [h.extension.parent? (hmemo k k' hk)] at hplace
      have hlive := Graph.contains_of_mem_childrenOf ((hadopted _ _).2 hplace)
      exact absurd hlive (Bool.eq_false_iff.1 (h.fresh v hv).1)
  · rintro ⟨w, earlier, hsuffix, rfl, hhost⟩
    have himage := h.cloned_of_mem (hsuffix.subset List.mem_cons_self)
    obtain rfl := Option.some.inj (himage.symm.trans hk)
    rw [h.placed w earlier hsuffix, hhost]
    rfl

/-- Where nothing is bound, a run of cloning copies objects, each once. A copy is
    placed under that of the object copied last among those copied before that
    lead to its source, and the copy of the first under the parent that was asked
    for. The children of a copy are what became of those of its source, unless
    this is a constant, whose copy has none. Where children and parents agree in
    the graph, those of such a copy agree with it just if each child of its
    source was met from there in this run. -/
theorem Cloner.cloneObject_places (c : Cloner NoBindings) (r : Ref) (parent : Option Ref)
    (copy : Ref) (hadopted : ∀ p k, k ∈ c.graph.childrenOf p ↔ c.graph.parent? k = some p)
    (hmemo : ∀ q s, c.cloned? q = some s → c.graph.contains s = true)
    (hrun : (c.cloneObject r parent).1 = .ok copy) :
    let c' := (c.cloneObject r parent).2
    c'.cloned? r = some copy ∧ ∃ log : List Copy,
      (log.map (·.source)).Nodup ∧ (log.map (·.image)).Nodup ∧
      (∀ q s, c'.cloned? q = some s ↔
        (∃ w ∈ log, w.source = q ∧ w.image = s) ∨ c.cloned? q = some s) ∧
      (∀ w ∈ log, c.cloned? w.source = none ∧ c.graph.contains w.image = false ∧
        c'.graph.contains w.image = true) ∧
      (∀ w earlier, w :: earlier <:+ log →
        c'.graph.parent? w.image = ((Copy.host earlier w.source).map (·.image)).or parent ∧
        (Copy.host earlier w.source = none → w.source = r)) ∧
      ∀ v ∈ log, c.graph.contains v.source = true → c'.Leaves c.graph v ∧
        (c.graph.model.cloneKind v.source.tag ≠ .custom .constant → parent ≠ some v.image →
          ((∀ k' ∈ c'.graph.childrenOf v.image, c'.graph.parent? k' = some v.image) ↔
            ∀ k ∈ c.graph.childrenOf v.source, ∃ w earlier, w :: earlier <:+ log ∧
              w.source = k ∧ Copy.host earlier k = some v)) := by
  intro c'
  obtain ⟨hcopy, log, h⟩ := (Cloning.places_cloneUpTo c.graph.cloneDepth c r parent).of_ok hrun
  refine ⟨hcopy, log, h.sources, h.images, h.cloned, fun w hw => ⟨h.new w hw, h.fresh w hw⟩,
    fun w earlier hw => ⟨h.placed w earlier hw, fun hnone => ?_⟩, fun v hv hlive =>
    ⟨h.leaves v hv hlive, fun hkind hparent => ?_⟩⟩
  · exact List.mem_singleton.1 (h.asked w earlier hw hnone)
  · -- The children of a copy are the copies of the children, in their order.
    have hchildren := (h.leaves v hv hlive).children hkind
    have hiff {k k' : Ref} (hk : c'.cloned? k = some k') :=
      h.parent?_iff hadopted hmemo hv hparent hk
    constructor
    · intro hall k hk
      obtain ⟨i, hi, rfl⟩ := List.mem_iff_getElem.1 hk
      have hi' := hchildren.length_eq ▸ hi
      exact (hiff (hchildren.get hi hi')).1 (hall _ (List.getElem_mem hi'))
    · intro hall k' hk'
      obtain ⟨i, hi', rfl⟩ := List.mem_iff_getElem.1 hk'
      have hi := hchildren.length_eq.symm ▸ hi'
      exact (hiff (hchildren.get hi hi')).2 (hall _ (List.getElem_mem hi))

/-- A node with a child, which is met first through the next node. -/
def Network.detour : Graph := Network.graph .empty [
  { next := some 2, children := [1] },
  { parent := some 0 },
  { next := some 1 }]

theorem Network.adopted_detour (p k : Ref) :
    k ∈ detour.childrenOf p ↔ detour.parent? k = some p :=
  adopted (by decide) (by decide) p k

theorem Cloner.cloneObject_places_detour :
    let c : Cloner NoBindings := ⟨Network.detour, .none, []⟩
    let c' := (c.cloneObject (Network.ref 0) none).2
    c'.cloned? (Network.ref 0) = some (Network.ref 3) ∧ ∃ log : List Copy,
      ∀ w earlier, w :: earlier <:+ log →
        c'.graph.parent? w.image = ((Copy.host earlier w.source).map (·.image)).or none := by
  intro c c'
  have hrun : (c.cloneObject (Network.ref 0) none).1 = .ok (Network.ref 3) := by decide +kernel
  obtain ⟨hcopy, log, -, -, -, -, hplaced, -⟩ := cloneObject_places c (Network.ref 0) none
    (Network.ref 3) Network.adopted_detour (fun _ _ h => by cases h) hrun
  exact ⟨hcopy, log, fun w earlier hw => (hplaced w earlier hw).1⟩

/-- The copy of a child that is met through another object is not placed under the
    copy that has it for a child. -/
theorem Graph.cloneTree_detour_not_adopted :
    let run := Network.detour.cloneTree NoBindings.none (Network.ref 0) none
    (∀ p k, k ∈ Network.detour.childrenOf p ↔ Network.detour.parent? k = some p) ∧
      run.1 = .ok (Network.ref 3) ∧ run.2.cloned? (Network.ref 0) = some (Network.ref 3) ∧
      run.2.graph.childrenOf (Network.ref 3) = [Network.ref 5] ∧
      run.2.graph.parent? (Network.ref 5) = some (Network.ref 4) :=
  ⟨Network.adopted_detour, by decide +kernel⟩

/-- The copy of a constant does not have copies of its children. -/
theorem Graph.cloneTree_constant_not_adopted :
    let g := Network.graph (PolicyTable.empty.addAll [.entityClone "node" (.custom .constant)])
      [{ children := [1] }, { parent := some 0 }]
    let run := g.cloneTree NoBindings.none (Network.ref 0) none
    (∀ p k, k ∈ g.childrenOf p ↔ g.parent? k = some p) ∧
      run.1 = .ok (Network.ref 2) ∧ run.2.cloned? (Network.ref 0) = some (Network.ref 2) ∧
      g.childrenOf (Network.ref 0) = [Network.ref 1] ∧
      run.2.graph.childrenOf (Network.ref 2) = [] :=
  ⟨Network.adopted (by decide) (by decide), by decide +kernel⟩

end ObjectModel
