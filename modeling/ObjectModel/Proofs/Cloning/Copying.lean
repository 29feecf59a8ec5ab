import ObjectModel.Proofs.Cloning.Making
import ObjectModel.Proofs.Graph.Renaming
import ObjectModel.Proofs.Search

/-!
# Cloning as copying

Where nothing is bound to a name, cloning copies objects. What became of an
object is its image. The references in a member are replaced by images, all of
them, or are shared, none of them being replaced (`Cloner.Turns`).

Between two steps the images are distinct new objects, and there are no new
objects besides (`Cloner.Copying`). An image is finished when it holds what its
source does, under images (`Cloner.Finished`). A part of cloning finishes every
image that it makes, so that only those are unfinished that were before: the
images of the objects that cloning is about to come back to
(`Cloner.Advances`). When all is done there are none of them.
-/

namespace ObjectModel

namespace Cloner

variable {σ : Type}

/-- The objects that were cloned. -/
def sources (c : Cloner σ) : List Ref := c.memo.map Prod.fst

/-- What became of an object; the object itself, if it was not cloned. -/
def image (c : Cloner σ) (r : Ref) : Ref := (c.cloned? r).getD r

/-- `w` is what becomes of `v`: all references are replaced by images, or none
    is, provided that they may be shared. -/
def Turns (shares : Prop) (c : Cloner σ) (v w : Value) : Prop :=
  (w = v.map c.image ∧ ∀ r ∈ v.references, r ∈ c.sources) ∨ shares ∧ w = v

/-- The object `s` holds what becomes of what `r` held in `g`, with the same
    place in the source text. If references may be shared, nothing is said of
    children. -/
def Finished (g : Graph) (shares : Prop) (c : Cloner σ) (r s : Ref) : Prop :=
  ∃ o o', g.object? r = some o ∧ c.graph.object? s = some o' ∧
    (o'.header.file = o.header.file ∧ o'.header.start = o.header.start ∧
      o'.header.stop = o.header.stop) ∧
    (shares ∨ o'.header.children = o.header.children.map c.image ∧
      ∀ q ∈ o.header.children, q ∈ c.sources) ∧
    List.Forall₂ (c.Turns shares) o.values o'.values

/-- Cloning has come from `g`: the images of objects in `D` are distinct objects
    that `g` does not have, and there are no others. For the objects that remain,
    there are ids. -/
structure Copying (g : Graph) (D : Set Ref) (c : Cloner σ) : Prop where
  extension : g.Extends c.graph
  source : ∀ r s, c.cloned? r = some s → r ∈ D
  tag : ∀ r s, c.cloned? r = some s → s.tag = r.tag
  image : ∀ r s, c.cloned? r = some s → c.graph.contains s = true ∧ g.contains s = false
  injective : ∀ r r' s, c.cloned? r = some s → c.cloned? r' = some s → r = r'
  onto : ∀ s, c.graph.contains s = true → g.contains s = false → ∃ r, c.cloned? r = some s
  ids : c.graph.IdsLeft (remaining g.refs c.sources)

/-- From `c` to `c'`, nothing is changed in the objects of `c`, and every image
    that is made is finished. -/
structure Advances (g : Graph) (shares : Prop) (c c' : Cloner σ) : Prop where
  extension : c.graph.Extends c'.graph
  cloned : ∀ r s, c.cloned? r = some s → c'.cloned? r = some s
  finished : ∀ r s, c'.cloned? r = some s → c.cloned? r = some s ∨ c'.Finished g shares r s

variable {g : Graph} {shares : Prop} {D : Set Ref} {c c' c'' : Cloner σ} {r s : Ref} {v w : Value}

/-- A source is what is remembered to have a clone. -/
theorem mem_sources : r ∈ c.sources ↔ ∃ s, c.cloned? r = some s := by
  rw [cloned?, ← Option.isSome_iff_exists, List.lookup_isSome_iff, sources, List.mem_map]
  constructor
  · rintro ⟨p, hp, rfl⟩
    exact ⟨p, hp, beq_self_eq_true _⟩
  · rintro ⟨p, hp, h⟩
    exact ⟨p, hp, (eq_of_beq h).symm⟩

theorem image_eq (h : c.cloned? r = some s) : c.image r = s := by
  rw [image, h, Option.getD_some]

theorem cloned?_image (h : r ∈ c.sources) : c.cloned? r = some (c.image r) := by
  obtain ⟨s, hs⟩ := mem_sources.1 h
  rw [image_eq hs, hs]

/-! ## Steps forward -/

namespace Advances

theorem refl (g : Graph) (shares : Prop) (c : Cloner σ) : c.Advances g shares c :=
  ⟨.refl _, fun _ _ h => h, fun _ _ h => .inl h⟩

/-- No clone is forgotten. -/
theorem sources_subset (h : c.Advances g shares c') : c.sources ⊆ c'.sources := fun r hr =>
  let ⟨s, hs⟩ := mem_sources.1 hr
  mem_sources.2 ⟨s, h.cloned r s hs⟩

theorem image_of_mem (h : c.Advances g shares c') (hr : r ∈ c.sources) : c'.image r = c.image r :=
  image_eq (h.cloned r _ (cloned?_image hr))

/-- What has become of a value stays so. -/
theorem turns (h : c.Advances g shares c') (hv : c.Turns shares v w) : c'.Turns shares v w := by
  refine hv.imp_left fun ⟨hw, hsources⟩ => ⟨?_, fun r hr => h.sources_subset (hsources r hr)⟩
  rw [hw]
  exact Value.map_congr fun r hr => (h.image_of_mem (hsources r hr)).symm

/-- What is finished stays finished. -/
theorem keeps_finished (h : c.Advances g shares c') (hs : c.Finished g shares r s) :
    c'.Finished g shares r s := by
  obtain ⟨o, o', ho, ho', hspan, hchildren, hvalues⟩ := hs
  refine ⟨o, o', ho, h.extension.object? ho', hspan, hchildren.imp_right ?_,
    hvalues.imp fun _ _ => h.turns⟩
  rintro ⟨hmap, hsources⟩
  refine ⟨?_, fun q hq => h.sources_subset (hsources q hq)⟩
  rw [hmap]
  exact List.map_congr_left fun q hq => (h.image_of_mem (hsources q hq)).symm

/-- One part of cloning goes on where another has ended, and leaves no more
    unfinished than there was. -/
theorem trans (h : c.Advances g shares c') (h' : c'.Advances g shares c'') :
    c.Advances g shares c'' where
  extension := h.extension.trans h'.extension
  cloned r s hs := h'.cloned r s (h.cloned r s hs)
  finished r s hs := by
    rcases h'.finished r s hs with hs | hs
    · exact (h.finished r s hs).imp_right h'.keeps_finished
    · exact .inr hs

theorem remaining_lt {all : List Ref} {n : Nat} (h : c.Advances g shares c')
    (hn : remaining all c.sources < n) : remaining all c'.sources < n :=
  Nat.lt_of_le_of_lt (remaining_le h.sources_subset) hn

end Advances

/-- In the beginning there are no images, and an id is left for each object. -/
theorem Copying.start (D : Set Ref) (s : σ) (hids : g.IdsLeft g.size) :
    Copying g D ⟨g, s, []⟩ where
  extension := .refl g
  source _ _ h := by cases h
  tag _ _ h := by cases h
  image _ _ h := by cases h
  injective _ _ _ h := by cases h
  onto s hs hs' := by rw [hs] at hs'; cases hs'
  ids := hids.mono (Graph.length_refs (g := g) ▸ remaining_le_length)

/-! ## Making an image -/

section

variable {o : Object} (hc : c.Copying g D) (hr : r ∈ D) (hnew : c.cloned? r = none)
  (htag : r.tag < c.graph.stores.length)

/-- The state in which `r` has the new object `o` for an image. -/
def withImage (c : Cloner σ) (r : Ref) (o : Object) : Cloner σ :=
  { c with
    graph := c.graph.add r.tag o
    memo := (r, c.graph.fresh r.tag) :: c.memo }

/-- A new image is remembered for its source only. -/
theorem cloned?_withImage {q : Ref} : (c.withImage r o).cloned? q =
    if q = r then some (c.graph.fresh r.tag) else c.cloned? q := by
  rw [cloned?, withImage, List.lookup_cons]
  split
  · rename_i h
    rw [if_pos (eq_of_beq h)]
  · rename_i h
    rw [if_neg fun hq => Bool.eq_false_iff.1 h (beq_iff_eq.2 hq)]
    rfl

include hnew in
theorem cloned?_of_withImage {q s : Ref} (hs : c.cloned? q = some s) :
    (c.withImage r o).cloned? q = some s := by
  rw [cloned?_withImage, if_neg fun hq => ?_, hs]
  rw [hq, hnew] at hs
  cases hs

include htag in
theorem contains_withImage : (c.withImage r o).graph.contains (c.graph.fresh r.tag) = true :=
  (Graph.contains_add htag).2 (.inl rfl)

include hnew in
/-- With an image more, there is an object less without one. -/
theorem remaining_withImage_lt (hlive : g.contains r = true) :
    remaining g.refs (c.withImage r o).sources < remaining g.refs c.sources := by
  have hsource : r ∉ c.sources := fun h => by
    obtain ⟨s, hs⟩ := mem_sources.1 h
    rw [hnew] at hs
    cases hs
  exact remaining_lt (List.subset_cons_self r c.sources) (Graph.mem_refs.2 hlive) hsource
    List.mem_cons_self

include hnew in
/-- As long as there are ids for all that remains, there is one for each of it. -/
theorem idsLeft_of_remaining (hlive : g.contains r = true)
    (hids : c.graph.IdsLeft (remaining g.refs c.sources)) : c.graph.IdsLeft 1 :=
  hids.mono (Nat.zero_lt_of_lt (remaining_withImage_lt (o := ⟨{ id := 0 }, []⟩) hnew hlive))

include hnew in
/-- The image takes an id, but then there remains an object less. -/
theorem idsLeft_withImage (hlive : g.contains r = true)
    (hids : c.graph.IdsLeft (remaining g.refs c.sources)) :
    (c.withImage r o).graph.IdsLeft (remaining g.refs (c.withImage r o).sources) := by
  have hless := remaining_withImage_lt (o := o) hnew hlive
  have hsucc : (c.withImage r o).graph.lastId.toNat = c.graph.lastId.toNat + 1 :=
    Graph.toNat_succ (idsLeft_of_remaining hnew hlive hids)
  rw [Graph.IdsLeft] at hids ⊢
  omega

include hc hr hnew htag in
/-- A new image is a new object, different from all others. -/
theorem Copying.withImage (hlive : g.contains r = true) : (c.withImage r o).Copying g D := by
  -- An image is the new one, or was one before.
  have hcases {q s : Ref} (hs : (c.withImage r o).cloned? q = some s) :
      q = r ∧ s = c.graph.fresh r.tag ∨ c.cloned? q = some s := by
    rw [cloned?_withImage] at hs
    split at hs
    · exact .inl ⟨‹_›, (Option.some.inj hs).symm⟩
    · exact .inr hs
  have hold {q s : Ref} (hs : c.cloned? q = some s) : s ≠ c.graph.fresh r.tag :=
    Graph.ne_fresh (hc.image q s hs).1
  refine ⟨hc.extension.add, fun q s hs => ?_, fun q s hs => ?_, fun q s hs => ?_,
    fun q q' s hs hs' => ?_, fun s hs hs' => ?_, idsLeft_withImage hnew hlive hc.ids⟩
  · rcases hcases hs with ⟨rfl, -⟩ | hs
    · exact hr
    · exact hc.source q s hs
  · rcases hcases hs with ⟨rfl, rfl⟩ | hs
    · rfl
    · exact hc.tag q s hs
  · rcases hcases hs with ⟨-, rfl⟩ | hs
    · refine ⟨(Graph.contains_add htag).2 (.inl rfl), Bool.eq_false_iff.2 fun h => ?_⟩
      exact Graph.ne_fresh (hc.extension.contains h) rfl
    · exact ⟨(Graph.contains_add htag).2 (.inr (hc.image q s hs).1), (hc.image q s hs).2⟩
  · rcases hcases hs with ⟨rfl, rfl⟩ | hq <;> rcases hcases hs' with ⟨rfl, h⟩ | hq'
    · rfl
    · exact absurd rfl (hold hq')
    · exact absurd h (hold hq)
    · exact hc.injective q q' s hq hq'
  · rcases (Graph.contains_add htag).1 hs with rfl | hs
    · exact ⟨r, by rw [cloned?_withImage, if_pos rfl]⟩
    · obtain ⟨q, hq⟩ := hc.onto s hs hs'
      exact ⟨q, cloned?_of_withImage hnew hq⟩

/-- The images that are made while `r` is copied get finished, and so does the
    image of `r` when its parts are written into it. -/
theorem Advances.finish {f : Object → Object} (hadv : (c.withImage r o).Advances g shares c')
    (hc' : c'.Copying g D) (hnew : c.cloned? r = none)
    (hfinished : Finished g shares
      { c' with graph := c'.graph.modify (c.graph.fresh r.tag) f } r (c.graph.fresh r.tag)) :
    c.Advances g shares { c' with graph := c'.graph.modify (c.graph.fresh r.tag) f } where
  extension := ((Graph.Extends.refl _).add.trans hadv.extension).modify Graph.contains_fresh
  cloned q s hs := hadv.cloned q s (cloned?_of_withImage hnew hs)
  finished q s hs := by
    -- The parts are copied between the start and the
    -- end of `r`, which the memo has all the while.
    have himage : c'.cloned? r = some (c.graph.fresh r.tag) :=
      hadv.cloned r _ (by rw [cloned?_withImage, if_pos rfl])
    rcases eq_or_ne q r with rfl | hq
    · obtain rfl := Option.some.inj (himage.symm.trans hs)
      exact .inr hfinished
    · rcases hadv.finished q s hs with hs | hfin
      · rw [cloned?_withImage, if_neg hq] at hs
        exact .inl hs
      · -- What is finished already is another object than the one written into.
        obtain ⟨p, p', hp, hp', hrest⟩ := hfin
        refine .inr ⟨p, p', hp, ?_, hrest⟩
        have hne : s ≠ c.graph.fresh r.tag := by
          rintro rfl
          exact hq (hc'.injective q r _ hs himage)
        rw [Graph.object?_modify_of_ne _ hne]
        exact hp'

end

/-- Images may be changed, since they are not in the graph that is copied. -/
theorem Copying.modify {f : Object → Object} (hc : c.Copying g D) (hr : g.contains r = false) :
    Copying g D { c with graph := c.graph.modify r f } where
  extension := hc.extension.modify hr
  source := hc.source
  tag := hc.tag
  image r s hs := ⟨(Graph.contains_modify f).trans (hc.image r s hs).1, (hc.image r s hs).2⟩
  injective := hc.injective
  onto s hs hs' := hc.onto s ((Graph.contains_modify f).symm.trans hs) hs'
  ids := hc.ids

theorem Copying.withBindings (hc : c.Copying g D) (b : σ) :
    Copying g D { c with bindings := b } :=
  ⟨hc.extension, hc.source, hc.tag, hc.image, hc.injective, hc.onto, hc.ids⟩

theorem Advances.withBindings (h : c.Advances g shares c') (b : σ) :
    c.Advances g shares { c' with bindings := b } :=
  ⟨h.extension, h.cloned, h.finished⟩

end Cloner

end ObjectModel
