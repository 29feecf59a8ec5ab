import ObjectModel.Proofs.Archive.Accepting
import ObjectModel.Proofs.Graph.Admitting
import ObjectModel.Proofs.Graph.Design

/-!
# What restored references name

Restoring checks values as they are read: each has the form that its member asks
for, and names objects that there are. So what is restored is well typed
(`Restoring.Holds.wellTyped`). Of what entity these objects are is not looked at:
restored graphs are such as the operations on members make them only where it
makes no difference (`Model.restore_admitted_iff`).
-/

namespace ObjectModel

open Wire Archive

variable {m : Model} {e u : Entity} {member : Member} {s : Ref}

/-! ## What is checked -/

/-- Values that fields of the right kinds stand for fit their members. -/
theorem Archive.Field.forall₂_fits {members : List Member} {fields : List Field}
    {t : SymbolTable} {values : List Value} (hfields : List.Forall₂ Field.Suits members fields)
    (hvalues : List.Forall₂ (fun f v => Field.value? t f = some v) fields values) :
    List.Forall₂ (fun m v => Value.fits m v = true) members values := by
  induction hfields generalizing values with
  | nil =>
    cases hvalues
    exact .nil
  | cons hf _ ih =>
    obtain ⟨v, values, hv, htail, rfl⟩ := List.forall₂_cons_left_iff.1 hvalues
    exact .cons (hf.fits hv) (ih htail)

namespace Restoring.Holds

variable {a : Archive} {g : Graph} {roots : List Ref} {r : Ref} {o : Object}

/-- Each object that was restored has an entry that suits its entity, and refers
    only to objects that there are. -/
theorem exists_entry (ha : Holds a g roots) (ho : g.object? r = some o) :
    ∃ x, (∃ e, g.schema.entityAt? r.tag = some e ∧ e.kind.isConcrete = true ∧
      Entry.Suits x (g.schema.membersBaseFirst e)) ∧ Entry.Denotes x a.table o ∧
        ∀ s ∈ o.neighbours, g.contains s = true := by
  obtain ⟨x, hx⟩ := (ha.contains r).1 (Graph.contains_of_object? ho)
  obtain ⟨hsuits, o', ho', hdenotes, hlive⟩ := ha.recorded r x hx
  obtain rfl := Option.some.inj (ho.symm.trans ho')
  exact ⟨x, hsuits, hdenotes, hlive⟩

/-- What is restored is well typed, whatever the bytes were. -/
theorem wellTyped (ha : Holds a g roots) (hm : g.model.Built) : g.WellTyped where
  built := hm
  typed r o ho := by
    obtain ⟨x, ⟨e, he, hconcrete, hsuits⟩, hdenotes, -⟩ := ha.exists_entry ho
    exact ⟨e, he, hconcrete, Field.forall₂_fits hsuits.fields hdenotes.values⟩

theorem neighbours_live (ha : Holds a g roots) (ho : g.object? r = some o) :
    ∀ s ∈ o.neighbours, g.contains s = true :=
  let ⟨_, _, _, hlive⟩ := ha.exists_entry ho
  hlive

end Restoring.Holds

/-! ## What is not checked -/

/-- A member that takes references can hold any. -/
theorem Value.exists_references (hmember : member.isReference = true) (s : Ref) :
    ∃ v : Value, v.fits member = true ∧ v.references = [s] := by
  rcases Member.isReference_iff.1 hmember with hkind | hkind
  · exact ⟨.ref (some s), fits_of_kind hmember hkind.symm, rfl⟩
  · exact ⟨.refs (some [s]), fits_of_kind hmember hkind.symm, rfl⟩

/-- Objects of all entities are targets of all members that take references. -/
def Model.Permissive (m : Model) : Prop :=
  ∀ e ∈ m.schema.concrete, ∀ member ∈ m.schema.membersBaseFirst e, member.isReference = true →
    ∀ u ∈ m.schema.concrete, ∃ tags, m.resolution.targetTags member = .ok tags ∧ u.tag ∈ tags

/-- The members of entities that have objects have target tags. -/
theorem Model.Built.exists_targetTags {tag : Nat} (hm : m.Built)
    (he : m.schema.entityAt? tag = some e) (hconcrete : e.kind.isConcrete = true)
    (hmember : member ∈ m.schema.membersBaseFirst e) :
    ∃ tags, m.resolution.targetTags member = .ok tags := by
  obtain ⟨l, hl, hmembers⟩ := hm.exists_layout he hconcrete
  obtain ⟨slot, hslot, rfl⟩ := List.mem_map.1 (hmembers ▸ hmember)
  exact ⟨slot.targets, hm.targetTags_eq hl hslot⟩

theorem RawSchema.mem_concrete {s : Schema} {tag : Nat} (he : s.entityAt? tag = some e)
    (hconcrete : e.kind.isConcrete = true) : e ∈ s.concrete :=
  List.mem_filter.2 ⟨List.mem_of_getElem? he, hconcrete⟩

/-- Where all objects are targets, all references to objects are admitted. -/
theorem Graph.WellTyped.admitted {g : Graph} (hg : g.WellTyped) (hlive : g.Live)
    (hnum : g.schema.Numbered) (hall : g.model.Permissive) : g.Admitted := by
  intro r o ho
  obtain ⟨e, he, hconcrete, hvalues⟩ := hg.typed r o ho
  refine ⟨e, he, hconcrete, List.forall₂_iff_zip.2 ⟨hvalues.length_eq, fun {member v} hzip => ?_⟩⟩
  have hfits := List.forall₂_zip hvalues hzip
  obtain ⟨hmember, hv⟩ := List.of_mem_zip hzip
  obtain ⟨tags, htags⟩ := hg.built.exists_targetTags he hconcrete hmember
  refine ⟨hfits, tags, htags, fun s hs => ⟨hlive r o ho v hv s hs, ?_⟩⟩
  obtain ⟨p, hp⟩ := contains_iff.1 (hlive r o ho v hv s hs)
  obtain ⟨u, hu, hconcrete', -⟩ := hg.typed s p hp
  obtain ⟨tags', htags', hmem⟩ := hall e (RawSchema.mem_concrete he hconcrete) member hmember
    (Member.isReference_of_fits hfits hs) u (RawSchema.mem_concrete hu hconcrete')
  obtain rfl := Except.ok.inj (htags.symm.trans htags')
  exact hnum.tag_eq hu ▸ hmem

/-! ## Archives of objects that point to one -/

/-- The value holds no text, and points to `s` if it points to anything. -/
structure Value.PointsTo (s : Ref) (v : Value) : Prop where
  references : ∀ r ∈ v.references, r = s
  text : ∀ text, v = .text text → text = ""
  list : ∀ items, v = .refs (some items) → items.length ≤ 1

/-- A default value refers to nothing. -/
theorem Value.pointsTo_default (s : Ref) (m : Member) : (default m).PointsTo s := by
  have hreferences := references_default m
  refine ⟨fun r hr => ?_, fun text htext => ?_, fun items hitems => ?_⟩
  · rw [hreferences] at hr
    cases hr
  · unfold default at htext
    split at htext <;> cases htext <;> rfl
  · rw [hitems] at hreferences
    exact (congrArg List.length hreferences).trans_le (Nat.zero_le 1)

theorem Value.pointsTo_of_references {v : Value} (hv : v.references = [s]) : v.PointsTo s where
  references r hr := List.mem_singleton.1 (hv ▸ hr)
  text t ht := by
    rw [ht] at hv
    cases hv
  list items hitems := by
    rw [hitems] at hv
    exact (congrArg List.length hv).le

/-- The object is new but for values that point to `s`. -/
structure Object.PointsTo (l : Layout) (s : Ref) (o : Object) : Prop where
  header : ∃ id, o.header = { id }
  values : List.Forall₂ (fun slot v => v.fits slot.member = true ∧ v.PointsTo s) l o.values

namespace Object.PointsTo

variable {l : Layout} {o : Object}

theorem value (ho : o.PointsTo l s) {v : Value} (hv : v ∈ o.values) : v.PointsTo s := by
  obtain ⟨i, hi, rfl⟩ := List.getElem_of_mem hv
  exact (ho.values.get (ho.values.length_eq ▸ hi) hi).2

/-- Objects that point to one have no texts of their own. -/
theorem texts (ho : o.PointsTo l s) : ∀ text ∈ o.texts, text = "" := by
  intro text htext
  obtain ⟨id, hid⟩ := ho.header
  rcases Object.mem_texts.1 htext with rfl | hv
  · rw [hid]
  · exact (ho.value hv).text text rfl

/-- An object that points to one refers to nothing else. -/
theorem neighbours (ho : o.PointsTo l s) : ∀ r ∈ o.neighbours, r = s := by
  intro r hr
  obtain ⟨id, hid⟩ := ho.header
  rw [Object.mem_neighbours, hid] at hr
  rcases hr with hr | hr | ⟨v, hv, hr⟩
  · cases hr
  · cases hr
  · exact (ho.value hv).references r hr

theorem writable (ho : o.PointsTo l s) : o.Writable where
  texts text htext := by
    rw [ho.texts text htext]
    exact Nat.two_pow_pos 32
  children := by
    obtain ⟨id, hid⟩ := ho.header
    rw [hid]
    exact Nat.two_pow_pos 32
  lists items hitems :=
    Nat.lt_of_le_of_lt ((ho.value hitems).list items rfl) (Nat.one_lt_two_pow (by decide))

end Object.PointsTo

namespace Layout

variable {l : Layout} {v : Value}

/-- The values of a new object, but for `v` in the slots of a member. -/
def withValue (l : Layout) (member : Member) (v : Value) : List Value :=
  l.map fun slot => if slot.member = member then v else .default slot.member

theorem pointsTo_defaults (l : Layout) (s : Ref) (id : UInt32) :
    Object.PointsTo l s ⟨{ id }, l.defaults⟩ where
  header := ⟨id, rfl⟩
  values := by
    rw [defaults, List.forall₂_map_right_iff, List.forall₂_same]
    exact fun slot _ => ⟨Value.fits_default slot.member, Value.pointsTo_default s slot.member⟩

/-- An object can be made to point to one through any member that takes references. -/
theorem pointsTo_withValue (hfits : v.fits member = true) (hv : v.references = [s]) (id : UInt32) :
    Object.PointsTo l s ⟨{ id }, l.withValue member v⟩ where
  header := ⟨id, rfl⟩
  values := by
    rw [withValue, List.forall₂_map_right_iff, List.forall₂_same]
    intro slot _
    split
    · rename_i h
      exact ⟨h ▸ hfits, Value.pointsTo_of_references hv⟩
    · exact ⟨Value.fits_default slot.member, Value.pointsTo_default s slot.member⟩

theorem mem_zip_withValue (f : Value → Value) (hmember : member ∈ l.members) :
    (member, f v) ∈ l.members.zip ((l.withValue member v).map f) := by
  obtain ⟨slot, hslot, rfl⟩ := List.mem_map.1 hmember
  rw [members, withValue, List.map_map, List.zip_map']
  exact List.mem_map.2 ⟨slot, hslot, by simp⟩

end Layout

namespace Graph

variable {g : Graph} {r : Ref} {tag : Nat}

/-- All objects are new but for values that point to `s`. -/
structure PointsTo (g : Graph) (s : Ref) : Prop where
  built : g.model.Built
  stores : g.stores.length = g.model.layouts.length
  objects : ∀ r o, g.object? r = some o → ∃ l, g.layout r = .ok l ∧ o.PointsTo l s

namespace PointsTo

/-- In an empty graph there is nothing that could point elsewhere. -/
theorem empty (hm : m.Built) (s : Ref) : (empty m).PointsTo s where
  built := hm
  stores := List.length_map _
  objects r o ho := by
    rw [object?_empty] at ho
    cases ho

/-- There is a place for new objects. -/
theorem tag_lt (hg : g.PointsTo s) {l : Layout} (hl : g.model.layout tag = .ok l) :
    tag < g.stores.length :=
  hg.stores ▸ Model.lt_of_layout_eq_ok hl

/-- Another object may be added if it points to the same one. -/
theorem add (hg : g.PointsTo s) {l : Layout} {o : Object} (hl : g.model.layout tag = .ok l)
    (ho : o.PointsTo l s) : (g.add tag o).PointsTo s where
  built := hg.built
  stores := (List.length_modify _ _ _).trans hg.stores
  objects r p hp := by
    rw [object?_add (hg.tag_lt hl)] at hp
    split at hp
    · rename_i hr
      obtain rfl := Option.some.inj hp
      exact ⟨l, by rw [layout, hr]; exact hl, ho⟩
    · exact hg.objects r p hp

theorem wellTyped (hg : g.PointsTo s) : g.WellTyped where
  built := hg.built
  typed r o ho := by
    obtain ⟨l, hl, hpoints⟩ := hg.objects r o ho
    exact hg.built.forall₂_members hl (hpoints.values.imp fun _ _ => And.left)

/-- There are no texts to be written. -/
theorem texts_symbols (hg : g.PointsTo s) (objects : List Ref) :
    (g.symbols objects).texts = [] := by
  rw [List.eq_nil_iff_forall_not_mem]
  intro text htext
  obtain ⟨hne, htext⟩ := (SymbolTable.mem_texts_internAll.1 htext).resolve_left List.not_mem_nil
  obtain ⟨r, -, htext⟩ := List.mem_flatMap.1 htext
  rw [textsOf] at htext
  split at htext
  · rename_i o ho
    obtain ⟨l, -, hpoints⟩ := hg.objects r o ho
    exact hne (hpoints.texts text htext)
  · cases htext

/-- A small graph of such objects is restored from an archive of it. -/
theorem exists_restore (hg : g.PointsTo s) (hs : g.contains s = true) (hnum : g.schema.Numbered)
    (hsize : g.schema.entities.length ≤ 2 ^ 32) {all : List Ref}
    (hall : ∀ r, g.contains r = true → r ∈ all) (hlength : all.length < 2 ^ 32)
    (hr : g.contains r = true) :
    ∃ (bytes : List UInt8) (h : Graph) (objects : List Ref),
      g.model.restore bytes = .ok (h, [renumber objects r]) ∧ g.Renumbered objects h ∧
        r ∈ objects := by
  obtain ⟨objects, hreach⟩ : ∃ objects, g.reachable [r] = .ok objects := by
    refine exists_reachable (D := {r | g.contains r = true}) (fun _ hr => hr) (fun r hr => ?_)
      fun s hs => List.mem_singleton.1 hs ▸ hr
    obtain ⟨o, ho⟩ := contains_iff.1 hr
    obtain ⟨l, -, hpoints⟩ := hg.objects r o ho
    exact ⟨o.neighbours, hg.wellTyped.neighbours ho, fun t ht => hpoints.neighbours t ht ▸ hs⟩
  -- What is reachable is in the graph, and no object is found twice.
  have hcount : objects.length ≤ all.length := by
    refine ((sorted_reachable hreach).nodup.subperm fun t ht => hall t ?_).length_le
    exact contains_iff.2 (object_of_mem_reachable hreach ht)
  have hfit : g.FitsArchive [r] objects :=
    { entityCount := hsize
      rootCount := Nat.one_lt_two_pow (by decide)
      objectCount := Nat.lt_of_le_of_lt hcount hlength
      symbolCount := by
        rw [SymbolTable.size, hg.texts_symbols]
        exact Nat.two_pow_pos 32
      writable := fun t _ o ho => by
        obtain ⟨l, -, hpoints⟩ := hg.objects t o ho
        exact hpoints.writable }
  obtain ⟨h, hrestore, hh⟩ :=
    Model.restore_save hg.wellTyped hnum hg.built rfl hreach hfit (save_eq hg.wellTyped hreach)
  exact ⟨_, h, objects, hrestore, hh, root_mem_reachable hreach List.mem_cons_self⟩

end PointsTo

end Graph

/-- Each member that takes references is restored with references to objects of
    any entity. -/
theorem Model.exists_restore_pointing (hm : m.Built) (hnum : m.schema.Numbered)
    (hsize : m.schema.entities.length ≤ 2 ^ 32) (he : e ∈ m.schema.concrete)
    (hmember : member ∈ m.schema.membersBaseFirst e) (href : member.isReference = true)
    (hu : u ∈ m.schema.concrete) :
    ∃ (bytes : List UInt8) (g : Graph) (r s : Ref) (o : Object) (v : Value),
      m.restore bytes = .ok (g, [r]) ∧ g.object? r = some o ∧
        (member, v) ∈ (m.schema.membersBaseFirst e).zip o.values ∧ v.references = [s] ∧
          r.tag = e.tag ∧ s.tag = u.tag := by
  obtain ⟨hu, huc⟩ := List.mem_filter.1 hu
  obtain ⟨he, hec⟩ := List.mem_filter.1 he
  obtain ⟨lu, hlu, -⟩ := hm.exists_layout (hnum.entityAt? hu) huc
  obtain ⟨le, hle, hmembers⟩ := hm.exists_layout (hnum.entityAt? he) hec
  -- An object of `u`, and one of `e` that points to it.
  let s := (Graph.empty m).fresh u.tag
  obtain ⟨v, hfits, hv⟩ := Value.exists_references href s
  let g₁ := (Graph.empty m).add u.tag ⟨{ id := 1 }, lu.defaults⟩
  let r := g₁.fresh e.tag
  let g := g₁.add e.tag ⟨{ id := 2 }, le.withValue member v⟩
  have hempty := Graph.PointsTo.empty hm s
  have hg₁ : g₁.PointsTo s := hempty.add hlu (lu.pointsTo_defaults s 1)
  have hg : g.PointsTo s := hg₁.add hle (Layout.pointsTo_withValue hfits hv 2)
  have hcontains t : g.contains t = true ↔ t = r ∨ t = s := by
    rw [Graph.contains_add (hg₁.tag_lt hle), Graph.contains_add (hempty.tag_lt hlu),
      Graph.contains, Graph.object?_empty]
    simp [r, s]
  have hall t (ht : g.contains t = true) : t ∈ [r, s] := by simpa using (hcontains t).1 ht
  obtain ⟨bytes, h, objects, hrestore, hh, hr⟩ :=
    hg.exists_restore ((hcontains s).2 (.inr rfl)) hnum hsize hall
      (Nat.lt_of_le_of_lt (Nat.le_refl 2) (by decide)) ((hcontains r).2 (.inl rfl))
  have hobject := hh.object r hr _ (Graph.object?_add_fresh (hg₁.tag_lt hle))
  refine ⟨bytes, h, renumber objects r, renumber objects s, _, v.map (renumber objects), hrestore,
    hobject, ?_, by rw [Value.references_map, hv]; rfl, rfl, rfl⟩
  exact hmembers ▸ Layout.mem_zip_withValue (Value.map (renumber objects)) (hmembers ▸ hmember)

/-! ## Restored graphs -/

/-- Restored graphs are well typed, and their references name objects. That these
    are such as the members take is sure if all members take objects of all
    entities, and only then. -/
theorem Model.restore_admitted_iff (hm : m.Built) (hnum : m.schema.Numbered) :
    (∀ (bytes : List UInt8) (g : Graph) (roots : List Ref), m.restore bytes = .ok (g, roots) →
      g.model = m ∧ g.WellTyped ∧ g.Live) ∧
    (m.schema.entities.length ≤ 2 ^ 32 →
      ((∀ (bytes : List UInt8) (g : Graph) (roots : List Ref), m.restore bytes = .ok (g, roots) →
        g.Admitted) ↔ m.Permissive)) := by
  have hrestored : ∀ (bytes : List UInt8) (g : Graph) (roots : List Ref),
      m.restore bytes = .ok (g, roots) → g.model = m ∧ g.WellTyped ∧ g.Live := by
    intro bytes g roots h
    obtain ⟨a, -, -, rfl, ha⟩ := Model.exists_archive_of_restore hm hnum h
    exact ⟨rfl, ha.wellTyped hm, fun r o ho v hv s hs =>
      ha.neighbours_live ho s (Object.mem_neighbours.2 (.inr (.inr ⟨v, hv, hs⟩)))⟩
  refine ⟨hrestored, fun hsize => ⟨fun hadmitted => ?_, fun hall bytes g roots h => ?_⟩⟩
  · intro e he member hmember href u hu
    -- There is an archive for every entity, member and target, so each target must be allowed.
    obtain ⟨bytes, g, r, s, o, v, hrestore, ho, hv, hs, hr, htag⟩ :=
      m.exists_restore_pointing hm hnum hsize he hmember href hu
    obtain ⟨rfl, -, -⟩ := hrestored bytes g [r] hrestore
    obtain ⟨e', he', -, hvalues⟩ := hadmitted bytes g [r] hrestore r o ho
    obtain rfl : e = e' := by
      rw [hr, hnum.entityAt? (List.mem_of_mem_filter he)] at he'
      exact Option.some.inj he'
    obtain ⟨-, tags, htags, htargets⟩ := List.forall₂_zip hvalues hv
    exact ⟨tags, htags, htag ▸ (htargets s (hs ▸ List.mem_singleton_self s)).2⟩
  · obtain ⟨rfl, hg, hlive⟩ := hrestored bytes g roots h
    exact hg.admitted hlive hnum hall

/-- Wires lead to wires only. -/
theorem Design.not_permissive (policy : PolicyTable) : ¬ (model policy).Permissive := by
  intro h
  have hwire : schema.entities[0] ∈ schema.concrete := by decide
  have hcell : schema.entities[1] ∈ schema.concrete := by decide
  have hnext : .plain "next" (.object "wire" .one) ∈
      schema.membersBaseFirst schema.entities[0] := by decide
  obtain ⟨tags, htags, hcell⟩ := h _ hwire _ hnext rfl _ hcell
  obtain rfl : [0] = tags := Except.ok.inj htags
  exact absurd hcell (by decide)

/-- Designs are restored well typed, but not all members hold what they take. -/
theorem Design.restore_not_admitted :
    (∀ (bytes : List UInt8) (g : Graph) (roots : List Ref),
      (model {}).restore bytes = .ok (g, roots) → g.model = model {} ∧ g.WellTyped ∧ g.Live) ∧
    ¬ ∀ (bytes : List UInt8) (g : Graph) (roots : List Ref),
      (model {}).restore bytes = .ok (g, roots) → g.Admitted := by
  obtain ⟨hrestored, hiff⟩ := Model.restore_admitted_iff (built {}) rfl
  exact ⟨hrestored, fun h => not_permissive {} ((hiff (by decide)).1 h)⟩

/-- The archive of a wire that leads to a cell. -/
def Archive.misled : Archive where
  preamble := .current
  symbols := []
  roots := [⟨0, 1⟩]
  sections := [
    ⟨0, [⟨⟨1, ⟨0, 0⟩, 0, ⟨0, 0⟩, ⟨0, 0⟩, []⟩, [.symbol 0, .one ⟨1, 1⟩]⟩]⟩,
    ⟨1, [⟨⟨2, ⟨0, 0⟩, 0, ⟨0, 0⟩, ⟨0, 0⟩, []⟩, [.symbol 0, .one ⟨0, 0⟩, .unmade, .unmade]⟩]⟩]

/-- What a wire leads to after it is restored, no wire can be made to lead to. -/
theorem Archive.restore_misled : ∃ g roots,
    (Design.model {}).restore (encodeAll misled.items) = .ok (g, roots) ∧
      g.get (Design.wire 0) "next" = .ok (.ref (some (Design.cell 0))) ∧
      g.set (Design.wire 0) "next" (.ref (some (Design.cell 0))) =
        .error (.typeMismatch "wire" "next" (.target "cell")) := by
  have h : ((Design.model {}).restore (encodeAll misled.items)).map
      (fun e => (e.1.get (Design.wire 0) "next",
        e.1.set (Design.wire 0) "next" (.ref (some (Design.cell 0))))) =
        .ok (.ok (.ref (some (Design.cell 0))),
          .error (.typeMismatch "wire" "next" (.target "cell"))) := by decide +kernel
  obtain ⟨⟨g, roots⟩, hrestore, hpair⟩ := map_eq_ok.1 h
  exact ⟨g, roots, hrestore, congrArg Prod.fst hpair, congrArg Prod.snd hpair⟩

end ObjectModel
