import Mathlib.Data.List.Forall2
import ObjectModel.Graph.Access
import ObjectModel.Proofs.Graph.Objects

/-!
# Well-typed graphs

What can be relied on in a graph, however it came about: its layouts are those
of its schema (`Model.Built`), and each object is of an entity that has
objects, with one value for each of its members, of the kind and within the
width of the member (`Graph.WellTyped`). The operations that write members see
to it.

That references name objects is a property of its own (`Graph.Live`), which
for references and children together is `Graph.Whole`.
-/

namespace ObjectModel

/-! ## Values -/

/-- The kind of the values that a member takes. -/
def Member.valueKind (m : Member) : ValueKind :=
  match m.content with
  | .scalar .bool => .bool
  | .scalar .int16 | .scalar .int32 | .scalar .int64 => .int
  | .scalar .uint16 | .scalar .uint32 | .scalar .uint64 => .uint
  | .scalar .string | .scalar .value | .scalar .delay => .text
  | .object _ .one | .union _ .one => .ref
  | .object _ .many | .union _ .many => .refs

theorem Value.kind_of_fits {m : Member} {v : Value} (h : v.fits m = true) :
    v.kind = m.valueKind := by
  unfold fits at h
  unfold Member.valueKind
  split at h <;> first | exact absurd h Bool.false_ne_true | simp only [kind, *]

theorem Value.references_refs (items : Option (List Ref)) :
    (Value.refs items).references = items.getD [] := by
  cases items <;> rfl

/-- A member holds references if its values are one or several of them. -/
theorem Member.isReference_iff {m : Member} :
    m.isReference = true ↔ m.valueKind = .ref ∨ m.valueKind = .refs := by
  obtain ⟨name, content, relation, tags⟩ := m
  rcases content with kind | ⟨_, card⟩ | ⟨_, card⟩
  · cases kind <;> simp [isReference, scalarKind?, valueKind]
  · cases card <;> simp [isReference, scalarKind?, valueKind]
  · cases card <;> simp [isReference, scalarKind?, valueKind]

/-- Only members that take references hold some. -/
theorem Member.isReference_of_fits {m : Member} {v : Value} {s : Ref} (h : v.fits m = true)
    (hs : s ∈ v.references) : m.isReference = true := by
  rw [isReference_iff, ← Value.kind_of_fits h]
  cases v with
  | ref _ => exact .inl rfl
  | refs _ => exact .inr rfl
  | _ => cases hs

/-- A member is a list if its values are. -/
theorem Member.isMany_iff {m : Member} : m.isMany = true ↔ m.valueKind = .refs := by
  obtain ⟨name, content, relation, tags⟩ := m
  rcases content with kind | ⟨_, card⟩ | ⟨_, card⟩
  · cases kind <;> simp [isMany, cardinality, valueKind]
  · cases card <;> simp [isMany, cardinality, valueKind]
  · cases card <;> simp [isMany, cardinality, valueKind]

/-- A list holds a list. -/
theorem Value.exists_refs_of_fits {m : Member} {v : Value} (hm : m.isMany = true)
    (h : v.fits m = true) : ∃ items, v = .refs items := by
  have hkind := kind_of_fits h
  rw [Member.isMany_iff.1 hm] at hkind
  cases v with
  | refs items => exact ⟨items, rfl⟩
  | _ => cases hkind

/-- References go with a member whatever they name. -/
theorem Value.fits_of_kind {m : Member} {v : Value} (hm : m.isReference = true)
    (hkind : v.kind = m.valueKind) : v.fits m = true := by
  obtain ⟨name, content, relation, tags⟩ := m
  rcases content with scalar | ⟨_, card⟩ | ⟨_, card⟩
  · simp [Member.isReference, Member.scalarKind?] at hm
  · cases card <;> cases v <;> first | rfl | simp [kind, Member.valueKind] at hkind
  · cases card <;> cases v <;> first | rfl | simp [kind, Member.valueKind] at hkind

/-- A new object holds no list, where it can hold one. -/
theorem Value.default_of_isMany {m : Member} (h : m.isMany = true) : default m = .refs none := by
  obtain ⟨name, content, relation, tags⟩ := m
  rcases content with kind | ⟨_, card⟩ | ⟨_, card⟩
  · cases kind <;> cases h
  · cases card
    · cases h
    · rfl
  · cases card
    · cases h
    · rfl

/-! ## Layouts -/

/-- The layouts of the model are those of its schema. -/
def Model.Built (m : Model) : Prop := Model.ofResolution m.resolution m.policy = .ok m

instance (m : Model) : Decidable m.Built :=
  inferInstanceAs (Decidable (Model.ofResolution m.resolution m.policy = .ok m))

/-- A layout has a slot for each member. -/
theorem Layout.members_ofMembers {r : Resolution} {members : List Member} {l : Layout}
    (h : Layout.ofMembers r members = .ok l) : l.members = members := by
  rw [Layout.members, map_of_mapM (p := id) h fun m _ slot hm => ?_, List.map_id]
  split at hm
  · cases hm
    rfl
  · cases hm

/-- A slot takes the objects that its member may refer to. -/
theorem Layout.targets_ofMembers {r : Resolution} {members : List Member} {l : Layout}
    (h : Layout.ofMembers r members = .ok l) :
    ∀ slot ∈ l, r.targetTags slot.member = .ok slot.targets := by
  induction mapM_eq_ok.1 h with
  | nil => exact fun _ hslot => absurd hslot List.not_mem_nil
  | @cons m slot members l hm hl ih =>
    refine List.forall_mem_cons.2 ⟨?_, ih (mapM_eq_ok.2 hl)⟩
    split at hm
    · cases hm
      assumption
    · cases hm

namespace Model

variable {m : Model} {tag : Nat} {e : Entity} {l : Layout}

theorem entity_eq_ok : m.entity tag = .ok e ↔ m.schema.entityAt? tag = some e := by
  rw [entity]
  cases m.schema.entityAt? tag <;> simp

/-- A layout is found under the tag of an entity that has objects. -/
theorem layout_eq_ok : m.layout tag = .ok l ↔ m.layouts[tag]? = some (some l) := by
  rw [layout]
  split <;> simp_all

theorem lt_of_layout_eq_ok (hl : m.layout tag = .ok l) : tag < m.layouts.length :=
  (List.getElem?_eq_some_iff.1 (layout_eq_ok.1 hl)).1

/-- What is known of the layout at a tag: there is one for each entity that has
    objects, with the members of that entity. -/
theorem Built.layouts (hm : m.Built) (tag : Nat) :
    m.layouts[tag]? = none ∧ m.schema.entityAt? tag = none ∨
    ∃ e, m.schema.entityAt? tag = some e ∧
      (e.kind.isConcrete = false ∧ m.layouts[tag]? = some none ∨
        e.kind.isConcrete = true ∧
          ∃ l, m.layouts[tag]? = some (some l) ∧
            Layout.ofMembers m.resolution (m.schema.membersBaseFirst e) = .ok l) := by
  obtain ⟨layouts, hl, hm⟩ := bind_eq_ok.1 hm
  have hlayouts : layouts = m.layouts := congrArg Model.layouts (pure_eq_ok.1 hm)
  have hl := hlayouts ▸ mapM_eq_ok.1 hl
  rw [RawSchema.entityAt?]
  -- There is one layout for each entity, at the place that is its tag.
  cases he : m.schema.entities[tag]? with
  | none =>
    refine .inl ⟨?_, rfl⟩
    rw [List.getElem?_eq_none_iff] at he ⊢
    exact hl.length_eq ▸ he
  | some e =>
    obtain ⟨h, rfl⟩ := List.getElem?_eq_some_iff.1 he
    have hlayout := hl.get h (hl.length_eq ▸ h)
    refine .inr ⟨_, rfl, ?_⟩
    have h' : tag < m.layouts.length := hl.length_eq ▸ h
    rw [List.getElem?_eq_getElem h']
    simp only [List.get_eq_getElem] at hlayout
    split at hlayout
    · rename_i hc
      obtain ⟨l, hl, hlayout⟩ := map_eq_ok.1 hlayout
      exact .inr ⟨hc, l, congrArg _ hlayout.symm, hl⟩
    · rename_i hc
      exact .inl ⟨by simpa using hc, congrArg _ (pure_eq_ok.1 hlayout).symm⟩

/-- A built model has a layout for each entity that has objects. -/
theorem Built.exists_layout (hm : m.Built) (he : m.schema.entityAt? tag = some e)
    (hc : e.kind.isConcrete = true) :
    ∃ l, m.layout tag = .ok l ∧ l.members = m.schema.membersBaseFirst e := by
  rcases hm.layouts tag with ⟨_, h⟩ | ⟨e', h, ⟨hc', _⟩ | ⟨_, l, hl, hmem⟩⟩
  · rw [he] at h; cases h
  · obtain rfl := Option.some.inj (he.symm.trans h)
    rw [hc] at hc'; cases hc'
  · obtain rfl := Option.some.inj (he.symm.trans h)
    exact ⟨l, layout_eq_ok.2 hl, Layout.members_ofMembers hmem⟩

/-- A layout is that of an entity that has objects. -/
theorem Built.layout_eq (hm : m.Built) (hl : m.layout tag = .ok l) :
    ∃ e, m.schema.entityAt? tag = some e ∧ e.kind.isConcrete = true ∧
      Layout.ofMembers m.resolution (m.schema.membersBaseFirst e) = .ok l := by
  rw [layout_eq_ok] at hl
  rcases hm.layouts tag with ⟨h, _⟩ | ⟨e, he, ⟨_, h⟩ | ⟨hc, l', h, hof⟩⟩
  · rw [h] at hl; cases hl
  · rw [h] at hl; cases hl
  · obtain rfl := Option.some.inj (Option.some.inj (h.symm.trans hl))
    exact ⟨e, he, hc, hof⟩

/-- Slots have the target tags of their members. -/
theorem Built.targetTags_eq {slot : Slot} (hm : m.Built) (hl : m.layout tag = .ok l)
    (hslot : slot ∈ l) : m.resolution.targetTags slot.member = .ok slot.targets := by
  obtain ⟨e, -, -, hof⟩ := hm.layout_eq hl
  exact Layout.targets_ofMembers hof slot hslot

/-- What holds of the members in the slots of a layout holds of those of its entity. -/
theorem Built.forall₂_members {P : Member → Value → Prop} {values : List Value} (hm : m.Built)
    (hl : m.layout tag = .ok l) (h : List.Forall₂ (fun slot v => P slot.member v) l values) :
    ∃ e, m.schema.entityAt? tag = some e ∧ e.kind.isConcrete = true ∧
      List.Forall₂ P (m.schema.membersBaseFirst e) values := by
  obtain ⟨e, he, hconcrete, hof⟩ := hm.layout_eq hl
  refine ⟨e, he, hconcrete, ?_⟩
  rwa [← Layout.members_ofMembers hof, Layout.members, List.forall₂_map_left_iff]

end Model

/-! ## Slots -/

/-- The last index is one at which the property holds. -/
theorem lastIndex?_eq_some {α : Type} {p : α → Bool} {l : List α} {i : Nat}
    (h : lastIndex? p l = some i) : ∃ a, l[i]? = some a ∧ p a = true := by
  induction l generalizing i with
  | nil => cases h
  | cons a l ih =>
    rw [lastIndex?] at h
    split at h
    · rename_i j hj
      obtain ⟨b, hb, hpb⟩ := ih hj
      cases h
      exact ⟨b, hb, hpb⟩
    · split at h
      · rename_i ha
        cases h
        exact ⟨a, rfl, ha⟩
      · cases h

/-- There is one if the property holds of an element. -/
theorem lastIndex?_isSome {α : Type} {p : α → Bool} {l : List α} {a : α} (ha : a ∈ l)
    (hp : p a = true) : ∃ i, lastIndex? p l = some i := by
  induction l with
  | nil => cases ha
  | cons b l ih =>
    rw [lastIndex?]
    split
    · exact ⟨_, rfl⟩
    · rename_i hl
      rcases List.mem_cons.1 ha with rfl | ha
      · exact ⟨0, if_pos hp⟩
      · obtain ⟨i, hi⟩ := ih ha
        rw [hl] at hi; cases hi

/-- Where names differ, a member is found by its name. -/
theorem Layout.slotOf?_eq_some {l : Layout} {m : Member} {i : Nat}
    (hn : (l.members.map (·.name)).Nodup) (hm : m ∈ l.members) :
    l.slotOf? m.name = some i ↔ l.members[i]? = some m := by
  obtain ⟨k, hk⟩ := List.mem_iff_getElem?.1 hm
  obtain ⟨slot, hslot, rfl⟩ := List.mem_map.1 hm
  obtain ⟨j, hj⟩ := lastIndex?_isSome (p := (·.member.name == slot.member.name)) hslot (by simp)
  obtain ⟨s, hs, hname⟩ := lastIndex?_eq_some hj
  have hjs : l.members[j]? = some s.member := by simp [members, hs]
  -- The last slot of the name is the only one.
  have hjk : j = k := by
    refine (List.getElem?_inj (by simpa using (List.getElem?_eq_some_iff.1 hjs).1) hn).1 ?_
    rw [List.getElem?_map, List.getElem?_map, hk, hjs]
    simpa using hname
  obtain rfl := hjk
  rw [slotOf?, hj, Option.some.injEq]
  constructor
  · rintro rfl
    exact hk
  · intro hi
    refine (List.getElem?_inj (by simpa using (List.getElem?_eq_some_iff.1 hk).1) hn).1 ?_
    rw [List.getElem?_map, List.getElem?_map, hk, hi]

/-! ## Graphs -/

/-- The parts of an object: its children, and what it refers to. -/
def Object.parts (o : Object) : List Ref := o.header.children ++ o.values.flatMap Value.references

theorem Object.mem_parts {o : Object} {s : Ref} :
    s ∈ o.parts ↔ s ∈ o.header.children ∨ ∃ v ∈ o.values, s ∈ v.references := by
  rw [parts, List.mem_append, List.mem_flatMap]

namespace Graph

/-- The graph goes by the layouts of its schema, and each object is of an
    entity that has objects and holds values that fit its members. -/
structure WellTyped (g : Graph) : Prop where
  built : g.model.Built
  typed : ∀ r o, g.object? r = some o → ∃ e, g.schema.entityAt? r.tag = some e ∧
    e.kind.isConcrete = true ∧
      List.Forall₂ (fun m v => Value.fits m v = true) (g.schema.membersBaseFirst e) o.values

/-- In its slot `i`, of the member `m`, the object `r` holds `v`. -/
def Stores (g : Graph) (r : Ref) (i : Nat) (m : Member) (v : Value) : Prop :=
  ∃ o e, g.object? r = some o ∧ g.schema.entityAt? r.tag = some e ∧
    (g.schema.membersBaseFirst e)[i]? = some m ∧ o.values[i]? = some v

/-- Members hold references to objects only. -/
def Live (g : Graph) : Prop :=
  ∀ r o, g.object? r = some o → ∀ v ∈ o.values, ∀ s ∈ v.references, g.contains s = true

/-- All parts of objects are objects. -/
def Whole (g : Graph) : Prop := ∀ r o, g.object? r = some o → ∀ s ∈ o.parts, g.contains s = true

/-- In `D` there are objects of `g`, with all of their parts. -/
def Closed (g : Graph) (D : Set Ref) : Prop :=
  ∀ r ∈ D, ∃ o, g.object? r = some o ∧ ∀ s ∈ o.parts, s ∈ D

variable {g : Graph} {r : Ref} {o : Object}

theorem Whole.live (hg : g.Whole) : g.Live :=
  fun r o ho v hv s hs => hg r o ho s (Object.mem_parts.2 (.inr ⟨v, hv, hs⟩))

/-- In a whole graph, no part leads out of it. -/
theorem Whole.closed (hg : g.Whole) : g.Closed {r | g.contains r = true} := fun r hr =>
  let ⟨o, ho⟩ := contains_iff.1 hr
  ⟨o, ho, hg r o ho⟩

/-- What a well-typed graph knows of an object. -/
theorem WellTyped.object (hg : g.WellTyped) (ho : g.object? r = some o) :
    ∃ e l, g.schema.entityAt? r.tag = some e ∧ g.entity r = .ok e ∧ g.layout r = .ok l ∧
      l.members = g.schema.membersBaseFirst e ∧
        List.Forall₂ (fun m v => Value.fits m v = true) l.members o.values := by
  obtain ⟨e, he, hc, hv⟩ := hg.typed r o ho
  obtain ⟨l, hl, hmem⟩ := hg.built.exists_layout he hc
  exact ⟨e, l, he, Model.entity_eq_ok.2 he, hl, hmem, hmem ▸ hv⟩

/-- An object stores a value for each member of its entity. -/
theorem WellTyped.stores {e : Entity} {i : Nat} {m : Member} (hg : g.WellTyped)
    (hr : g.contains r = true) (he : g.schema.entityAt? r.tag = some e)
    (hm : (g.schema.membersBaseFirst e)[i]? = some m) : ∃ v, g.Stores r i m v := by
  obtain ⟨o, ho⟩ := contains_iff.1 hr
  obtain ⟨e', he', -, htyped⟩ := hg.typed r o ho
  obtain rfl := Option.some.inj (he.symm.trans he')
  have hi : i < o.values.length := htyped.length_eq ▸ (List.getElem?_eq_some_iff.1 hm).1
  exact ⟨_, o, e, ho, he, hm, List.getElem?_eq_getElem hi⟩

/-- A value that a slot stores fits its member. -/
theorem Stores.fits {i : Nat} {m : Member} {v : Value} (hg : g.WellTyped)
    (h : g.Stores r i m v) : v.fits m = true := by
  obtain ⟨o, e, ho, he, hm, hv⟩ := h
  obtain ⟨e', he', -, htyped⟩ := hg.typed r o ho
  obtain rfl := Option.some.inj (he.symm.trans he')
  obtain ⟨hi, rfl⟩ := List.getElem?_eq_some_iff.1 hm
  obtain ⟨hi', rfl⟩ := List.getElem?_eq_some_iff.1 hv
  exact htyped.get hi hi'

end Graph

end ObjectModel
