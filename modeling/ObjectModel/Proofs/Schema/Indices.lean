import Mathlib.Data.List.Nodup
import ObjectModel.Schema.Basic

/-!
# What names lead to

The index of a schema is made from the names in its lists. As long as it is that of
its lists (`RawSchema.Indexed`), a name is found just if something has it, and leads to
what has it; where names are different, this is all there is of that name.
-/

namespace ObjectModel

variable {names : List String} {name : String} {place : Nat}

/-- The index leads to a place of the name. -/
theorem getElem?_of_lookup_indexNames (h : (indexNames names).lookup name = some place) :
    names[place]? = some name := by
  obtain ⟨before, after, hsplit, -⟩ := List.lookup_eq_some_iff.1 h
  have hmem : (name, place) ∈ indexNames names := by
    rw [hsplit]
    exact List.mem_append_right _ List.mem_cons_self
  exact List.mem_zipIdx_iff_getElem?.1 (List.mem_reverse.1 hmem)

/-- The index has all names, and no others. -/
theorem isSome_lookup_indexNames :
    ((indexNames names).lookup name).isSome = true ↔ name ∈ names := by
  rw [List.lookup_isSome_iff]
  constructor
  · rintro ⟨p, hp, hname⟩
    obtain rfl := eq_of_beq hname
    exact List.mem_of_getElem? (List.mem_zipIdx_iff_getElem?.1 (List.mem_reverse.1 hp))
  · intro h
    obtain ⟨i, hi⟩ := List.mem_iff_getElem?.1 h
    exact ⟨(name, i), List.mem_reverse.2 (List.mem_zipIdx_iff_getElem?.2 hi), beq_self_eq_true _⟩

namespace RawSchema

section

variable {α : Type} {key : α → String} {index : List (String × Nat)} {l : List α} {a : α}

/-- What is found stands in the list, whatever the index is. -/
theorem mem_of_named? (h : named? index l name = some a) : a ∈ l :=
  let ⟨_, _, ha⟩ := Option.bind_eq_some_iff.1 h
  List.mem_of_getElem? ha

/-- A name leads to what has it. -/
theorem key_of_named? (h : named? (indexNames (l.map key)) l name = some a) : key a = name := by
  obtain ⟨i, hi, ha⟩ := Option.bind_eq_some_iff.1 h
  have hname := getElem?_of_lookup_indexNames hi
  rw [List.getElem?_map, ha] at hname
  exact Option.some.inj hname

/-- What the index has is found in the list. -/
theorem isSome_named? : (named? (indexNames (l.map key)) l name).isSome =
    ((indexNames (l.map key)).lookup name).isSome := by
  rw [named?]
  rcases hlookup : (indexNames (l.map key)).lookup name with _ | i
  · rfl
  · have hname := getElem?_of_lookup_indexNames hlookup
    rw [List.getElem?_map, Option.map_eq_some_iff] at hname
    obtain ⟨a, ha, -⟩ := hname
    rw [Option.bind_some, ha]
    rfl

/-- Where names are different, each leads to the only thing that has it. -/
theorem named?_key (hn : (l.map key).Nodup) (ha : a ∈ l) :
    named? (indexNames (l.map key)) l (key a) = some a := by
  have hfound : (named? (indexNames (l.map key)) l (key a)).isSome = true :=
    isSome_named?.trans (isSome_lookup_indexNames.2 (List.mem_map_of_mem ha))
  obtain ⟨b, hb⟩ := Option.isSome_iff_exists.1 hfound
  rw [hb, List.inj_on_of_nodup_map hn (mem_of_named? hb) ha (key_of_named? hb)]

end

instance (s : RawSchema) : Decidable s.Indexed :=
  decidable_of_iff (s.entityIndex = indexNames (s.entities.map (·.name)) ∧
    s.groupIndex = indexNames (s.groups.map (·.name)))
    ⟨fun ⟨h, h'⟩ => ⟨h, h'⟩, fun h => ⟨h.entities, h.groups⟩⟩

variable {s : RawSchema} {e : Entity} {g : Group}

theorem mem_of_entity? (h : s.entity? name = some e) : e ∈ s.entities := mem_of_named? h

theorem mem_of_group? (h : s.group? name = some g) : g ∈ s.groups := mem_of_named? h

theorem hasEntity_of_entity? (h : s.entity? name = some e) : s.hasEntity name = true :=
  let ⟨place, hplace, _⟩ := Option.bind_eq_some_iff.1 h
  Option.isSome_iff_exists.2 ⟨place, hplace⟩

theorem hasGroup_of_group? (h : s.group? name = some g) : s.hasGroup name = true :=
  let ⟨place, hplace, _⟩ := Option.bind_eq_some_iff.1 h
  Option.isSome_iff_exists.2 ⟨place, hplace⟩

namespace Indexed

variable (hs : s.Indexed)

include hs

/-- In a schema that was indexed, an entity is found under its name. -/
theorem name_of_entity? (h : s.entity? name = some e) : e.name = name := by
  rw [entity?, hs.entities] at h
  exact key_of_named? h

theorem name_of_group? (h : s.group? name = some g) : g.name = name := by
  rw [group?, hs.groups] at h
  exact key_of_named? h

theorem entity?_eq_some (h : s.entity? name = some e) : e ∈ s.entities ∧ e.name = name :=
  ⟨mem_of_entity? h, hs.name_of_entity? h⟩

theorem group?_eq_some (h : s.group? name = some g) : g ∈ s.groups ∧ g.name = name :=
  ⟨mem_of_group? h, hs.name_of_group? h⟩

/-- The schema has the entities whose names are in its list. -/
theorem hasEntity_iff : s.hasEntity name = true ↔ name ∈ s.entities.map (·.name) := by
  rw [hasEntity, hs.entities, isSome_lookup_indexNames]

theorem hasGroup_iff : s.hasGroup name = true ↔ name ∈ s.groups.map (·.name) := by
  rw [hasGroup, hs.groups, isSome_lookup_indexNames]

theorem isSome_entity? : (s.entity? name).isSome = s.hasEntity name := by
  rw [entity?, hasEntity, hs.entities]
  exact isSome_named?

theorem isSome_group? : (s.group? name).isSome = s.hasGroup name := by
  rw [group?, hasGroup, hs.groups]
  exact isSome_named?

theorem exists_entity (h : s.hasEntity name = true) : ∃ e, s.entity? name = some e :=
  Option.isSome_iff_exists.1 (hs.isSome_entity?.trans h)

theorem exists_group (h : s.hasGroup name = true) : ∃ g, s.group? name = some g :=
  Option.isSome_iff_exists.1 (hs.isSome_group?.trans h)

theorem hasEntity_of_mem (he : e ∈ s.entities) : s.hasEntity e.name = true :=
  hs.hasEntity_iff.2 (List.mem_map_of_mem he)

theorem hasGroup_of_mem (hg : g ∈ s.groups) : s.hasGroup g.name = true :=
  hs.hasGroup_iff.2 (List.mem_map_of_mem hg)

/-- Where names are different, an entity is found by its name. -/
theorem entity?_name (hn : (s.entities.map (·.name)).Nodup) (he : e ∈ s.entities) :
    s.entity? e.name = some e := by
  rw [entity?, hs.entities]
  exact named?_key hn he

/-- So is a group. -/
theorem group?_name (hn : (s.groups.map (·.name)).Nodup) (hg : g ∈ s.groups) :
    s.group? g.name = some g := by
  rw [group?, hs.groups]
  exact named?_key hn hg

end Indexed

end RawSchema

end ObjectModel
