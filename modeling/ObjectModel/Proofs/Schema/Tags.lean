import Mathlib.Data.List.Basic
import ObjectModel.Proofs.Outcome
import ObjectModel.Schema.Declarations

/-!
# Tags

The entities of a schema that is made from declarations are numbered: the tag
of each is its position (`Declarations.numbered_of_toSchema`). So entities are
found by their tags, and the tags of the concrete ones ascend.
-/

namespace ObjectModel

namespace RawSchema

/-- The tag of each entity is its position. -/
def Numbered (s : RawSchema) : Prop := s.entities.map (·.tag) = List.range s.entities.length

instance (s : RawSchema) : Decidable s.Numbered :=
  inferInstanceAs (Decidable (_ = _))

variable {s : RawSchema} {e : Entity} {tag : Nat}

/-- An entity is found under its own tag only. -/
theorem Numbered.tag_eq (hs : s.Numbered) (he : s.entityAt? tag = some e) : e.tag = tag := by
  have htag : (s.entities.map (·.tag))[tag]? = some e.tag := by
    rw [List.getElem?_map]
    exact congrArg _ he
  rw [hs] at htag
  obtain ⟨_, h⟩ := List.getElem?_eq_some_iff.1 htag
  rw [← h, List.getElem_range]

/-- Each entity is found under its tag. -/
theorem Numbered.entityAt? (hs : s.Numbered) (he : e ∈ s.entities) :
    s.entityAt? e.tag = some e := by
  obtain ⟨i, hi⟩ := List.mem_iff_getElem?.1 he
  rwa [hs.tag_eq hi]

/-- The tags of concrete entities are those at which there is one. -/
theorem Numbered.mem_concrete (hs : s.Numbered) : tag ∈ s.concrete.map (·.tag) ↔
    ∃ e, s.entityAt? tag = some e ∧ e.kind.isConcrete = true := by
  rw [List.mem_map]
  constructor
  · rintro ⟨e, he, rfl⟩
    obtain ⟨he, hc⟩ := List.mem_filter.1 he
    exact ⟨e, hs.entityAt? he, hc⟩
  · rintro ⟨e, he, hc⟩
    exact ⟨e, List.mem_filter.2 ⟨List.mem_of_getElem? he, hc⟩, hs.tag_eq he⟩

theorem Numbered.entityAt?_eq_some (hs : s.Numbered) :
    s.entityAt? tag = some e ↔ e ∈ s.entities ∧ e.tag = tag :=
  ⟨fun h => ⟨List.mem_of_getElem? h, hs.tag_eq h⟩, fun ⟨he, htag⟩ => htag ▸ hs.entityAt? he⟩

theorem Numbered.eq_of_tag (hs : s.Numbered) {d : Entity} (hd : d ∈ s.entities)
    (he : e ∈ s.entities) (htag : d.tag = e.tag) : d = e := by
  have hat := hs.entityAt? hd
  rw [htag, hs.entityAt? he] at hat
  exact (Option.some.inj hat).symm

theorem Numbered.tag_lt (hs : s.Numbered) (he : e ∈ s.entities) : e.tag < s.entities.length :=
  (List.getElem?_eq_some_iff.1 (hs.entityAt? he)).1

/-- The tags of entities that are taken in order ascend. -/
theorem Numbered.ascending (hs : s.Numbered) {l : List Entity} (hl : l.Sublist s.entities) :
    (l.map (·.tag)).Pairwise (· < ·) := by
  have hall : (s.entities.map (·.tag)).Pairwise (· < ·) := by
    rw [hs]
    exact List.pairwise_lt_range
  exact hall.sublist (hl.map _)

/-- The tags of concrete entities ascend. -/
theorem Numbered.concrete_ascending (hs : s.Numbered) :
    (s.concrete.map (·.tag)).Pairwise (· < ·) := hs.ascending List.filter_sublist

end RawSchema

/-- Declaring a schema numbers its entities. -/
theorem Declarations.numbered_of_toSchema {d : Declarations} {naming : Naming} {s : Schema}
    (h : d.toSchema naming = .ok s) : s.Numbered := by
  obtain ⟨_, -, h⟩ := bind_eq_ok.1 h
  obtain ⟨_, -, h⟩ := bind_eq_ok.1 h
  obtain ⟨_, -, h⟩ := bind_eq_ok.1 h
  obtain ⟨_, -, h⟩ := bind_eq_ok.1 h
  obtain rfl := pure_eq_ok.1 h
  rw [RawSchema.Numbered, assemble, List.map_map, List.length_map, List.length_zipIdx]
  exact (List.zipIdx_map_snd 0 d.entities).trans (List.range_eq_range' ▸ rfl)

end ObjectModel
