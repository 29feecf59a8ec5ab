import ObjectModel.Generation.Groups
import ObjectModel.Generation.TypeTable
import ObjectModel.Proofs.Schema.Closures

/-!
# Predicates on targets

Generated code looks at the tag of an object by a predicate, which belongs to an
entity or to a group and is called by a path (`Blueprint.Accepts`). Where predicates
of different things have different paths, the one that is called for a member
accepts just the target tags of that member (`Blueprint.accepts_iff_of_reference`).
-/

namespace ObjectModel

namespace Generation

/-- The predicate called `path` holds of a tag: that of an entity holds of the tags of
    its objects, that of a group of the tags of the entities in it. -/
inductive Blueprint.Accepts (b : Blueprint) : String → Nat → Prop
  | type {e : Entity} {tag : Nat} : e ∈ b.schema.entities → tag ∈ b.schema.isATags e →
      Accepts b (b.typePredicate e.name) tag
  | group {g : Group} {tags : List Nat} {tag : Nat} : g ∈ b.schema.groups →
      Groups.tags b g = .ok tags → tag ∈ tags → Accepts b (groupPredicate g.name) tag

namespace Blueprint

variable {b : Blueprint} {e : Entity} {g : Group} {m : Member} {tag : Nat} {tags : List Nat}

/-- Predicates of entities and of groups are in different files. -/
theorem typePredicate_ne_groupPredicate (entity group : String) :
    b.typePredicate entity ≠ groupPredicate group := by
  have htypes : 8 ≤ "super::types::is_".toList.length := by decide
  have hgroups : 8 ≤ "super::groups::is_".toList.length := by decide
  unfold typePredicate groupPredicate
  intro h
  have hletters := congrArg (fun path : String => path.toList.take 8) h
  rw [String.toList_append, String.toList_append, List.take_append_of_le_length htypes,
    List.take_append_of_le_length hgroups] at hletters
  exact absurd hletters (by decide)

/-- The predicate of an entity accepts its tag and those below it. -/
theorem accepts_type (hstems : (b.schema.entities.map b.typeStem).Nodup)
    (he : e ∈ b.schema.entities) :
    b.Accepts (b.typePredicate e.name) tag ↔ tag ∈ b.schema.isATags e := by
  refine ⟨fun h => ?_, .type he⟩
  generalize hpath : b.typePredicate e.name = path at h
  cases h with
  | type hx htag =>
    have hstem := (String.append_right_inj _).1 hpath
    rwa [List.inj_on_of_nodup_map hstems he hx hstem]
  | group => exact (typePredicate_ne_groupPredicate _ _ hpath).elim

/-- The predicate of a group accepts the tags that the group comes to. -/
theorem accepts_group (hgroups : (b.schema.groups.map fun g => groupStem g.name).Nodup)
    (hg : g ∈ b.schema.groups) (htags : Groups.tags b g = .ok tags) :
    b.Accepts (groupPredicate g.name) tag ↔ tag ∈ tags := by
  refine ⟨fun h => ?_, .group hg htags⟩
  generalize hpath : groupPredicate g.name = path at h
  cases h with
  | type => exact (typePredicate_ne_groupPredicate _ _ hpath.symm).elim
  | @group x tags' _ hx htags' htag =>
    have hstem : groupStem g.name = groupStem x.name := (String.append_right_inj _).1 hpath
    obtain rfl := List.inj_on_of_nodup_map hgroups hg hx hstem
    rw [htags] at htags'
    rwa [Except.ok.inj htags']

/-- The predicate of a group is generated for the tags of the entities in it. -/
theorem exists_groupTags (hresolution : Resolution.ofSchema b.schema = .ok b.resolution)
    (hnames : (b.schema.entities.map (·.name)).Nodup)
    (hgroups : (b.schema.groups.map (·.name)).Nodup) (hg : g ∈ b.schema.groups) :
    ∃ names tags, b.resolution.closure g.name = .ok names ∧
      (names.mapM fun n => return (← b.schema.entity n).tag) = .ok tags ∧
      Groups.tags b g = .ok tags.mergeSort := by
  obtain ⟨-, hclosures⟩ := Resolution.exists_closure_of_ofSchema hgroups hresolution
  obtain ⟨set, hset, hexpand⟩ := hclosures g hg
  have hclosure := Resolution.closure_eq_ok.2 ⟨set, hset, rfl⟩
  obtain ⟨names, hexpanded, h⟩ := bind_eq_ok.1 hexpand
  obtain rfl := pure_eq_ok.1 h
  obtain ⟨tags, htags, -⟩ := RawSchema.exists_mapM_tag b.schema.indexed hnames fun a ha =>
    RawSchema.exists_entity_of_expandGroup hexpanded (SortedSet.mem_keys_ofList.1 ha)
  exact ⟨_, tags, hclosure, htags,
    bind_eq_ok.2 ⟨_, hclosure, bind_eq_ok.2 ⟨tags, htags, rfl⟩⟩⟩

/-- The predicate that is called for a member that holds references accepts just its
    target tags. -/
theorem accepts_iff_of_reference (hcontents : b.schema.checkContents = .ok ())
    (hresolution : Resolution.ofSchema b.schema = .ok b.resolution)
    (hstems : (b.schema.entities.map b.typeStem).Nodup)
    (hgroups : (b.schema.groups.map fun g => groupStem g.name).Nodup)
    (he : e ∈ b.schema.entities) (hm : m ∈ b.references e) :
    ∃ path tags, b.targetPredicate? m = some path ∧ b.resolution.targetTags m = .ok tags ∧
      ∀ tag, b.Accepts path tag ↔ tag ∈ tags := by
  -- Stems and predicates are made of names, so what has different ones has different names.
  have hnames : (b.schema.entities.map (·.name)).Nodup := by
    refine .of_map b.naming.typeStem ?_
    rwa [List.map_map]
  have hgroupNames : (b.schema.groups.map (·.name)).Nodup := by
    refine .of_map groupStem ?_
    rwa [List.map_map]
  obtain ⟨hm, hreference⟩ := List.mem_filter.1 hm
  obtain ⟨x, hx, hmx⟩ := RawSchema.exists_level hm he
  have hresolves := RawSchema.checkContents_eq_ok.1 hcontents x hx m hmx
  rw [RawSchema.resolves] at hresolves
  rw [targetPredicate?, Resolution.targetTags]
  cases hcontent : m.content with
  | scalar kind =>
    rw [Member.isReference, Member.scalarKind?, hcontent] at hreference
    cases hreference
  | object name card =>
    rw [hcontent] at hresolves
    obtain ⟨t, ht⟩ := b.schema.indexed.exists_entity hresolves
    obtain ⟨htmem, rfl⟩ := b.schema.indexed.entity?_eq_some ht
    exact ⟨_, _, rfl, bind_eq_ok.2 ⟨t, RawSchema.entity_eq_ok.2 ht, rfl⟩,
      fun tag => accepts_type hstems htmem⟩
  | union name card =>
    rw [hcontent] at hresolves
    obtain ⟨g, hg⟩ := b.schema.indexed.exists_group hresolves
    obtain ⟨hgmem, rfl⟩ := b.schema.indexed.group?_eq_some hg
    obtain ⟨names, tags, hclosure, htags, hpredicate⟩ :=
      exists_groupTags hresolution hnames hgroupNames hgmem
    refine ⟨_, _, rfl, bind_eq_ok.2 ⟨names, hclosure, bind_eq_ok.2 ⟨tags, htags, rfl⟩⟩, ?_⟩
    intro tag
    -- One is sorted and the other a sorted set, of the same tags.
    rw [accepts_group hgroups hgmem hpredicate, List.mem_mergeSort, SortedSet.mem_keys_ofList]

end Blueprint

end Generation

end ObjectModel
