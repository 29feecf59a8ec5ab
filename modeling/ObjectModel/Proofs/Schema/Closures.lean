import Mathlib.Data.String.Basic
import ObjectModel.Proofs.Schema.Ancestry
import ObjectModel.Proofs.SortedMap

/-!
# Closures of groups

A group denotes the concrete entities that it refers to, or that a group does
which it takes in, however indirectly (`RawSchema.Denotes`). A schema that is made
from declarations can be resolved, and its resolution is exact
(`Resolution.Exact`): the closure of a group lists what the group denotes, the
target tags of a member are those of the entities that it may refer to, and the
groups that contain an entity are those whose closures it is in. All of these
lists ascend.

* `RawSchema.mem_expandGroup`: what a group is spelt out to;
* `Declarations.exists_resolution`: the resolution of a schema.
-/

namespace ObjectModel

namespace RawSchema

variable {s : RawSchema} {e x : Entity} {g : Group} {name a : String}
  {path names : List String} {n tag : Nat}

/-- Without going into other groups, `r` refers to `x`. -/
def Covers (s : RawSchema) : GroupRef → Entity → Prop
  | .entity name, x => x.name = name
  | .family name, x => ∃ c ∈ s.entities, c.name = name ∧ Relation.ReflTransGen s.Extends x c
  | .group _, _ => False

/-- The concrete entity `x` is referred to by a group, or by one that it takes
    in, directly or not. -/
def Denotes (s : RawSchema) (name : String) (x : Entity) : Prop :=
  x ∈ s.concrete ∧ ∃ inner g r, Relation.ReflTransGen s.TakesIn name inner ∧
    s.group? inner = some g ∧ r ∈ g.refs ∧ s.Covers r x

/-- The concrete entity `x` is what `r` refers to, or is denoted by the group
    that `r` refers to. -/
def DenotesRef (s : RawSchema) : GroupRef → Entity → Prop
  | .entity name, x => x ∈ s.concrete ∧ s.Covers (.entity name) x
  | .family name, x => x ∈ s.concrete ∧ s.Covers (.family name) x
  | .group name, x => s.Denotes name x

/-- A member may refer to objects of the concrete entity `x`. -/
def Takes (s : RawSchema) (m : Member) (x : Entity) : Prop :=
  match m.content with
  | .scalar _ => False
  | .object name _ => x ∈ s.concrete ∧ s.Covers (.family name) x
  | .union name _ => s.Denotes name x

theorem entity_eq_ok : s.entity name = .ok e ↔ s.entity? name = some e := by
  rw [entity]
  cases s.entity? name <;> simp

/-- What a group denotes, its references do one by one. -/
theorem denotes_iff (hg : s.group? name = some g) :
    s.Denotes name x ↔ ∃ r ∈ g.refs, s.DenotesRef r x := by
  constructor
  · rintro ⟨hx, inner, g', r, hreach, hg', hr, hcovers⟩
    -- The covering reference is in this group or in one that this group takes in.
    rcases Relation.ReflTransGen.cases_head hreach with rfl | ⟨next, ⟨_, hg'', hnext⟩, hreach⟩
    · obtain rfl := Option.some.inj (hg.symm.trans hg')
      refine ⟨r, hr, ?_⟩
      cases r with
      | entity | family => exact ⟨hx, hcovers⟩
      | group => exact hcovers.elim
    · obtain rfl := Option.some.inj (hg.symm.trans hg'')
      exact ⟨_, hnext, hx, inner, g', r, hreach, hg', hr, hcovers⟩
  · rintro ⟨r, hr, hx⟩
    cases r with
    | entity | family => exact ⟨hx.1, name, g, _, .refl, hg, hr, hx.2⟩
    | group inner =>
      obtain ⟨hx, last, g', r, hreach, hg', hr', hcovers⟩ := hx
      exact ⟨hx, last, g', r, .head ⟨g, hg, hr⟩ hreach, hg', hr', hcovers⟩

/-- A group that is spelt out gives names of entities. -/
theorem exists_entity_of_expandGroup (h : s.expandGroup n path name = .ok names)
    (ha : a ∈ names) : ∃ x ∈ s.entities, x.name = a := by
  induction n generalizing path name names with
  | zero =>
    obtain rfl := pure_eq_ok.1 h
    cases ha
  | succ n ih =>
    rw [expandGroup] at h
    split at h
    · cases h
    split at h
    · cases h
    obtain ⟨parts, hparts, h⟩ := bind_eq_ok.1 h
    obtain rfl := pure_eq_ok.1 h
    obtain ⟨part, hpart, ha⟩ := List.mem_flatten.1 ha
    -- The part that has `a` is what one of the references comes to.
    obtain ⟨r, -, hr⟩ := exists_of_mem_mapM hparts hpart
    cases r with
    | entity c =>
      obtain ⟨x, hx, hr⟩ := bind_eq_ok.1 hr
      obtain rfl := pure_eq_ok.1 hr
      rw [List.mem_ite_nil_right, List.mem_singleton] at ha
      exact ⟨x, mem_of_entity? (entity_eq_ok.1 hx), ha.2.symm⟩
    | family c =>
      obtain ⟨_, -, hr⟩ := bind_eq_ok.1 hr
      obtain rfl := pure_eq_ok.1 hr
      obtain ⟨tag, -, ha⟩ := List.mem_filterMap.1 ha
      obtain ⟨x, hx, rfl⟩ := Option.map_eq_some_iff.1 ha
      exact ⟨x, List.mem_of_getElem? hx, rfl⟩
    | group inner => exact ih hr ha

section

variable (hs : s.BasesFirst) (hnumbered : s.Numbered) (hindexed : s.Indexed)
  (hn : (s.entities.map (·.name)).Nodup) (hrefs : s.RefsResolve)

include hindexed hn

/-- A reference to an entity denotes it alone, if it has objects. -/
theorem denotesRef_entity (he : s.entity? name = some e) :
    s.DenotesRef (.entity name) x ↔ x = e ∧ e.kind.isConcrete = true := by
  obtain ⟨hmem, rfl⟩ := hindexed.entity?_eq_some he
  rw [DenotesRef, Covers, concrete, List.mem_filter]
  constructor
  · rintro ⟨⟨hx, hc⟩, hname⟩
    obtain rfl := List.inj_on_of_nodup_map hn hx hmem hname
    exact ⟨rfl, hc⟩
  · rintro ⟨rfl, hc⟩
    exact ⟨⟨hmem, hc⟩, rfl⟩

/-- A family covers an entity and all below it. -/
theorem covers_family (he : s.entity? name = some e) :
    s.Covers (.family name) x ↔ Relation.ReflTransGen s.Extends x e := by
  obtain ⟨hmem, rfl⟩ := hindexed.entity?_eq_some he
  rw [Covers]
  constructor
  · rintro ⟨c, hc, hname, hx⟩
    rwa [← List.inj_on_of_nodup_map hn hc hmem hname]
  · exact fun hx => ⟨e, hmem, rfl, hx⟩

/-- Names of entities are turned into tags. -/
theorem exists_mapM_tag (h : ∀ a ∈ names, ∃ x ∈ s.entities, x.name = a) :
    ∃ tags, (names.mapM fun a => return (← s.entity a).tag) = .ok tags ∧
      ∀ tag, tag ∈ tags ↔ ∃ x ∈ s.entities, x.name ∈ names ∧ x.tag = tag := by
  have hfound {x : Entity} (hx : x ∈ s.entities) : s.entity x.name = .ok x :=
    entity_eq_ok.2 (hindexed.entity?_name hn hx)
  obtain ⟨tags, htags⟩ := exists_mapM (f := fun a => return (← s.entity a).tag) fun a ha => by
    obtain ⟨x, hx, rfl⟩ := h a ha
    exact ⟨x.tag, bind_eq_ok.2 ⟨x, hfound hx, rfl⟩⟩
  refine ⟨tags, htags, fun tag => ?_⟩
  have hmem := exists_mem_of_mapM (Q := (· = tag))
    (P := fun a => ∃ x, s.entity a = .ok x ∧ x.tag = tag) htags fun a _ t ht => by
      obtain ⟨x, hx, ht⟩ := bind_eq_ok.1 ht
      obtain rfl := pure_eq_ok.1 ht
      simp [hx]
  rw [exists_eq_right] at hmem
  rw [hmem]
  constructor
  · rintro ⟨a, ha, x, hx, htag⟩
    obtain ⟨hmem, rfl⟩ := hindexed.entity?_eq_some (entity_eq_ok.1 hx)
    exact ⟨x, hmem, ha, htag⟩
  · rintro ⟨x, hx, hname, htag⟩
    exact ⟨x.name, hname, x, hfound hx, htag⟩

include hs hnumbered

/-- Among the tags of an entity are those of what a reference to its family denotes. -/
theorem mem_isATags_iff_denotesRef (he : s.entity? name = some e) :
    tag ∈ s.isATags e ↔ ∃ x, s.entityAt? tag = some x ∧ s.DenotesRef (.family name) x := by
  rw [mem_isATags hs hnumbered (mem_of_entity? he)]
  simp only [DenotesRef, covers_family hindexed hn he, hnumbered.entityAt?_eq_some]
  constructor
  · rintro ⟨x, hx, htag, hextends⟩
    exact ⟨x, ⟨List.mem_of_mem_filter hx, htag⟩, hx, hextends⟩
  · rintro ⟨x, ⟨-, htag⟩, hx, hextends⟩
    exact ⟨x, hx, htag, hextends⟩

/-- The names of a family are those of what it denotes. -/
theorem mem_family (he : s.entity? name = some e) :
    a ∈ (s.isATags e).filterMap (fun tag => (s.entityAt? tag).map (·.name)) ↔
      ∃ x, s.DenotesRef (.family name) x ∧ x.name = a := by
  simp only [List.mem_filterMap, Option.map_eq_some_iff,
    mem_isATags_iff_denotesRef hs hnumbered hindexed hn he]
  constructor
  · rintro ⟨tag, ⟨x, hx, hdenoted⟩, y, hy, rfl⟩
    obtain rfl := Option.some.inj (hx.symm.trans hy)
    exact ⟨x, hdenoted, rfl⟩
  · rintro ⟨x, hdenoted, rfl⟩
    have hx := hnumbered.entityAt? (List.mem_of_mem_filter hdenoted.1)
    exact ⟨x.tag, ⟨x, hx, hdenoted⟩, x, hx, rfl⟩

include hrefs

/-- A group that is spelt out gives the names of what it denotes. -/
theorem mem_expandGroup (htrail : s.Trail path name) (hbound : s.groups.length < n + path.length)
    (h : s.expandGroup n path name = .ok names) :
    a ∈ names ↔ ∃ x, s.Denotes name x ∧ x.name = a := by
  induction n generalizing path name names with
  | zero =>
    -- The path would be longer than there are groups.
    have := htrail.length_le
    omega
  | succ n ih =>
    rw [expandGroup] at h
    split at h
    · cases h
    rename_i hpath
    split at h
    · cases h
    rename_i g hg
    obtain ⟨parts, hparts, h⟩ := bind_eq_ok.1 h
    obtain rfl := pure_eq_ok.1 h
    have hparts := exists_mem_of_mapM (P := fun r => ∃ x, s.DenotesRef r x ∧ x.name = a)
      (Q := (a ∈ ·)) hparts fun r hr part hpart => ?_
    · rw [List.mem_flatten, hparts]
      simp only [denotes_iff hg]
      constructor
      · rintro ⟨r, hr, x, hx, ha⟩
        exact ⟨x, ⟨r, hr, hx⟩, ha⟩
      · rintro ⟨x, ⟨r, hr, hx⟩, ha⟩
        exact ⟨r, hr, x, hx, ha⟩
    · cases r with
      | entity c =>
        obtain ⟨e, he, hpart⟩ := bind_eq_ok.1 hpart
        obtain rfl := pure_eq_ok.1 hpart
        simp only [denotesRef_entity hindexed hn (entity_eq_ok.1 he)]
        by_cases hc : e.kind.isConcrete = true <;> simp [hc, eq_comm]
      | family c =>
        obtain ⟨e, he, hpart⟩ := bind_eq_ok.1 hpart
        obtain rfl := pure_eq_ok.1 hpart
        exact mem_family hs hnumbered hindexed hn (entity_eq_ok.1 he)
      | group inner =>
        refine ih (htrail.extend hrefs hpath ⟨g, hg, hr⟩) ?_ hpart
        rw [List.length_append, List.length_singleton]
        omega

/-- The closure of a group has what the group denotes. -/
theorem mem_expand {set : SortedSet String} (hname : s.findsGroup name)
    (h : s.expand name = .ok set) :
    a ∈ set.keys ↔ ∃ x, s.Denotes name x ∧ x.name = a := by
  obtain ⟨names, hnames, h⟩ := bind_eq_ok.1 h
  obtain rfl := pure_eq_ok.1 h
  rw [SortedSet.mem_keys_ofList]
  exact mem_expandGroup hs hnumbered hindexed hn hrefs (.start hname) (Nat.lt_succ_self _) hnames

end

end RawSchema

namespace Resolution

variable {r : Resolution} {s : Schema} {name : String} {names : List String} {m : Member}
  {tag : Nat}

theorem closure_eq_ok :
    r.closure name = .ok names ↔ ∃ set, r.closures.get? name = some set ∧ set.keys = names := by
  rw [closure]
  cases r.closures.get? name <;> simp

theorem closureEntry_eq_ok {g : Group} {entry : String × SortedSet String} :
    (do return (g.name, ← s.expand g.name) : Except SchemaError _) = .ok entry ↔
      entry.1 = g.name ∧ s.expand g.name = .ok entry.2 := by
  obtain ⟨key, set⟩ := entry
  rcases s.expand g.name with error | found
  · simp
  · simp [Prod.ext_iff, eq_comm]

/-- A resolution is of its schema, and has an entry for each group. -/
theorem closures_of_ofSchema (h : ofSchema s = .ok r) : r.schema = s ∧
    ∃ entries, r.closures = .ofList entries ∧
      s.groups.mapM (fun g => return (g.name, ← s.expand g.name)) = .ok entries ∧
      entries.map Prod.fst = s.groups.map (·.name) := by
  obtain ⟨_, hclosures, h⟩ := bind_eq_ok.1 h
  obtain rfl := pure_eq_ok.1 h
  obtain ⟨_, -, hclosures⟩ := bind_eq_ok.1 hclosures
  obtain ⟨_, -, hclosures⟩ := bind_eq_ok.1 hclosures
  obtain ⟨entries, hentries, hclosures⟩ := bind_eq_ok.1 hclosures
  obtain rfl := pure_eq_ok.1 hclosures
  exact ⟨rfl, entries, rfl, hentries,
    map_of_mapM hentries fun g _ entry h => (closureEntry_eq_ok.1 h).1⟩

/-- A resolution knows the closures of the groups. -/
theorem exists_closure_of_ofSchema (hgroups : (s.groups.map (·.name)).Nodup)
    (h : ofSchema s = .ok r) : r.schema = s ∧
      ∀ g ∈ s.groups, ∃ set, r.closures.get? g.name = some set ∧ s.expand g.name = .ok set := by
  obtain ⟨hschema, entries, hclosures, hentries, hkeys⟩ := closures_of_ofSchema h
  refine ⟨hschema, fun g hg => ?_⟩
  obtain ⟨⟨_, set⟩, hmem, rfl, hset⟩ := (exists_mem_of_mapM (P := (·.name = g.name))
    (Q := fun c => c.1 = g.name ∧ s.expand g.name = .ok c.2) hentries fun g' _ c hc => by
      obtain ⟨hname, hset⟩ := closureEntry_eq_ok.1 hc
      rw [hname]
      exact ⟨And.left, fun h => ⟨h, h ▸ hset⟩⟩).2 ⟨g, hg, rfl⟩
  exact ⟨set, hclosures ▸ (SortedMap.get?_ofList (hkeys ▸ hgroups)).2 hmem, hset⟩

/-- The closures of groups, the target tags of members and the groups that
    contain an entity are what they are meant to be, and ascend. -/
structure Exact (r : Resolution) : Prop where
  /-- The closure of a group lists the names of what the group denotes. -/
  closure : ∀ g ∈ r.schema.groups, ∃ names, r.closure g.name = .ok names ∧
    names.Pairwise (· < ·) ∧ ∀ a, a ∈ names ↔ ∃ x, r.schema.Denotes g.name x ∧ x.name = a
  /-- The target tags of a member are those of what it may refer to. -/
  targetTags : ∀ e ∈ r.schema.entities, ∀ m ∈ r.schema.membersBaseFirst e,
    ∃ tags, r.targetTags m = .ok tags ∧ tags.Pairwise (· < ·) ∧
      ∀ tag, tag ∈ tags ↔ ∃ x, r.schema.entityAt? tag = some x ∧ r.schema.Takes m x
  /-- The groups that contain an entity are those with its name in their closure. -/
  groupsContaining : ∀ tag, (r.groupsContaining tag).Pairwise (· < ·) ∧
    ∀ name, name ∈ r.groupsContaining tag ↔ ∃ x names, r.schema.entityAt? tag = some x ∧
      r.closure name = .ok names ∧ x.name ∈ names

/-- The groups that contain an entity are found in the closures. -/
theorem mem_groupsContaining : name ∈ r.groupsContaining tag ↔ ∃ x names,
    r.schema.entityAt? tag = some x ∧ r.closure name = .ok names ∧ x.name ∈ names := by
  rw [groupsContaining]
  rcases r.schema.entityAt? tag with _ | x
  · simp
  · simp only [SortedMap.mem_keys_filter, SortedMap.contains_iff, closure_eq_ok, Option.some.injEq]
    constructor
    · rintro ⟨set, hset, hx⟩
      exact ⟨x, _, rfl, ⟨set, hset, rfl⟩, hx⟩
    · rintro ⟨x, _, rfl, ⟨set, hset, rfl⟩, hx⟩
      exact ⟨set, hset, hx⟩

theorem groupsContaining_ascending : (r.groupsContaining tag).Pairwise (· < ·) := by
  rw [groupsContaining]
  split
  · exact SortedMap.keys_ascending _
  · exact .nil

section

variable (hs : r.schema.BasesFirst) (hnumbered : r.schema.Numbered)
  (hn : (r.schema.entities.map (·.name)).Nodup) (hrefs : r.schema.RefsResolve)
  (hclosures : ∀ g ∈ r.schema.groups, ∃ set, r.closures.get? g.name = some set ∧
    r.schema.expand g.name = .ok set)

include hs hnumbered hn hrefs hclosures

/-- Each group has a closure, with the names of what it denotes in order. -/
theorem exists_closure (hg : r.schema.hasGroup name) : ∃ names, r.closure name = .ok names ∧
    names.Pairwise (· < ·) ∧ ∀ a, a ∈ names ↔ ∃ x, r.schema.Denotes name x ∧ x.name = a := by
  have hfound := r.schema.indexed.findsGroup hg
  obtain ⟨g, hmem, rfl⟩ := List.mem_map.1 (RawSchema.findsGroup_iff.1 hfound).1
  obtain ⟨set, hset, hexpand⟩ := hclosures g hmem
  exact ⟨set.keys, closure_eq_ok.2 ⟨set, hset, rfl⟩, set.keys_ascending,
    fun a => RawSchema.mem_expand hs hnumbered r.schema.indexed hn hrefs hfound hexpand⟩

/-- The target tags of a member are those of what it takes, in order. -/
theorem exists_targetTags (hm : r.schema.resolves m) : ∃ tags, r.targetTags m = .ok tags ∧
    tags.Pairwise (· < ·) ∧
      ∀ tag, tag ∈ tags ↔ ∃ x, r.schema.entityAt? tag = some x ∧ r.schema.Takes m x := by
  rw [RawSchema.resolves] at hm
  simp only [targetTags, RawSchema.Takes]
  -- An object is taken by itself and by what is derived
  -- from it, a union by what its group comes to.
  cases hcontent : m.content with
  | scalar => exact ⟨[], rfl, .nil, by simp⟩
  | object name card =>
    rw [hcontent] at hm
    obtain ⟨e, he⟩ := r.schema.indexed.exists_entity hm
    refine ⟨r.schema.isATags e, ?_, RawSchema.ascending_isATags, fun tag => ?_⟩
    · simp only [RawSchema.entity_eq_ok.2 he]
      rfl
    · exact RawSchema.mem_isATags_iff_denotesRef hs hnumbered r.schema.indexed hn he
  | union name card =>
    rw [hcontent] at hm
    obtain ⟨names, hnames, -, hmem⟩ := exists_closure hs hnumbered hn hrefs hclosures hm
    obtain ⟨tags, htags, hmemTags⟩ := RawSchema.exists_mapM_tag r.schema.indexed hn
      fun a (ha : a ∈ names) => by
        obtain ⟨x, hx, rfl⟩ := (hmem a).1 ha
        exact ⟨x, List.mem_of_mem_filter hx.1, rfl⟩
    refine ⟨(SortedSet.ofList tags).keys, bind_eq_ok.2 ⟨names, hnames, bind_eq_ok.2
      ⟨tags, htags, rfl⟩⟩, SortedMap.keys_ascending _, fun tag => ?_⟩
    · rw [SortedSet.mem_keys_ofList, hmemTags]
      simp only [hnumbered.entityAt?_eq_some, hmem]
      constructor
      · rintro ⟨x, hx, ⟨y, hy, hname⟩, htag⟩
        obtain rfl := List.inj_on_of_nodup_map hn (List.mem_of_mem_filter hy.1) hx hname
        exact ⟨y, ⟨hx, htag⟩, hy⟩
      · rintro ⟨x, ⟨hx, htag⟩, hdenoted⟩
        exact ⟨x, hx, ⟨x, hdenoted, rfl⟩, htag⟩

end

end Resolution

namespace Declarations

variable {d : Declarations} {naming : Naming} {s : Schema}

/-- Declaring a schema finds all that groups refer to. -/
theorem refsResolve_of_toSchema (h : d.toSchema naming = .ok s) : s.RefsResolve := by
  obtain ⟨-, -, -, hcheck, rfl⟩ := toSchema_eq_ok.1 h
  exact d.assemble.indexed.refsResolve
    (RawSchema.checkGroupRefs_eq_ok.1 (RawSchema.check_eq_ok.1 hcheck).2.1)

/-- A schema that is made from declarations can be resolved. -/
theorem exists_ofSchema (h : d.toSchema naming = .ok s) : ∃ r, Resolution.ofSchema s = .ok r := by
  have hbases := hasEntity_of_toSchema h
  have hnumbered := numbered_of_toSchema h
  have hrefs := refsResolve_of_toSchema h
  obtain ⟨-, -, -, hcheck, rfl⟩ := toSchema_eq_ok.1 h
  obtain ⟨-, -, hcycles, -⟩ := RawSchema.check_eq_ok.1 hcheck
  have hresults := RawSchema.closures_results hbases (fun e he => hnumbered.tag_lt he) hrefs
  obtain ⟨closures, hclosures, -⟩ := (hresults.mono (fun _ hfinite => hfinite)
    fun _ he => (RawSchema.checkGroupCycles_eq_ok hrefs).1 hcycles he.2).exists_ok
  exact ⟨⟨_, closures⟩, bind_eq_ok.2 ⟨closures, hclosures, rfl⟩⟩

/-- What the schema is resolved to is exact. -/
theorem exact_of_ofSchema {r : Resolution} (h : d.toSchema naming = .ok s)
    (hr : Resolution.ofSchema s = .ok r) : r.schema = s ∧ r.Exact := by
  have hs := basesFirst_of_toSchema h
  have hnumbered := numbered_of_toSchema h
  have hn := nodup_of_toSchema h
  have hrefs := refsResolve_of_toSchema h
  obtain ⟨-, hgroups, -, hcheck, hmade⟩ := toSchema_eq_ok.1 h
  have hgroups : (s.groups.map (·.name)).Nodup := hmade ▸ checkGroupNames_eq_ok.1 hgroups
  have hcontents := RawSchema.checkContents_eq_ok.1 (RawSchema.check_eq_ok.1 (hmade ▸ hcheck)).1
  obtain ⟨rfl, hclosures⟩ := Resolution.exists_closure_of_ofSchema hgroups hr
  refine ⟨rfl, {
    closure := fun g hg => Resolution.exists_closure hs hnumbered hn hrefs hclosures
      (r.schema.indexed.hasGroup_of_mem hg)
    targetTags := fun e he m hm => ?_
    groupsContaining := fun tag =>
      ⟨Resolution.groupsContaining_ascending, fun name => Resolution.mem_groupsContaining⟩ }⟩
  obtain ⟨x, hx, hm⟩ := RawSchema.exists_level hm he
  exact Resolution.exists_targetTags hs hnumbered hn hrefs hclosures (hcontents x hx m hm)

/-- A schema that is made from declarations can be resolved, and its resolution
    is exact. -/
theorem exists_resolution (h : d.toSchema naming = .ok s) :
    ∃ r, Resolution.ofSchema s = .ok r ∧ r.schema = s ∧ r.Exact :=
  let ⟨r, hr⟩ := exists_ofSchema h
  ⟨r, hr, exact_of_ofSchema h hr⟩

/-- Circles are drawn: being ellipses, they are round. -/
theorem exists_resolution_figures : ∃ r names, figures.toSchema .hardware = .ok r.schema ∧
    Resolution.ofSchema r.schema = .ok r ∧ r.closure "drawn" = .ok names ∧ "circle" ∈ names := by
  obtain ⟨r, hr, hschema, hexact⟩ := exists_resolution toSchema_figures
  obtain ⟨names, hnames, -, hmem⟩ := hexact.closure ⟨"drawn", [.group "round", .entity "note"]⟩
    (by rw [hschema]; decide +kernel)
  refine ⟨r, names, hschema ▸ toSchema_figures, hschema ▸ hr, hnames, (hmem _).2 ?_⟩
  rw [hschema]
  have hextends : figures.assemble.Extends figures.assemble.entities[4]
      figures.assemble.entities[2] := ⟨by decide +kernel, by decide +kernel⟩
  have htakes : figures.assemble.TakesIn "drawn" "round" :=
    ⟨⟨"drawn", [.group "round", .entity "note"]⟩, by decide +kernel, by decide +kernel⟩
  exact ⟨figures.assemble.entities[4], ⟨by decide +kernel, "round",
    ⟨"round", [.family "ellipse", .entity "shape"]⟩, .family "ellipse", .single htakes,
    by decide +kernel, by decide +kernel, figures.assemble.entities[2], by decide +kernel,
    by decide +kernel, .single hextends⟩, by decide +kernel⟩

end Declarations

end ObjectModel
