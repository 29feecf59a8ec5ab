import Mathlib.Data.Option.Basic
import ObjectModel.Policy.Check
import ObjectModel.Proofs.Graph.Design
import ObjectModel.Proofs.Outcome
import ObjectModel.Proofs.Schema.Names
import ObjectModel.Proofs.SortedMap

/-!
# Restricting a policy

What a policy table has of a schema is told entry by entry
(`PolicyEntry.UpToDate`). The check of a table succeeds if all its entries are up
to date (`PolicyTable.check_eq_ok_iff`), and restricting the table leaves it those
that are (`PolicyTable.has_restrictTo`). So the two agree
(`PolicyTable.restrictTo_agrees`): for objects of the schema the restricted table
says what the table says, except where this is said by an entry that is out of
date.
-/

namespace ObjectModel

/-- An entry speaks only of what the schema has. -/
def PolicyEntry.UpToDate (s : Schema) : PolicyEntry → Prop
  | .memberClone entity member clone => entity = anyEntity ∨
      s.hasEntity entity = true ∧ (s.lookupMember? entity member).isSome = true ∧
        PolicyTable.rebindKeyOk s entity clone = true
  | .entityClone entity _ | .excludeEdge entity _ => PolicyTable.knows s entity = true
  | .excludeRelation _ | .compareExclude _ => True
  | .collector entity child bucket => s.hasEntity entity = true ∧ s.hasEntity child = true ∧
      PolicyTable.bucketOk s entity bucket = true

namespace PolicyTable

variable {t : PolicyTable} {s : Schema} {entry : PolicyEntry} {collector : String}
  {buckets kept : List (String × String)}

/-- The table has the entry. -/
def Has (t : PolicyTable) : PolicyEntry → Prop
  | .memberClone entity member clone => t.memberClone.get? (entity, member) = some clone
  | .entityClone entity clone => t.entityClone.get? entity = some clone
  | .excludeRelation relation => relation ∈ t.excludedRelations.keys
  | .excludeEdge entity relation => (entity, relation) ∈ t.excludedEdges.keys
  | .compareExclude member => member ∈ t.compareExcluded.keys
  | .collector collector child bucket => (child, bucket) ∈ t.bucketsOf collector

/-- Every collector files something. -/
def Filed (t : PolicyTable) : Prop :=
  ∀ collector buckets, t.collectors.get? collector = some buckets → buckets ≠ []

/-- The table is made entry by entry, from the one that says nothing or from one
    that was restricted to a schema. -/
inductive Made : PolicyTable → Prop
  | empty : Made .empty
  | add {t : PolicyTable} (entry : PolicyEntry) : Made t → Made (t.add entry)
  | restrictTo {t : PolicyTable} (s : Schema) : Made t → Made (t.restrictTo s)

theorem Made.addAll (ht : t.Made) (entries : List PolicyEntry) : (t.addAll entries).Made := by
  induction entries generalizing t with
  | nil => exact ht
  | cons entry entries ih => exact ih (ht.add entry)

theorem mem_bucketsOf {b : String × String} :
    b ∈ t.bucketsOf collector ↔ ∃ buckets, t.collectors.get? collector = some buckets ∧
      b ∈ buckets := by
  rw [bucketsOf]
  cases t.collectors.get? collector <;> simp

/-- What is kept of a collector are the buckets that the schema knows. A collector
    that keeps none is dropped. -/
theorem restrictBuckets_eq_some : restrictBuckets s collector buckets = some kept ↔
    knows s collector = true ∧ kept ≠ [] ∧
      buckets.filter (fun b => s.hasEntity b.1 && bucketOk s collector b.2) = kept := by
  rw [restrictBuckets, Option.ite_none_right_eq_some, Bool.and_eq_true, Option.some.injEq]
  constructor
  · rintro ⟨⟨hknows, hkept⟩, rfl⟩
    exact ⟨hknows, by simpa using hkept, rfl⟩
  · rintro ⟨hknows, hkept, rfl⟩
    exact ⟨⟨hknows, by simpa using hkept⟩, rfl⟩

theorem filed_restrictTo (s : Schema) : (t.restrictTo s).Filed := by
  intro collector kept h
  rw [restrictTo, SortedMap.get?_filterMap, Option.bind_eq_some_iff] at h
  obtain ⟨buckets, -, h⟩ := h
  exact (restrictBuckets_eq_some.1 h).2.1

/-- In a table that was made, each collector has a bucket. -/
theorem Made.filed (ht : t.Made) : t.Filed := by
  induction ht with
  | empty =>
    intro collector buckets h
    cases h
  | @add t entry ht ih =>
    cases entry with
    | collector collector child bucket =>
      intro other buckets h
      change (t.collectors.insert collector _).get? other = some buckets at h
      rw [SortedMap.get?_insert] at h
      split at h
      · cases h
        split
        · exact List.ne_nil_of_mem ‹_›
        · exact List.append_ne_nil_of_right_ne_nil _ (List.cons_ne_nil _ _)
      · exact ih other buckets h
    | _ => exact ih
  | restrictTo s ht ih => exact filed_restrictTo s

/-! ## The check, entry by entry -/

/-- The checks of an entry on cloning a member find nothing just if it is up to date. -/
theorem staleMemberClone?_eq_none {entity member : String} {clone : MemberClone} :
    staleMemberClone? s entity member clone = none ↔
      (PolicyEntry.memberClone entity member clone).UpToDate s := by
  rw [staleMemberClone?, PolicyEntry.UpToDate]
  split
  · simp [*]
  · rename_i hany
    rw [or_iff_right hany]
    cases s.hasEntity entity <;> cases s.lookupMember? entity member <;>
      cases rebindKeyOk s entity clone <;> simp

/-- How a member is cloned is kept just if the check has nothing to say about it. -/
theorem keepsMemberClone_eq {entity member : String} {clone : MemberClone} :
    keepsMemberClone s entity member clone =
      (staleMemberClone? s entity member clone).isNone := by
  rw [keepsMemberClone, staleMemberClone?, knows]
  by_cases hany : entity = anyEntity
  · simp [hany]
  · rw [if_neg hany, beq_eq_false_iff_ne.2 hany]
    cases s.hasEntity entity <;> cases s.lookupMember? entity member <;>
      cases rebindKeyOk s entity clone <;> rfl

/-- An entry on cloning a member is kept just if it is up to date. -/
theorem keepsMemberClone_iff {entity member : String} {clone : MemberClone} :
    keepsMemberClone s entity member clone = true ↔
      (PolicyEntry.memberClone entity member clone).UpToDate s := by
  rw [keepsMemberClone_eq, Option.isNone_iff_eq_none, staleMemberClone?_eq_none]

/-- A collector is not stale if the schema knows it and all its buckets. -/
theorem staleCollector?_eq_none : staleCollector? s collector buckets = none ↔
    s.hasEntity collector = true ∧ ∀ b ∈ buckets, s.hasEntity b.1 = true ∧
      bucketOk s collector b.2 = true := by
  rw [staleCollector?]
  cases s.hasEntity collector with
  | false => simp
  | true =>
    rw [if_neg (by simp), List.findSome?_eq_none_iff, and_iff_right rfl]
    refine forall₂_congr fun ⟨child, bucket⟩ _ => ?_
    dsimp only
    cases s.hasEntity child <;> cases bucketOk s collector bucket <;> simp

/-- The check of a table goes through its entries, and through its collectors. -/
theorem check_eq_ok : t.check s = .ok () ↔
    (∀ entity member clone, t.memberClone.get? (entity, member) = some clone →
      staleMemberClone? s entity member clone = none) ∧
    (∀ entity ∈ t.entityClone.keys, knows s entity = true) ∧
    (∀ edge ∈ t.excludedEdges.keys, knows s edge.1 = true) ∧
    ∀ collector buckets, t.collectors.get? collector = some buckets →
      staleCollector? s collector buckets = none := by
  have hstale : t.check s = .ok () ↔ t.stale? s = none := by
    rw [check]
    cases t.stale? s <;> simp
  have hknows (entity : String) (e : StaleEntry) :
      (if knows s entity = true then none else some e) = none ↔ knows s entity = true := by
    split <;> simp [*]
  simp only [hstale, stale?, Option.orElse_eq_none, List.findSome?_eq_none_iff, hknows,
    SortedMap.get?_eq_some_iff, Prod.forall]

/-- A table is found to be up to date if each of its entries is. -/
theorem check_eq_ok_iff (ht : t.Filed) :
    t.check s = .ok () ↔ ∀ entry, t.Has entry → entry.UpToDate s := by
  simp only [check_eq_ok, staleMemberClone?_eq_none, staleCollector?_eq_none]
  constructor
  · rintro ⟨hmembers, hentities, hedges, hcollectors⟩ entry hentry
    cases entry with
    | memberClone entity member clone => exact hmembers entity member clone hentry
    | entityClone entity clone => exact hentities entity (SortedMap.mem_keys_iff.2 ⟨_, hentry⟩)
    | excludeEdge entity relation => exact hedges _ hentry
    | collector collector child bucket =>
      obtain ⟨buckets, hbuckets, hb⟩ := mem_bucketsOf.1 hentry
      obtain ⟨hcollector, hall⟩ := hcollectors collector buckets hbuckets
      exact ⟨hcollector, hall _ hb⟩
    | excludeRelation relation => trivial
    | compareExclude member => trivial
  · intro h
    refine ⟨fun entity member clone hentry => h (.memberClone entity member clone) hentry,
      fun entity hentity => ?_, fun edge hedge => h (.excludeEdge edge.1 edge.2) hedge,
      fun collector buckets hbuckets => ?_⟩
    · obtain ⟨clone, hclone⟩ := SortedMap.mem_keys_iff.1 hentity
      exact h (.entityClone entity clone) hclone
    · have hall : ∀ b ∈ buckets, (PolicyEntry.collector collector b.1 b.2).UpToDate s :=
        fun b hb => h (.collector collector b.1 b.2) (mem_bucketsOf.2 ⟨buckets, hbuckets, hb⟩)
      -- The collector is in some entry, as it files something.
      obtain ⟨b, hb⟩ := List.exists_mem_of_ne_nil _ (ht collector buckets hbuckets)
      exact ⟨(hall b hb).1, fun b hb => (hall b hb).2⟩

/-- The check of a single entry about a member. -/
theorem check_memberClone {entity member : String} {clone : MemberClone} :
    (empty.add (.memberClone entity member clone)).check s = .ok () ↔
      (PolicyEntry.memberClone entity member clone).UpToDate s := by
  rw [check_eq_ok, ← staleMemberClone?_eq_none]
  constructor
  · intro h
    refine h.1 entity member clone ?_
    change ((∅ : SortedMap _ _).insert (entity, member) clone).get? _ = _
    rw [SortedMap.get?_insert, if_pos rfl]
  · intro h
    refine ⟨fun entity' member' clone' hentry => ?_, fun _ hkey => absurd hkey List.not_mem_nil,
      fun _ hkey => absurd hkey List.not_mem_nil, fun _ _ hget => by cases hget⟩
    change ((∅ : SortedMap _ _).insert (entity, member) clone).get? _ = _ at hentry
    rw [SortedMap.get?_insert] at hentry
    split at hentry
    · -- The table has this one entry, so every entry of it is this one.
      rename_i hkey
      cases hkey
      cases hentry
      exact h
    · cases hentry

/-! ## What is kept -/

theorem hasEntity_of_bucketOk {bucket : String} (h : bucketOk s collector bucket = true) :
    s.hasEntity collector = true := by
  rw [bucketOk, RawSchema.lookupMember?] at h
  cases hentity : s.entity? collector with
  | none => simp [hentity] at h
  | some e => exact RawSchema.hasEntity_of_entity? hentity

theorem get?_memberClone_restrictTo {k : String × String} :
    (t.restrictTo s).memberClone.get? k =
      (t.memberClone.get? k).filter fun clone => keepsMemberClone s k.1 k.2 clone :=
  SortedMap.get?_filter

theorem get?_entityClone_restrictTo {entity : String} :
    (t.restrictTo s).entityClone.get? entity =
      (t.entityClone.get? entity).filter fun _ => knows s entity :=
  SortedMap.get?_filter

theorem mem_excludedEdges_restrictTo {edge : String × String} :
    edge ∈ (t.restrictTo s).excludedEdges.keys ↔
      edge ∈ t.excludedEdges.keys ∧ knows s edge.1 = true := by
  change edge ∈ (t.excludedEdges.filter fun k _ => knows s k.1).keys ↔ _
  rw [SortedMap.mem_keys_filter, SortedMap.mem_keys_iff, exists_and_right]

/-- A bucket is kept if it is up to date. -/
theorem mem_bucketsOf_restrictTo {b : String × String} :
    b ∈ (t.restrictTo s).bucketsOf collector ↔ b ∈ t.bucketsOf collector ∧
      s.hasEntity b.1 = true ∧ bucketOk s collector b.2 = true := by
  have hget : (t.restrictTo s).collectors.get? collector =
      (t.collectors.get? collector).bind (restrictBuckets s collector) := SortedMap.get?_filterMap
  simp only [mem_bucketsOf, hget, Option.bind_eq_some_iff, restrictBuckets_eq_some]
  constructor
  · rintro ⟨_, ⟨buckets, hbuckets, -, -, rfl⟩, hb⟩
    obtain ⟨hb, hok⟩ := List.mem_filter.1 hb
    exact ⟨⟨buckets, hbuckets, hb⟩, Bool.and_eq_true_iff.1 hok⟩
  · rintro ⟨⟨buckets, hbuckets, hb⟩, hok⟩
    have hkept : b ∈ buckets.filter fun b => s.hasEntity b.1 && bucketOk s collector b.2 :=
      List.mem_filter.2 ⟨hb, Bool.and_eq_true_iff.2 hok⟩
    -- The collector is known, as it has the bucket.
    have hknows : knows s collector = true := by
      rw [knows, hasEntity_of_bucketOk hok.2, Bool.or_true]
    exact ⟨_, ⟨buckets, hbuckets, hknows, List.ne_nil_of_mem hkept, rfl⟩, hkept⟩

/-- What is kept of a table are the entries that are up to date. -/
theorem has_restrictTo : (t.restrictTo s).Has entry ↔ t.Has entry ∧ entry.UpToDate s := by
  cases entry with
  | memberClone entity member clone =>
    rw [Has, get?_memberClone_restrictTo, Option.filter_eq_some_iff, keepsMemberClone_iff]
    rfl
  | entityClone entity clone =>
    rw [Has, get?_entityClone_restrictTo, Option.filter_eq_some_iff]
    rfl
  | excludeEdge entity relation => exact mem_excludedEdges_restrictTo
  | collector collector child bucket =>
    refine mem_bucketsOf_restrictTo.trans (and_congr_right fun _ => ⟨fun hok => ?_, And.right⟩)
    exact ⟨hasEntity_of_bucketOk hok.2, hok⟩
  | excludeRelation relation => exact (and_iff_left trivial).symm
  | compareExclude member => exact (and_iff_left trivial).symm

theorem check_restrictTo : (t.restrictTo s).check s = .ok () :=
  (check_eq_ok_iff (filed_restrictTo s)).2 fun _ hentry => (has_restrictTo.1 hentry).2

/-- Restricting leaves a table as it is if it passes the check. -/
theorem restrictTo_eq_self_iff (ht : t.Filed) : t.restrictTo s = t ↔ t.check s = .ok () := by
  constructor
  · intro h
    rw [← h]
    exact check_restrictTo
  · intro h
    obtain ⟨hmembers, hentities, hedges, hcollectors⟩ := check_eq_ok.1 h
    have hmembers' : (t.restrictTo s).memberClone = t.memberClone :=
      SortedMap.filter_eq_self_iff.2 fun k clone hk =>
        keepsMemberClone_iff.2 (staleMemberClone?_eq_none.1 (hmembers k.1 k.2 clone hk))
    have hentities' : (t.restrictTo s).entityClone = t.entityClone :=
      SortedMap.filter_eq_self_iff.2 fun entity clone hentity =>
        hentities entity (SortedMap.mem_keys_iff.2 ⟨clone, hentity⟩)
    have hedges' : (t.restrictTo s).excludedEdges = t.excludedEdges :=
      SortedMap.filter_eq_self_iff.2 fun edge u hedge =>
        hedges edge (SortedMap.mem_keys_iff.2 ⟨u, hedge⟩)
    -- A collector is left out only with no buckets, and none is filed so.
    have hcollectors' : (t.restrictTo s).collectors = t.collectors := by
      refine SortedMap.filterMap_eq_self_iff.2 fun collector buckets hbuckets => ?_
      obtain ⟨hcollector, hall⟩ :=
        staleCollector?_eq_none.1 (hcollectors collector buckets hbuckets)
      refine restrictBuckets_eq_some.2 ⟨?_, ht collector buckets hbuckets, ?_⟩
      · rw [knows, hcollector, Bool.or_true]
      · exact List.filter_eq_self.2 fun b hb => Bool.and_eq_true_iff.2 (hall b hb)
    cases t
    exact (mk.injEq ..).mpr ⟨hmembers', hentities', rfl, hedges', rfl, hcollectors'⟩

/-! ## What the restricted table says -/

/-- The entry that says how references in `m` are cloned, for an object with this
    chain. -/
def deciding? (t : PolicyTable) (chain : List Entity) (m : Member) :
    Option (String × MemberClone) :=
  (chain.map (·.name) ++ [anyEntity]).findSome? fun entity =>
    (t.memberClone.get? (entity, m.name)).map (entity, ·)

/-- References in `m` are cloned as the entry says, if there is one. -/
theorem memberCloneOf_eq (chain : List Entity) (m : Member) :
    t.memberCloneOf chain m = ((t.deciding? chain m).map Prod.snd).getD
      (if m.hasTag .backReference then .rebindByName
        else if m.hasTag .typeSpecification then .uniquify
        else .deep) := by
  have hentry : (t.deciding? chain m).map Prod.snd =
      (chain.map (·.name) ++ [anyEntity]).findSome? fun e => t.memberClone.get? (e, m.name) := by
    rw [deciding?, List.map_findSome?]
    refine congrArg (List.findSome? · _) (funext fun e => ?_)
    rw [Function.comp_apply, Option.map_map]
    exact Option.map_id'
  rw [memberCloneOf, ← hentry]
  cases (t.deciding? chain m).map Prod.snd <;> rfl

/-- What is found first stays so when others are left out. -/
theorem findSome?_filter {α β : Type} {f : α → Option β} {p : β → Bool} {l : List α}
    (h : ∀ b, l.findSome? f = some b → p b = true) :
    l.findSome? (fun a => (f a).filter p) = l.findSome? f := by
  induction l with
  | nil => rfl
  | cons a l ih =>
    rw [List.findSome?_cons] at h ⊢
    rw [List.findSome?_cons]
    cases ha : f a with
    | none =>
      rw [ha] at h
      exact ih h
    | some b =>
      rw [ha] at h
      rw [Option.filter_some, if_pos (h b rfl)]

/-- The entry that decides on a member is kept if
    it is up to date, and then still decides. -/
theorem deciding?_restrictTo {chain : List Entity} {m : Member}
    (h : ∀ entity clone, t.deciding? chain m = some (entity, clone) →
      (PolicyEntry.memberClone entity m.name clone).UpToDate s) :
    (t.restrictTo s).deciding? chain m = t.deciding? chain m := by
  let kept (e : String × MemberClone) : Bool := keepsMemberClone s e.1 m.name e.2
  have hkept (entity : String) :
      ((t.restrictTo s).memberClone.get? (entity, m.name)).map (entity, ·) =
        ((t.memberClone.get? (entity, m.name)).map (entity, ·)).filter kept := by
    rw [get?_memberClone_restrictTo, Option.filter_map]
    rfl
  simp only [deciding?, hkept]
  refine findSome?_filter fun ⟨entity, clone⟩ hentry => ?_
  exact keepsMemberClone_iff.2 (h entity clone hentry)

variable {e : Entity}

/-- All that is asked about an object of the schema is known. -/
theorem knows_of_mem_chain (he : e ∈ s.entities) {name : String}
    (hname : name ∈ (s.chain e).map (·.name) ++ [anyEntity]) : knows s name = true := by
  rw [knows, Bool.or_eq_true, beq_iff_eq]
  rcases List.mem_append.1 hname with hname | hname
  · obtain ⟨d, hd, rfl⟩ := List.mem_map.1 hname
    have hmem : d ∈ s.entities := (RawSchema.mem_chainUpTo hd).elim (· ▸ he) id
    exact .inr (s.indexed.hasEntity_of_mem hmem)
  · exact .inl (List.mem_singleton.1 hname)

/-- Entities of the schema are cloned as before. -/
theorem entityCloneOf_restrictTo (he : e ∈ s.entities) :
    (t.restrictTo s).entityCloneOf (s.chain e) = t.entityCloneOf (s.chain e) := by
  rw [entityCloneOf, entityCloneOf, findSome?_congr fun d hd => ?_]
  have hknows := knows_of_mem_chain he (List.mem_append_left _ (List.mem_map_of_mem hd))
  rw [get?_entityClone_restrictTo, hknows]
  cases t.entityClone.get? d.name <;> rfl

/-- Members of entities of the schema are passed over as before. -/
theorem skipsTraversal_restrictTo (he : e ∈ s.entities) (m : Member) :
    (t.restrictTo s).skipsTraversal (s.chain e) m = t.skipsTraversal (s.chain e) m := by
  have hedges (name relation : String) (hname : name ∈ (s.chain e).map (·.name) ++ [anyEntity]) :
      (t.restrictTo s).excludedEdges.contains (name, relation) =
        t.excludedEdges.contains (name, relation) := by
    rw [Bool.eq_iff_iff, SortedMap.contains_iff, SortedMap.contains_iff,
      mem_excludedEdges_restrictTo, and_iff_left (knows_of_mem_chain he hname)]
  rw [skipsTraversal, skipsTraversal]
  refine congrArg₂ _ rfl (Bool.eq_iff_iff.2 ?_)
  rw [List.any_eq_true, List.any_eq_true]
  refine exists_congr fun name => and_congr_right fun hname => ?_
  rw [hedges name _ hname, hedges name _ hname]

/-- Restricting a table to a schema and checking it agree. What is restricted
    passes the check; a table is left as it is if it passes, and only then; to
    restrict a table again changes nothing. Of all objects of the schema the
    restricted table says what the table says, though not how members are cloned
    where the entry that says this is refused by the check. -/
theorem restrictTo_agrees (ht : t.Made) (s : Schema) :
    (t.restrictTo s).check s = .ok () ∧
    (t.restrictTo s = t ↔ t.check s = .ok ()) ∧
    (t.restrictTo s).restrictTo s = t.restrictTo s ∧
    ∀ e ∈ s.entities,
      (t.restrictTo s).entityCloneOf (s.chain e) = t.entityCloneOf (s.chain e) ∧
      ∀ m ∈ s.membersBaseFirst e,
        (t.restrictTo s).skipsTraversal (s.chain e) m = t.skipsTraversal (s.chain e) m ∧
        (t.restrictTo s).skipsCompare m = t.skipsCompare m ∧
        ((∀ entity clone, t.deciding? (s.chain e) m = some (entity, clone) →
            (empty.add (.memberClone entity m.name clone)).check s = .ok ()) →
          (t.restrictTo s).memberCloneOf (s.chain e) m = t.memberCloneOf (s.chain e) m) := by
  refine ⟨check_restrictTo, restrictTo_eq_self_iff ht.filed, ?_, fun e he => ?_⟩
  · exact (restrictTo_eq_self_iff (filed_restrictTo s)).2 check_restrictTo
  · refine ⟨entityCloneOf_restrictTo he, fun m _ => ?_⟩
    refine ⟨skipsTraversal_restrictTo he m, rfl, fun hentry => ?_⟩
    have hentry := deciding?_restrictTo (t := t) fun entity clone h =>
      check_memberClone.1 (hentry entity clone h)
    rw [memberCloneOf_eq, memberCloneOf_eq, hentry]

/-- A table for designs that speaks of what wires have as if cells had it, of an
    entity that there is not, and of collectors that are left with nothing to
    file. The wildcard is no collector, and so takes the place of the entry about
    the cell above a cell, the key of which is no text. -/
theorem restrictTo_agrees_design :
    let t := PolicyTable.empty.addAll [.memberClone "cell" "next" .deep,
      .memberClone "*" "next" .alias, .memberClone "cell" "up" (.rebind "wires" .referrer),
      .memberClone "*" "up" .alias, .entityClone "bus" (.custom .constant),
      .entityClone "wire" (.dedupByName .net), .excludeEdge "bus" "cells",
      .excludeEdge "*" "cells", .collector "*" "wire" "wires", .collector "cell" "bus" "wires"]
    let u := t.restrictTo Design.schema
    let up := (Member.plain "up" (.object "cell" .one)).withTag .backReference
    t.Made ∧ u.check Design.schema = .ok () ∧ u ≠ t ∧ u.restrictTo Design.schema = u ∧
      u.hasCollectors = false ∧
      (∀ e ∈ Design.schema.entities,
        u.entityCloneOf (Design.schema.chain e) = t.entityCloneOf (Design.schema.chain e)) ∧
      Design.schema.entities.map (fun e => t.memberCloneOf (Design.schema.chain e) up) =
        [.alias, .rebind "wires" .referrer] ∧
      Design.schema.entities.map (fun e => u.memberCloneOf (Design.schema.chain e) up) =
        [.alias, .alias] := by
  intro t u up
  have ht : t.Made := .addAll .empty _
  obtain ⟨hcheck, hself, hagain, hanswers⟩ := restrictTo_agrees ht Design.schema
  refine ⟨ht, hcheck, fun h => ?_, hagain, by decide +kernel, fun e he => (hanswers e he).1,
    by decide +kernel, by decide +kernel⟩
  exact absurd (hself.1 h) (by decide +kernel)

end PolicyTable

end ObjectModel
