import ObjectModel.Policy.Basic
import ObjectModel.Proofs.SortedMap

/-!
# Entries of a policy

A table is made by adding entries to one that is there already, and what it says in
the end can be told from these (`PolicyTable.Extends`, `PolicyTable.addAll_extends`):
of the entries on how something is cloned the last counts, exclusions add up, and a
collector has the buckets it had, followed by new ones in the order in which they
first occur. As there is nothing else in a table, entries may be given in another
order, so long as those about one subject keep theirs (`PolicyEntry.Reordered`,
`PolicyTable.Extends.eq_of_reordered`).
-/

namespace ObjectModel

namespace PolicyEntry

/-- How references in the member of an entity are cloned, if the entry is about that. -/
def memberClone? (entity member : String) : PolicyEntry → Option MemberClone
  | .memberClone e m clone => if (e, m) = (entity, member) then some clone else none
  | _ => none

/-- How objects of an entity are cloned, if the entry is about that. -/
def entityClone? (entity : String) : PolicyEntry → Option EntityClone
  | .entityClone e clone => if e = entity then some clone else none
  | _ => none

/-- A child with its bucket, if the entry is about the collector. -/
def bucket? (collector : String) : PolicyEntry → Option (String × String)
  | .collector c child bucket => if c = collector then some (child, bucket) else none
  | _ => none

/-- What an entry may be about. -/
inductive Subject
  | memberClone (entity member : String)
  | entityClone (entity : String)
  | excludeRelation (relation : String)
  | excludeEdge (entity relation : String)
  | compareExclude (member : String)
  /-- All buckets of a collector. -/
  | collector (collector : String)
deriving DecidableEq, Repr

/-- What the entry is about. -/
def subject : PolicyEntry → Subject
  | .memberClone entity member _ => .memberClone entity member
  | .entityClone entity _ => .entityClone entity
  | .excludeRelation relation => .excludeRelation relation
  | .excludeEdge entity relation => .excludeEdge entity relation
  | .compareExclude member => .compareExclude member
  | .collector c _ _ => .collector c

/-- The same entries, in an order that is the same for those about one subject. -/
def Reordered (l l' : List PolicyEntry) : Prop :=
  ∀ s : Subject, l.filter (fun e => e.subject = s) = l'.filter fun e => e.subject = s

theorem memberClone?_eq_none (entity member : String) (e : PolicyEntry)
    (he : e.subject ≠ .memberClone entity member) : e.memberClone? entity member = none := by
  cases e with
  | memberClone => exact if_neg fun h => he (by rw [subject, (Prod.mk.inj h).1, (Prod.mk.inj h).2])
  | _ => rfl

theorem entityClone?_eq_none (entity : String) (e : PolicyEntry)
    (he : e.subject ≠ .entityClone entity) : e.entityClone? entity = none := by
  cases e with
  | entityClone => exact if_neg fun h => he (by rw [subject, h])
  | _ => rfl

theorem bucket?_eq_none (collector : String) (e : PolicyEntry)
    (he : e.subject ≠ .collector collector) : e.bucket? collector = none := by
  cases e with
  | collector => exact if_neg fun h => he (by rw [subject, h])
  | _ => rfl

variable {l l' : List PolicyEntry}

theorem Reordered.refl (l : List PolicyEntry) : Reordered l l := fun _ => rfl

/-- Entries about different subjects may change places. -/
theorem Reordered.swap {a c : PolicyEntry} (h : a.subject ≠ c.subject)
    (l l' : List PolicyEntry) : Reordered (l ++ a :: c :: l') (l ++ c :: a :: l') := by
  intro s
  rw [List.filter_append, List.filter_append]
  by_cases ha : a.subject = s
  · have hc : c.subject ≠ s := fun hc => h (ha.trans hc.symm)
    simp [List.filter_cons, hc]
  · simp [List.filter_cons, ha]

theorem Reordered.mem_iff (h : Reordered l l') {a : PolicyEntry} : a ∈ l ↔ a ∈ l' := by
  have hfilter (l : List PolicyEntry) : a ∈ l ↔ a ∈ l.filter fun e => e.subject = a.subject := by
    simp [List.mem_filter]
  rw [hfilter, h, ← hfilter]

/-- What is told about one subject stays as it was. -/
theorem Reordered.filterMap_eq (h : Reordered l l') {α : Type} {f : PolicyEntry → Option α}
    {s : Subject} (hf : ∀ e, e.subject ≠ s → f e = none) : l.filterMap f = l'.filterMap f := by
  have hfilter (l : List PolicyEntry) :
      l.filterMap f = (l.filter fun e => e.subject = s).filterMap f := by
    rw [List.filterMap_filter]
    refine List.filterMap_congr fun e _ => ?_
    by_cases he : e.subject = s
    · rw [if_pos (decide_eq_true he)]
    · rw [hf e he, ite_self]
  rw [hfilter l, h s, ← hfilter l']

end PolicyEntry

namespace PolicyTable

open PolicyEntry

variable {t t' base : PolicyTable} {a : PolicyEntry} {l l' : List PolicyEntry}
  {entity member relation collector : String}

/-- The table says what `base` says, as far as this is not changed by the entries in
    `l`, which come later. -/
structure Extends (t base : PolicyTable) (l : List PolicyEntry) : Prop where
  memberClone : ∀ entity member, t.memberClone.get? (entity, member) =
    (l.filterMap (memberClone? entity member)).getLast?.or (base.memberClone.get? (entity, member))
  entityClone : ∀ entity, t.entityClone.get? entity =
    (l.filterMap (entityClone? entity)).getLast?.or (base.entityClone.get? entity)
  excludedRelations : ∀ relation, relation ∈ t.excludedRelations.keys ↔
    relation ∈ base.excludedRelations.keys ∨ .excludeRelation relation ∈ l
  excludedEdges : ∀ entity relation, (entity, relation) ∈ t.excludedEdges.keys ↔
    (entity, relation) ∈ base.excludedEdges.keys ∨ .excludeEdge entity relation ∈ l
  compareExcluded : ∀ member, member ∈ t.compareExcluded.keys ↔
    member ∈ base.compareExcluded.keys ∨ .compareExclude member ∈ l
  collectors : ∀ collector, collector ∈ t.collectors.keys ↔
    collector ∈ base.collectors.keys ∨ ∃ child bucket, .collector collector child bucket ∈ l
  /-- New buckets come last, each where it occurs first. -/
  bucketsOf : ∀ collector, t.bucketsOf collector = base.bucketsOf collector ++
    ((l.filterMap (bucket? collector)).filter (· ∉ base.bucketsOf collector)).eraseDups

/-! ## One more entry -/

/-- An entry on how a member is cloned replaces what was said of it. -/
theorem get?_memberClone_add : (t.add a).memberClone.get? (entity, member) =
    (a.memberClone? entity member).or (t.memberClone.get? (entity, member)) := by
  cases a with
  | memberClone e m clone =>
    rw [add, SortedMap.get?_insert, memberClone?]
    by_cases h : (e, m) = (entity, member)
    · rw [if_pos h.symm, if_pos h, Option.some_or]
    · rw [if_neg (Ne.symm h), if_neg h, Option.none_or]
  | _ => rfl

/-- An entry on how an entity is cloned replaces what was said of it. -/
theorem get?_entityClone_add : (t.add a).entityClone.get? entity =
    (a.entityClone? entity).or (t.entityClone.get? entity) := by
  cases a with
  | entityClone e clone =>
    rw [add, SortedMap.get?_insert, entityClone?]
    by_cases h : e = entity
    · rw [if_pos h.symm, if_pos h, Option.some_or]
    · rw [if_neg (Ne.symm h), if_neg h, Option.none_or]
  | _ => rfl

theorem mem_excludedRelations_add : relation ∈ (t.add a).excludedRelations.keys ↔
    relation ∈ t.excludedRelations.keys ∨ .excludeRelation relation = a := by
  cases a with
  | excludeRelation r =>
    rw [add, SortedSet.mem_keys_add, or_comm, PolicyEntry.excludeRelation.injEq]
  | _ => simp [add]

theorem mem_excludedEdges_add : (entity, relation) ∈ (t.add a).excludedEdges.keys ↔
    (entity, relation) ∈ t.excludedEdges.keys ∨ .excludeEdge entity relation = a := by
  cases a with
  | excludeEdge e r =>
    rw [add, SortedSet.mem_keys_add, or_comm, PolicyEntry.excludeEdge.injEq, Prod.mk.injEq]
  | _ => simp [add]

theorem mem_compareExcluded_add : member ∈ (t.add a).compareExcluded.keys ↔
    member ∈ t.compareExcluded.keys ∨ .compareExclude member = a := by
  cases a with
  | compareExclude m =>
    rw [add, SortedSet.mem_keys_add, or_comm, PolicyEntry.compareExclude.injEq]
  | _ => simp [add]

/-- A collector is known as soon as one of its buckets is. -/
theorem mem_collectors_add : collector ∈ (t.add a).collectors.keys ↔
    collector ∈ t.collectors.keys ∨ ∃ child bucket, .collector collector child bucket = a := by
  cases a with
  | collector c child bucket =>
    rw [add, SortedMap.keys, SortedMap.insert, SortedMap.mem_keys_insertEntry_iff]
    simp [or_comm, SortedMap.keys]
  | _ => simp [add]

/-- A bucket that a collector has already is not added again. -/
theorem bucketsOf_add : (t.add a).bucketsOf collector = t.bucketsOf collector ++
    (a.bucket? collector).toList.filter (· ∉ t.bucketsOf collector) := by
  cases a with
  | collector c child bucket =>
    rw [PolicyTable.bucketsOf, add, SortedMap.get?_insert, bucket?]
    by_cases h : c = collector
    · subst h
      rw [if_pos rfl, if_pos rfl, Option.getD_some, ← PolicyTable.bucketsOf]
      by_cases hmem : (child, bucket) ∈ t.bucketsOf c <;> simp [hmem]
    · rw [if_neg (Ne.symm h), if_neg h, ← PolicyTable.bucketsOf]
      simp
  | _ => simp [add, PolicyTable.bucketsOf, bucket?]

/-! ## All entries -/

theorem addAll_append : base.addAll (l ++ l') = (base.addAll l).addAll l' := List.foldl_append

theorem Extends.refl (base : PolicyTable) : base.Extends base [] where
  memberClone _ _ := rfl
  entityClone _ := rfl
  excludedRelations _ := by simp
  excludedEdges _ _ := by simp
  compareExcluded _ := by simp
  collectors _ := by simp
  bucketsOf _ := by simp

theorem getLast?_filterMap_concat {α β : Type} {f : α → Option β} {l : List α} {a : α}
    {b : Option β} :
    ((l ++ [a]).filterMap f).getLast?.or b = (f a).or ((l.filterMap f).getLast?.or b) := by
  rw [List.filterMap_append, List.getLast?_append, Option.or_assoc]
  cases h : f a <;> simp [h]

theorem eraseDups_concat {α : Type} [BEq α] [LawfulBEq α] [DecidableEq α] {l : List α} {a : α} :
    (l ++ [a]).eraseDups = l.eraseDups ++ if a ∈ l then [] else [a] := by
  rw [List.eraseDups_append]
  by_cases h : a ∈ l <;> simp [List.removeAll, List.eraseDups_cons, h]

/-- A table that has some entries has one more after this is added. -/
theorem Extends.add (h : t.Extends base l) (a : PolicyEntry) :
    (t.add a).Extends base (l ++ [a]) where
  memberClone entity member := by
    rw [get?_memberClone_add, h.memberClone, getLast?_filterMap_concat]
  entityClone entity := by
    rw [get?_entityClone_add, h.entityClone, getLast?_filterMap_concat]
  excludedRelations relation := by
    rw [mem_excludedRelations_add, h.excludedRelations, List.mem_append, List.mem_singleton,
      or_assoc]
  excludedEdges entity relation := by
    rw [mem_excludedEdges_add, h.excludedEdges, List.mem_append, List.mem_singleton, or_assoc]
  compareExcluded member := by
    rw [mem_compareExcluded_add, h.compareExcluded, List.mem_append, List.mem_singleton, or_assoc]
  collectors collector := by
    rw [mem_collectors_add, h.collectors, or_assoc]
    simp only [List.mem_append, List.mem_singleton, exists_or]
  bucketsOf collector := by
    have hlast : (l ++ [a]).filterMap (bucket? collector) =
        l.filterMap (bucket? collector) ++ (a.bucket? collector).toList := by
      rw [List.filterMap_append]
      cases h : a.bucket? collector <;> simp [h]
    rw [bucketsOf_add, h.bucketsOf, hlast, List.filter_append, List.append_assoc]
    generalize l.filterMap (bucket? collector) = told
    cases a.bucket? collector with
    | none => simp
    | some b =>
      -- A bucket is filed unless it is there, be it
      -- from the base or from the entries told so far.
      by_cases hbase : b ∈ base.bucketsOf collector
      · simp [hbase]
      · by_cases htold : b ∈ told <;> simp [hbase, htold, eraseDups_concat]

/-- What a table says to which entries were added one after the other. -/
theorem addAll_extends (base : PolicyTable) (l : List PolicyEntry) :
    (base.addAll l).Extends base l := by
  suffices h : ∀ (l' : List PolicyEntry) (t : PolicyTable), t.Extends base l' →
      (t.addAll l).Extends base (l' ++ l) from h [] base (.refl base)
  induction l with
  | nil => simp [addAll]
  | cons a l ih =>
    intro l' t ht
    have := ih (l' ++ [a]) (t.add a) (ht.add a)
    rwa [List.append_assoc] at this

/-! ## The order of entries -/

/-- What is filed under a collector are its buckets in order. -/
theorem get?_collectors : t.collectors.get? collector =
    if collector ∈ t.collectors.keys then some (t.bucketsOf collector) else none := by
  rw [PolicyTable.bucketsOf]
  split
  · rename_i h
    obtain ⟨buckets, h⟩ := SortedMap.mem_keys_iff.1 h
    rw [h, Option.getD_some]
  · rename_i h
    rw [Option.eq_none_iff_forall_not_mem]
    exact fun buckets hb => h (SortedMap.mem_keys_iff.2 ⟨buckets, hb⟩)

/-- Sets with the same elements are the same. -/
theorem eq_of_keys {κ : Type} [Ord κ] [Std.TransOrd κ] [Std.LawfulEqOrd κ] {s s' : SortedSet κ}
    (h : ∀ k, k ∈ s.keys ↔ k ∈ s'.keys) : s = s' := by
  refine SortedMap.ext_get? fun k => Option.ext fun ⟨⟩ => ?_
  have hkey (s : SortedSet κ) : s.get? k = some () ↔ k ∈ s.keys :=
    ⟨fun hk => SortedMap.mem_keys_iff.2 ⟨(), hk⟩,
      fun hk => (SortedMap.mem_keys_iff.1 hk).choose_spec⟩
  exact (hkey s).trans ((h k).trans (hkey s').symm)

/-- Each thing that a table says depends on the entries about one subject only, and
    there is nothing else in a table. -/
theorem Extends.eq_of_reordered (h : t.Extends base l) (h' : t'.Extends base l')
    (hl : Reordered l l') : t = t' := by
  -- Each part of the table asks for some of the entries, whose order is the same in both lists.
  have hmembers : t.memberClone = t'.memberClone := SortedMap.ext_get? fun (entity, member) => by
    rw [h.memberClone, h'.memberClone, hl.filterMap_eq (memberClone?_eq_none entity member)]
  have hentities : t.entityClone = t'.entityClone := SortedMap.ext_get? fun entity => by
    rw [h.entityClone, h'.entityClone, hl.filterMap_eq (entityClone?_eq_none entity)]
  have hrelations : t.excludedRelations = t'.excludedRelations := eq_of_keys fun relation => by
    rw [h.excludedRelations, h'.excludedRelations, hl.mem_iff]
  have hedges : t.excludedEdges = t'.excludedEdges := eq_of_keys fun (entity, relation) => by
    rw [h.excludedEdges, h'.excludedEdges, hl.mem_iff]
  have hcompared : t.compareExcluded = t'.compareExcluded := eq_of_keys fun member => by
    rw [h.compareExcluded, h'.compareExcluded, hl.mem_iff]
  have hcollectors : t.collectors = t'.collectors := SortedMap.ext_get? fun collector => by
    have hkeys : collector ∈ t.collectors.keys ↔ collector ∈ t'.collectors.keys := by
      rw [h.collectors, h'.collectors]
      simp only [hl.mem_iff]
    simp only [get?_collectors, hkeys, h.bucketsOf, h'.bucketsOf,
      hl.filterMap_eq (bucket?_eq_none collector)]
  cases t
  cases t'
  simp_all only

end PolicyTable

end ObjectModel
