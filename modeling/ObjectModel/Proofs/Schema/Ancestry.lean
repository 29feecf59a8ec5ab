import ObjectModel.Proofs.Schema.Declaring

/-!
# Ancestry

That one entity extends another (`RawSchema.Extends`) is looked at from below by
chains, from above by descendants, and by tags in the set of what is an object
of an entity. In a schema that is made from declarations these are three views
of one order. A chain ends there for want of a base, and its bound never cuts
it short.

* `RawSchema.chain_eq`: a chain goes on with the chain of the base;
* `RawSchema.mem_chain`, `RawSchema.mem_descendants`, `RawSchema.mem_isATags`: each view
  in terms of the order;
* `Declarations.ancestry_of_toSchema`: the views in terms of each other.
-/

namespace ObjectModel

namespace RawSchema

variable {s : RawSchema} {e d b : Entity} {n k tag : Nat}

theorem mem_of_extends (h : s.Extends e b) : b ∈ s.entities := mem_of_base? h.2

theorem mem_of_reflTransGen (h : Relation.ReflTransGen s.Extends e d) (he : e ∈ s.entities) :
    d ∈ s.entities := by
  cases h with
  | refl => exact he
  | tail _ h => exact mem_of_extends h

variable (hs : s.BasesFirst)

include hs

theorem tag_lt_of_transGen (h : Relation.TransGen s.Extends e d) : d.tag < e.tag := by
  induction h with
  | single h => exact hs _ h.1 _ h.2
  | tail _ h ih => exact (hs _ h.1 _ h.2).trans ih

/-! ## Chains -/

/-- A chain is not cut short by a bound above the tag. -/
theorem chainUpTo_eq (he : e ∈ s.entities) (hn : e.tag < n) (hk : e.tag < k) :
    s.chainUpTo n e = s.chainUpTo k e := by
  induction n generalizing e k with
  | zero => exact absurd hn (Nat.not_lt_zero _)
  | succ n ih =>
    obtain ⟨k, rfl⟩ := Nat.exists_eq_succ_of_ne_zero (Nat.ne_zero_of_lt hk)
    rw [chainUpTo, chainUpTo]
    rcases hb : s.base? e with _ | b
    · rfl
    · have hlt := hs e he b hb
      simp only [ih (mem_of_base? hb) (show b.tag < n by omega) (show b.tag < k by omega)]

variable (hnumbered : s.Numbered) (he : e ∈ s.entities)

include hnumbered he

/-- The chain of an entity goes on with that of its base. -/
theorem chain_eq : s.chain e = e :: (s.base? e).elim [] s.chain := by
  have hlt := hnumbered.tag_lt he
  rw [chain, chainUpTo_eq hs he hlt (Nat.lt_succ_of_lt hlt), chainUpTo]
  rcases s.base? e with _ | b <;> rfl

/-- The chain holds the entity and all that it extends. -/
theorem mem_chain : d ∈ s.chain e ↔ Relation.ReflTransGen s.Extends e d := by
  constructor
  · intro hd
    -- By induction on the tag: that of the base is less.
    induction htag : e.tag using Nat.strong_induction_on generalizing e with
    | _ t ih =>
      rw [chain_eq hs hnumbered he] at hd
      rcases List.mem_cons.1 hd with rfl | hd
      · exact .refl
      · rcases hb : s.base? e with _ | b
        · simp [hb] at hd
        · rw [hb] at hd
          exact .head ⟨he, hb⟩ (ih _ (htag ▸ hs e he b hb) (mem_of_base? hb) hd rfl)
  · intro hd
    induction hd using Relation.ReflTransGen.head_induction_on with
    | refl =>
      rw [chain_eq hs hnumbered he]
      exact List.mem_cons_self
    | head h _ ih =>
      rw [chain_eq hs hnumbered h.1, h.2]
      exact List.mem_cons_of_mem _ (ih (mem_of_extends h))

/-- Behind its first, a chain has the proper ancestors. -/
theorem mem_tail_chain : d ∈ (s.chain e).tail ↔ Relation.TransGen s.Extends e d := by
  rw [chain_eq hs hnumbered he, List.tail_cons, Relation.TransGen.head'_iff]
  constructor
  · intro hd
    rcases hb : s.base? e with _ | b
    · simp [hb] at hd
    · rw [hb] at hd
      exact ⟨b, ⟨he, hb⟩, (mem_chain hs hnumbered (mem_of_base? hb)).1 hd⟩
  · rintro ⟨b, h, hd⟩
    rw [h.2]
    exact (mem_chain hs hnumbered (mem_of_extends h)).2 hd

/-- Going up a chain, tags get less. -/
theorem chain_descending : (s.chain e).Pairwise fun x y => y.tag < x.tag := by
  induction htag : e.tag using Nat.strong_induction_on generalizing e with
  | _ t ih =>
    have htail := fun d => mem_tail_chain (d := d) hs hnumbered he
    rw [chain_eq hs hnumbered he, List.tail_cons] at htail
    rw [chain_eq hs hnumbered he]
    refine List.pairwise_cons.2 ⟨fun d hd => tag_lt_of_transGen hs ((htail d).1 hd), ?_⟩
    rcases hb : s.base? e with _ | b
    · exact .nil
    · exact ih _ (htag ▸ hs e he b hb) (mem_of_base? hb) rfl

/-- At the end of a chain there is an entity without a base. -/
theorem base_of_getLast? (hindexed : s.Indexed)
    (hdeclared : ∀ e ∈ s.entities, ∀ b, e.base = some b → s.hasEntity b)
    (hd : d ∈ (s.chain e).getLast?) : d.base = none := by
  induction htag : e.tag using Nat.strong_induction_on generalizing e with
  | _ t ih =>
    rw [chain_eq hs hnumbered he] at hd
    rcases hb : s.base? e with _ | b
    · rw [hb] at hd
      obtain rfl : e = d := Option.some.inj hd
      -- A base would be declared, so it would be found.
      rcases hbase : e.base with _ | name
      · rfl
      · obtain ⟨b, hfound⟩ := hindexed.exists_entity (hdeclared e he name hbase)
        rw [base?, hbase, Option.bind_some, hfound] at hb
        cases hb
    · have hchain := chain_eq hs hnumbered (mem_of_base? hb)
      rw [hb, Option.elim_some, hchain, List.getLast?_cons_cons, ← hchain] at hd
      exact ih _ (htag ▸ hs e he b hb) (mem_of_base? hb) hd rfl

omit he

/-! ## From above -/

/-- Descendants are found by looking up the chains of all entities. -/
theorem mem_descendants (he : e ∈ s.entities) :
    d ∈ s.descendants e ↔ Relation.TransGen s.Extends d e := by
  rw [descendants, List.mem_filter, List.any_eq_true]
  constructor
  · rintro ⟨hd, x, hx, htag⟩
    have hx := (mem_tail_chain hs hnumbered hd).1 hx
    rwa [← hnumbered.eq_of_tag (mem_of_reflTransGen hx.to_reflTransGen hd) he (by simpa using htag)]
  · intro h
    obtain ⟨_, hbase, -⟩ := Relation.TransGen.head'_iff.1 h
    exact ⟨hbase.1, e, (mem_tail_chain hs hnumbered hbase.1).2 h, beq_self_eq_true _⟩

/-- The tags of an entity are those of the concrete entities that are it or
    extend it. -/
theorem mem_isATags (he : e ∈ s.entities) : tag ∈ s.isATags e ↔
    ∃ c ∈ s.concrete, c.tag = tag ∧ Relation.ReflTransGen s.Extends c e := by
  have hplace {c : Entity} {place : Nat} : (c, place) ∈ s.entities.zipIdx ↔
      c ∈ s.entities ∧ c.tag = place :=
    List.mem_zipIdx_iff_getElem?.trans hnumbered.entityAt?_eq_some
  -- What is at the place of `e` is `e`, and what has its tag among its ancestors extends it.
  have hext {c : Entity} (hc : c ∈ s.entities) :
      (c.tag == e.tag || (s.chain c).tail.any (·.tag == e.tag)) = true ↔
        Relation.ReflTransGen s.Extends c e := by
    rw [Relation.reflTransGen_iff_eq_or_transGen, ← mem_descendants hs hnumbered he, descendants,
      List.mem_filter, and_iff_right hc, Bool.or_eq_true, beq_iff_eq]
    exact or_congr_left ⟨fun h => (hnumbered.eq_of_tag hc he h).symm, fun h => h ▸ rfl⟩
  simp only [isATags, List.mem_map, List.mem_filter, Prod.exists, Bool.and_eq_true, hplace,
    concrete]
  constructor
  · rintro ⟨c, _, ⟨⟨hc, rfl⟩, hconcrete, h⟩, rfl⟩
    exact ⟨c, ⟨hc, hconcrete⟩, rfl, (hext hc).1 h⟩
  · rintro ⟨c, ⟨hc, hconcrete⟩, rfl, h⟩
    exact ⟨c, c.tag, ⟨⟨hc, rfl⟩, hconcrete, (hext hc).2 h⟩, rfl⟩

omit hs hnumbered

theorem ascending_isATags : (s.isATags e).Pairwise (· < ·) := by
  have hplaces : (s.entities.zipIdx.map (·.2)).Pairwise (· < ·) := by
    rw [List.zipIdx_map_snd]
    exact List.pairwise_lt_range'
  exact hplaces.sublist (List.filter_sublist.map _)

/-- The members of an entity, each with who declares it, are those of its chain. -/
theorem owned_members : (s.ownedDerivedFirst e).map (·.2) = s.membersDerivedFirst e ∧
    (s.ownedBaseFirst e).map (·.2) = s.membersBaseFirst e := by
  constructor <;>
    simp [ownedDerivedFirst, ownedBaseFirst, membersDerivedFirst, membersBaseFirst,
      List.map_flatMap, Function.comp_def]

/-- The chain, the descendants, the tags and the members of `a` are views of one
    order. -/
structure Ancestry (s : RawSchema) (a : Entity) : Prop where
  /-- The chain starts with `a` and goes on with the chain of its base. -/
  chain : s.chain a = a :: (s.base? a).elim [] s.chain
  /-- It ends with an entity without a base. -/
  ends : ∀ top ∈ (s.chain a).getLast?, top.base = none
  descending : (s.chain a).Pairwise fun x y => y.tag < x.tag
  /-- The descendants are the other entities with `a` in their chain. -/
  descendants : ∀ b ∈ s.entities, b ∈ s.descendants a ↔ a ∈ s.chain b ∧ a ≠ b
  /-- They come in order of declaration, each once. -/
  declared : (s.descendants a).Sublist s.entities
  ascending : ((s.descendants a).map (·.tag)).Pairwise (· < ·)
  /-- Objects of `a` are those of the concrete entities with `a` in their chain. -/
  isA : ∀ tag, s.isA tag a = true ↔
    ∃ c, s.entityAt? tag = some c ∧ c.kind.isConcrete = true ∧ a ∈ s.chain c
  /-- Their tags ascend, so that one can be searched for by halving. -/
  isATags : (s.isATags a).Pairwise (· < ·)
  /-- The members are those of the chain put together, in its order or in the
      reverse. -/
  derivedFirst : s.membersDerivedFirst a = (s.chain a).flatMap (·.members) ∧
    (s.ownedDerivedFirst a).map (·.2) = s.membersDerivedFirst a
  baseFirst : s.membersBaseFirst a = (s.chain a).reverse.flatMap (·.members) ∧
    (s.ownedBaseFirst a).map (·.2) = s.membersBaseFirst a

end RawSchema

namespace Declarations

variable {d : Declarations} {naming : Naming} {s : Schema}

/-- Declaring a schema finds all bases declared. -/
theorem hasEntity_of_toSchema (h : d.toSchema naming = .ok s) :
    ∀ e ∈ s.entities, ∀ b, e.base = some b → s.hasEntity b := by
  obtain ⟨-, -, hbases, -, rfl⟩ := toSchema_eq_ok.1 h
  intro x hx b hb
  obtain ⟨pre, e, post, hsplit, rfl⟩ := exists_of_mem_assemble hx
  have hpre := checkBases_nil.1 hbases pre e post hsplit b hb
  rw [hasEntity_assemble, hsplit, List.map_append]
  exact List.mem_append_left _ hpre

/-- In a schema that is made from declarations, the views agree at every entity. -/
theorem ancestry_of_toSchema (h : d.toSchema naming = .ok s) {a : Entity} (ha : a ∈ s.entities) :
    s.Ancestry a := by
  have hs := basesFirst_of_toSchema h
  have hnumbered := numbered_of_toSchema h
  refine {
    chain := RawSchema.chain_eq hs hnumbered ha
    ends := fun _ => RawSchema.base_of_getLast? hs hnumbered ha s.indexed
      (hasEntity_of_toSchema h)
    descending := RawSchema.chain_descending hs hnumbered ha
    descendants := fun b hb => ?_
    declared := List.filter_sublist
    ascending := hnumbered.ascending List.filter_sublist
    isA := fun tag => ?_
    isATags := RawSchema.ascending_isATags
    derivedFirst := ⟨rfl, RawSchema.owned_members.1⟩
    baseFirst := ⟨rfl, RawSchema.owned_members.2⟩ }
  · -- Tags go down towards the root, so an entity is not derived from itself.
    rw [RawSchema.mem_descendants hs hnumbered ha, RawSchema.mem_chain hs hnumbered hb,
      Relation.reflTransGen_iff_eq_or_transGen]
    constructor
    · intro hba
      refine ⟨.inr hba, ?_⟩
      rintro rfl
      exact Nat.lt_irrefl _ (RawSchema.tag_lt_of_transGen hs hba)
    · rintro ⟨hba, hne⟩
      exact hba.resolve_left hne
  · rw [RawSchema.isA, List.contains_iff_mem, RawSchema.mem_isATags hs hnumbered ha]
    simp only [hnumbered.entityAt?_eq_some, RawSchema.concrete, List.mem_filter]
    constructor
    · rintro ⟨c, ⟨hc, hconcrete⟩, htag, hca⟩
      exact ⟨c, ⟨hc, htag⟩, hconcrete, (RawSchema.mem_chain hs hnumbered hc).2 hca⟩
    · rintro ⟨c, ⟨hc, htag⟩, hconcrete, hca⟩
      exact ⟨c, ⟨hc, hconcrete⟩, htag, (RawSchema.mem_chain hs hnumbered hc).1 hca⟩

/-- Shapes on a sheet: circles are ellipses, which are shapes. Groups take in
    what is round, and what may be drawn. -/
def figures : Declarations where
  name := "figures"
  entities := [
    { name := "shape", isAbstract := true, members := [.plain "name" (.scalar .string)] },
    { name := "note", members := [.plain "text" (.scalar .string)] },
    { name := "ellipse", base := some "shape", members := [.plain "axes" (.scalar .int32)] },
    { name := "sheet", members := [.plain "content" (.union "drawn" .many)] },
    { name := "circle", base := some "ellipse",
      members := [.plain "center" (.object "note" .one)] }]
  groups := [
    ⟨"drawn", [.group "round", .entity "note"]⟩,
    ⟨"round", [.family "ellipse", .entity "shape"]⟩]

theorem toSchema_figures : figures.toSchema .hardware = .ok figures.assemble := by decide +kernel

/-- A circle is a shape, and a shape has circles below it. -/
theorem ancestry_of_toSchema_figures : ∃ s a b, figures.toSchema .hardware = .ok s ∧
    s.entity? "shape" = some a ∧ s.entity? "circle" = some b ∧ s.Ancestry a ∧
      b ∈ s.descendants a := by
  have ha : figures.assemble.entity? "shape" = some figures.assemble.entities[0] := by
    decide +kernel
  have hb : figures.assemble.entity? "circle" = some figures.assemble.entities[4] := by
    decide +kernel
  have hancestry := ancestry_of_toSchema toSchema_figures (RawSchema.mem_of_entity? ha)
  refine ⟨_, _, _, toSchema_figures, ha, hb, hancestry, ?_⟩
  exact (hancestry.descendants _ (RawSchema.mem_of_entity? hb)).2 (by decide +kernel)

end Declarations

end ObjectModel
