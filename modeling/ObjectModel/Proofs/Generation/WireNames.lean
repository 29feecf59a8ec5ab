import ObjectModel.Proofs.Generation.Building
import ObjectModel.Proofs.Generation.WireFile
import ObjectModel.Proofs.Graph.Design
import ObjectModel.Proofs.Naming.Canonical

/-!
# Names in the wire schema

The fields of each struct of the wire schema are numbered without gaps
(`WireSchema.ordinals_structs`). As for names, the members that an entity adds have
different ones, but nothing keeps them from being called like the field for the base, nor
the struct of an entity from being called like that of another one or like one that all
schemas have. All is declared once just if this is not so (`WireSchema.Clear`,
`WireSchema.declaredOnce_iff`).
-/

namespace ObjectModel.Generation.WireSchema

open Code Spelling

section

variable (b : Blueprint)

/-- No struct has two fields of one name, and no two structs have one name. -/
structure DeclaredOnce : Prop where
  fields : ∀ s ∈ structs b, (s.fields.map (·.name)).Nodup
  structs : ((structs b).map (·.name)).Nodup

/-- The names of entities and members keep what is declared for them apart. -/
structure Clear : Prop where
  /-- No member is called like the field that an entity starts with. -/
  base : ∀ e ∈ b.schema.entities, ∀ m ∈ e.members, fieldName b m ≠ "base"
  classes : (b.schema.entities.map b.className).Nodup
  /-- No entity is called like a struct of all schemas. -/
  fixed : ∀ e ∈ b.schema.entities, b.className e ∉ fixedStructs.map (·.name)

end

variable {b : Blueprint} {e : Entity} {n : Nat} {fields : List (String × String)}

/-! ## Numbers -/

theorem ordinals_numberFrom :
    (numberFrom n fields).map (·.ordinal) = List.range' n fields.length := by
  rw [numberFrom, List.map_map]
  exact List.zipIdx_map_snd n fields

theorem length_numberFrom : (numberFrom n fields).length = fields.length := by
  rw [numberFrom, List.length_map, List.length_zipIdx]

theorem names_numberFrom : (numberFrom n fields).map (·.name) = fields.map Prod.fst := by
  rw [numberFrom, List.map_map, ← List.zipIdx_map_fst n fields, List.map_map,
    List.zipIdx_map_fst]
  rfl

theorem ordinals_ofFields {name : String} : (Struct.ofFields name fields).fields.map (·.ordinal) =
    List.range (Struct.ofFields name fields).fields.length := by
  rw [Struct.ofFields, ordinals_numberFrom, length_numberFrom, List.range_eq_range']

/-- The lists of objects go on where the fixed fields stop. -/
theorem ordinals_root : (root b).fields.map (·.ordinal) = List.range (root b).fields.length := by
  have hfactories : (factories b).map (·.ordinal) =
      List.range' (0 + rootStruct.fields.length) (factories b).length := by
    rw [Nat.zero_add, factories, ordinals_numberFrom, length_numberFrom]
  have hfixed : rootStruct.fields.map (·.ordinal) = List.range' 0 rootStruct.fields.length := rfl
  rw [root, List.map_append, hfixed, hfactories, List.range'_append_1, List.length_append,
    List.range_eq_range']

/-- The fields of each struct are numbered from zero, without gaps. -/
theorem ordinals_structs :
    ∀ s ∈ structs b, s.fields.map (·.ordinal) = List.range s.fields.length := by
  simp only [structs, List.forall_mem_append, List.forall_mem_cons, List.forall_mem_map,
    List.not_mem_nil, false_imp_iff, implies_true, and_true]
  exact ⟨⟨⟨ordinals_ofFields, ordinals_ofFields⟩, fun _ _ => ordinals_ofFields⟩, ordinals_root⟩

/-! ## Names -/

/-- The struct of an entity has a field for the base,
    and one for each member that the entity adds. -/
theorem fieldNames_entityStruct :
    (entityStruct b e).fields.map (·.name) = "base" :: e.members.map (fieldName b) := by
  rw [entityStruct, Struct.ofFields, names_numberFrom, List.map_cons, List.map_map]
  rfl

/-- The root has three fields of its own, and a list for each entity with objects. -/
theorem fieldNames_root : (root b).fields.map (·.name) =
    ["version", "symbols", "roots"] ++ b.concrete.map (factoryName b) := by
  rw [root, List.map_append, factories, names_numberFrom, List.map_map]
  rfl

/-- The members that an entity adds have different fields. -/
theorem nodup_own (hnames : b.schema.checkNames b.naming = .ok ()) (he : e ∈ b.schema.entities) :
    (e.members.map (fieldName b)).Nodup := by
  have hall := RawSchema.checkNames_eq_ok.1 hnames e he _ List.mem_cons_self
  -- They come first among all members.
  obtain ⟨k, hk⟩ := Nat.exists_eq_add_of_lt (List.length_pos_of_mem he)
  rw [RawSchema.membersDerivedFirst, RawSchema.chain, hk, RawSchema.chainUpTo, List.flatMap_cons,
    List.map_append] at hall
  exact (List.nodup_append.1 hall).1

/-- The fields of a struct differ just if no member
    is called like the field for the base. -/
theorem nodup_entityStruct_iff (hnames : b.schema.checkNames b.naming = .ok ())
    (he : e ∈ b.schema.entities) :
    ((entityStruct b e).fields.map (·.name)).Nodup ↔ ∀ m ∈ e.members, fieldName b m ≠ "base" := by
  rw [fieldNames_entityStruct, List.nodup_cons, and_iff_left (nodup_own hnames he), List.mem_map]
  simp only [not_exists, not_and]

/-- No list of objects is called like a fixed field of the root. -/
theorem nodup_root_iff :
    ((root b).fields.map (·.name)).Nodup ↔ (b.concrete.map b.className).Nodup := by
  have hfactory : b.concrete.map (factoryName b) =
      (b.concrete.map b.className).map ("factory" ++ ·) := by
    rw [List.map_map]
    rfl
  have hinj : Function.Injective ("factory" ++ · : String → String) :=
    fun _ _ h => (String.append_right_inj _).1 h
  -- The lists all start with `f`, which no fixed field does.
  have hfixed : ∀ name ∈ ["version", "symbols", "roots"], ∀ list ∈ b.concrete.map (factoryName b),
      name ≠ list := by
    intro name hname list hlist heq
    obtain ⟨d, -, rfl⟩ := List.mem_map.1 hlist
    have hfirst := congrArg (·.toList.head?) heq
    have hplain : ∀ name ∈ ["version", "symbols", "roots"], name.toList.head? ≠ some 'f' := by
      decide
    rw [factoryName, String.toList_append] at hfirst
    exact hplain name hname hfirst
  rw [fieldNames_root, List.nodup_append, hfactory, List.nodup_map_iff hinj, ← hfactory]
  exact ⟨fun h => h.2.1, fun h => ⟨by decide, h, hfixed⟩⟩

/-- The structs of entities are called differently, and not like one of the others. -/
theorem nodup_structs_iff : ((structs b).map (·.name)).Nodup ↔
    (b.schema.entities.map b.className).Nodup ∧
      ∀ e ∈ b.schema.entities, b.className e ∉ fixedStructs.map (·.name) := by
  have hperm : ((structs b).map (·.name)).Perm
      (fixedStructs.map (·.name) ++ b.schema.entities.map b.className) := by
    rw [structs, List.append_assoc, List.map_append, List.map_append, List.map_map]
    exact .append_left ["ObjIndexType", "ObjHeader"] List.perm_append_comm
  have hfixed : (fixedStructs.map (·.name)).Nodup := by decide
  rw [hperm.nodup_iff, List.nodup_append, and_iff_right hfixed]
  refine and_congr_right fun _ => ⟨fun h e he hmem => ?_, fun h name hname taken htaken heq => ?_⟩
  · exact h _ hmem _ (List.mem_map_of_mem he) rfl
  · obtain ⟨e, he, rfl⟩ := List.mem_map.1 htaken
    exact h e he (heq ▸ hname)

/-- All is declared once just if names are clear of each other. -/
theorem declaredOnce_iff_clear (hnames : b.schema.checkNames b.naming = .ok ()) :
    DeclaredOnce b ↔ Clear b := by
  have hstructs : (∀ s ∈ structs b, (s.fields.map (·.name)).Nodup) ↔
      (∀ e ∈ b.schema.entities, ((entityStruct b e).fields.map (·.name)).Nodup) ∧
        ((root b).fields.map (·.name)).Nodup := by
    have hreference : (referenceStruct.fields.map (·.name)).Nodup := by decide
    have hheader : (headerStruct.fields.map (·.name)).Nodup := by decide
    simp only [structs, List.forall_mem_append, List.forall_mem_cons, List.forall_mem_map,
      List.not_mem_nil, false_imp_iff, implies_true, and_true, hreference, hheader, true_and]
  have hentities : (∀ e ∈ b.schema.entities, ((entityStruct b e).fields.map (·.name)).Nodup) ↔
      ∀ e ∈ b.schema.entities, ∀ m ∈ e.members, fieldName b m ≠ "base" :=
    forall₂_congr fun e he => nodup_entityStruct_iff hnames he
  constructor
  · intro h
    obtain ⟨hclasses, hfixed⟩ := nodup_structs_iff.1 h.structs
    exact ⟨hentities.1 (hstructs.1 h.fields).1, hclasses, hfixed⟩
  · intro h
    have hconcrete : (b.concrete.map b.className).Nodup :=
      h.classes.sublist (List.filter_sublist.map _)
    exact ⟨hstructs.2 ⟨hentities.2 h.base, nodup_root_iff.2 hconcrete⟩,
      nodup_structs_iff.2 ⟨h.classes, h.fixed⟩⟩

/-! ## Canonical names -/

/-- The entities that would be called like the structs of all schemas. -/
def reserved : List String := ["obj_index_type", "obj_header", "hdm_root"]

theorem canonical_of_mem_reserved : ∀ name ∈ reserved, Canonical name := by decide +kernel

/-- Three canonical names lead to structs that all schemas have. -/
theorem className_mem_fixed {raw : String} (h : Canonical raw) :
    Naming.hardware.className raw ∈ fixedStructs.map (·.name) ↔ raw ∈ reserved := by
  have hfixed : fixedStructs.map (·.name) = reserved.map Naming.hardware.className := by
    decide +kernel
  have hshortened : ∀ p ∈ Naming.shortened, p.1 ∉ reserved ∧ p.2 ∉ reserved := by decide
  rw [hfixed, List.mem_map]
  refine ⟨fun ⟨name, hname, hclass⟩ => ?_, fun hraw => ⟨raw, hraw, rfl⟩⟩
  rcases (Naming.className_hardware_inj (canonical_of_mem_reserved name hname) h).1 hclass
    with rfl | hp | hp
  · exact hname
  · exact absurd hname (hshortened _ hp).1
  · exact absurd hname (hshortened _ hp).2

/-- With the irregular names of hardware, few names are to be avoided. -/
theorem clear_hardware (hnaming : b.naming = .hardware)
    (hnames : (b.schema.entities.map (·.name)).Nodup)
    (hentities : ∀ e ∈ b.schema.entities, Canonical e.name)
    (hmembers : ∀ e ∈ b.schema.entities, ∀ m ∈ e.members, Canonical m.name) :
    Clear b ↔ (∀ e ∈ b.schema.entities, ∀ m ∈ e.members, m.name = "base" → m.isMany = true) ∧
      (∀ p ∈ Naming.shortened, ¬ (b.schema.hasEntity p.1 ∧ b.schema.hasEntity p.2)) ∧
      ∀ e ∈ b.schema.entities, e.name ∉ reserved := by
  have hbase : (∀ e ∈ b.schema.entities, ∀ m ∈ e.members, fieldName b m ≠ "base") ↔
      ∀ e ∈ b.schema.entities, ∀ m ∈ e.members, m.name = "base" → m.isMany = true := by
    refine forall₂_congr fun e he => forall₂_congr fun m hm => ?_
    rw [fieldName, hnaming, Ne, Naming.memberName_hardware_base (hmembers e he m hm), not_and,
      Member.isMany]
    cases m.cardinality <;> simp
  have hclasses : (b.schema.entities.map b.className).Nodup ↔
      ∀ p ∈ Naming.shortened, ¬ (b.schema.hasEntity p.1 ∧ b.schema.hasEntity p.2) := by
    have hclass (e : Entity) : b.className e = Naming.hardware.className e.name := by
      rw [Blueprint.className, hnaming]
    rw [List.map_congr_left fun e _ => hclass e]
    exact Schema.nodup_derived_iff hnames (by decide) fun e he d hd =>
      Naming.className_hardware_inj (hentities e he) (hentities d hd)
  have hfixed : (∀ e ∈ b.schema.entities, b.className e ∉ fixedStructs.map (·.name)) ↔
      ∀ e ∈ b.schema.entities, e.name ∉ reserved := by
    refine forall₂_congr fun e he => ?_
    rw [Blueprint.className, hnaming, className_mem_fixed (hentities e he)]
  rw [← hbase, ← hclasses, ← hfixed]
  exact ⟨fun h => ⟨h.base, h.classes, h.fixed⟩, fun h => ⟨h.1, h.2.1, h.2.2⟩⟩

/-- In the wire schema that a generator makes, under whatever naming, the fields of each
    struct are numbered from zero without gaps. All is declared once just if the names
    are clear: an entity has no two fields of one name if no member that it adds is called
    like the field for its base, and the root has none if concrete entities are called
    differently. If names are spelt in the usual way, this comes under the naming of
    hardware down to a few names. The file has these structs and no others, as long as no bracket
    comes in with a name. -/
theorem declaredOnce_iff {s : Schema} {naming : Naming} {policy : PolicyTable}
    {only : Option (List Emitter)} {g : Generator}
    (hbuild : Generator.build s naming policy only = .ok g) :
    (∀ x ∈ structs g.blueprint, x.fields.map (·.ordinal) = List.range x.fields.length) ∧
    (DeclaredOnce g.blueprint ↔ Clear g.blueprint) ∧
    (∀ e ∈ s.entities, ((entityStruct g.blueprint e).fields.map (·.name)).Nodup ↔
      ∀ m ∈ e.members, fieldName g.blueprint m ≠ "base") ∧
    (((root g.blueprint).fields.map (·.name)).Nodup ↔
      (s.concrete.map g.blueprint.className).Nodup) ∧
    (∀ (d : Declarations) (n : Naming), d.toSchema n = .ok s → naming = .hardware →
      (∀ e ∈ s.entities, Canonical e.name ∧ ∀ m ∈ e.members, Canonical m.name) →
      (DeclaredOnce g.blueprint ↔
        (∀ e ∈ s.entities, ∀ m ∈ e.members, m.name = "base" → m.isMany = true) ∧
        (∀ p ∈ Naming.shortened, ¬ (s.hasEntity p.1 ∧ s.hasEntity p.2)) ∧
        ∀ e ∈ s.entities, e.name ∉ reserved)) ∧
    ('<' ∉ (textBy 2 (document g.blueprint)).toList →
      wireSchema g.blueprint = .ok (textBy 2 (document g.blueprint))) := by
  obtain ⟨hcheck, -, -, hnaming, -⟩ := Generator.build_eq_ok hbuild
  obtain rfl := Generator.schema_of_build hbuild
  subst hnaming
  have hnames := (RawSchema.check_eq_ok.1 hcheck).2.2.2
  have hclear := declaredOnce_iff_clear hnames
  refine ⟨ordinals_structs, hclear, fun e he => nodup_entityStruct_iff hnames he, nodup_root_iff,
    fun d n hs hnaming hcanonical => ?_, wireSchema_eq⟩
  rw [hclear]
  exact clear_hardware hnaming (Declarations.nodup_of_toSchema hs)
    (fun e he => (hcanonical e he).1) fun e he => (hcanonical e he).2

/-- Wires and cells. -/
theorem declaredOnce_iff_design : ∃ g,
    Generator.build Design.schema .hardware .empty none = .ok g ∧ DeclaredOnce g.blueprint ∧
      (structs g.blueprint).map (·.name) =
        ["ObjIndexType", "ObjHeader", "Wire", "Cell", "HdmRoot"] ∧
      wireSchema g.blueprint = .ok (textBy 2 (document g.blueprint)) := by
  obtain ⟨g, hbuild, hg⟩ : ∃ g, Generator.build Design.schema .hardware .empty none = .ok g ∧
      g.blueprint = ⟨⟨Design.schema, ∅⟩, .hardware, .empty⟩ :=
    Generator.build_of_resolve (by decide +kernel)
  have hwords : ∀ e ∈ Design.schema.entities,
      IsWord e.name.toList ∧ ∀ m ∈ e.members, IsWord m.name.toList := by decide +kernel
  obtain ⟨-, -, -, -, hcanonical, htext⟩ := declaredOnce_iff hbuild
  refine ⟨g, hbuild, (hcanonical Design.declarations .hardware Design.toSchema_declarations rfl
    fun e he => ⟨.last (hwords e he).1, fun m hm => .last ((hwords e he).2 m hm)⟩).2
      ⟨by decide +kernel, by decide +kernel, by decide +kernel⟩, ?_, htext ?_⟩
  · rw [hg]
    decide +kernel
  · rw [hg]
    exact not_mem_textBy (by decide +kernel)

/-- An entity that is called like the base record and adds a member that is called like
    the field for it, and two entities that are told apart by an underscore only. -/
def clashing : Declarations where
  name := "clashing"
  entities := [
    { name := "obj_header", members := [.plain "base" (.scalar .string)] },
    { name := "net2" },
    { name := "net_2" }]

/-- Fields, lists of objects and structs may be declared twice. -/
theorem not_declaredOnce : clashing.toSchema .hardware = .ok clashing.assemble ∧
    ∃ g, Generator.build clashing.assemble .hardware .empty none = .ok g ∧
      (structs g.blueprint).map (fun x => (x.name, x.fields.map (·.name))) = [
        ("ObjIndexType", ["index", "type"]),
        ("ObjHeader", ["id", "parent", "file", "startLine", "endLine", "startColumn", "endColumn"]),
        ("ObjHeader", ["base", "base"]),
        ("Net2", ["base"]),
        ("Net2", ["base"]),
        ("HdmRoot", ["version", "symbols", "roots", "factoryObjHeader", "factoryNet2",
          "factoryNet2"])] ∧
      ¬ DeclaredOnce g.blueprint := by
  obtain ⟨g, hbuild, hg⟩ : ∃ g, Generator.build clashing.assemble .hardware .empty none = .ok g ∧
      g.blueprint = ⟨⟨clashing.assemble, ∅⟩, .hardware, .empty⟩ :=
    Generator.build_of_resolve (by decide +kernel)
  refine ⟨by decide +kernel, g, hbuild, ?_⟩
  rw [hg]
  exact ⟨by decide +kernel, fun h => absurd h.structs (by decide +kernel)⟩

end ObjectModel.Generation.WireSchema
