import ObjectModel.Proofs.Generation.Building
import ObjectModel.Proofs.Graph.Design
import ObjectModel.Proofs.Naming.Composed
import ObjectModel.Proofs.Schema.Ancestry

/-!
# Names in generated structs

The struct of an entity has a field for its header and one for each member, and
functions to get at them. What the functions on members are called is composed from
the stems of the members, which are different. Nothing keeps a composed name from
being that of another member, or of the header: fields and functions are defined once
just if members are clear of each other and of the header
(`Objects.Clear`, `Objects.nodup_names_iff`).
-/

namespace ObjectModel.Generation.Objects

open Spelling

variable {b : Blueprint} {e : Entity} {m k : Member}

/-- The members of an entity are clear of each other and of the header: no name that is
    composed from the stem of one is taken. -/
structure Clear (b : Blueprint) (e : Entity) : Prop where
  /-- No member is called like a function that does not belong to a member. -/
  fixed : ∀ m ∈ b.members e, b.stem m ≠ "header" ∧ b.stem m ≠ "header_mut" ∧
    (b.stem m = "type_tag" → b.schema.declaresType e = true)
  /-- No member is called like the field of another one, which has to be escaped. -/
  escaped : ∀ m ∈ b.members e, ∀ k ∈ b.members e, b.field m = b.stem k → b.stem m = b.stem k
  /-- No member is called like the function that sets another one. -/
  setters : ∀ m ∈ b.members e, ∀ k ∈ b.members e, "set_" ++ b.stem m ≠ b.stem k
  /-- No member is called like the function that gives access to a list. -/
  lists : ∀ m ∈ b.members e, m.isMany = true → ∀ k ∈ b.members e, b.stem m ++ "_mut" ≠ b.stem k
  /-- No function sets one member and gives access to another. -/
  both : ∀ m ∈ b.members e, m.isMany = true → ∀ k ∈ b.members e,
    b.stem m ++ "_mut" ≠ "set_" ++ b.stem k

/-! ## Names of functions -/

/-- The names of the functions that do not belong to a member. -/
def fixedNames (b : Blueprint) (e : Entity) : List String :=
  (headerMethods ++ typeMethods b e).map (·.name)

/-- The lists among the members of an entity. -/
def lists (b : Blueprint) (e : Entity) : List Member := (b.members e).filter (·.isMany)

/-- The functions that all structs have are for the
    header, and for the type where it is no member. -/
theorem mem_fixedNames {name : String} : name ∈ fixedNames b e ↔ name = "header" ∨
    name = "header_mut" ∨ name = "type_tag" ∧ b.schema.declaresType e = false := by
  rw [fixedNames, List.map_append, List.mem_append, headerMethods, typeMethods]
  cases b.schema.declaresType e <;> simp [or_assoc]

theorem nodup_fixedNames : (fixedNames b e).Nodup := by
  rw [fixedNames, headerMethods, typeMethods]
  cases b.schema.declaresType e <;> decide

/-- A member has a getter and a setter, and a list one more function. -/
theorem map_name_memberMethods : (memberMethods b m).map (·.name) =
    b.field m :: ("set_" ++ b.stem m) :: if m.isMany then [b.stem m ++ "_mut"] else [] := by
  rw [memberMethods]
  split
  · rename_i kind hkind
    have hmany : m.isMany = false := by
      rw [Member.isMany, Member.cardinality]
      rw [Member.scalarKind?] at hkind
      cases hcontent : m.content with
      | scalar => rfl
      | _ => rw [hcontent] at hkind; cases hkind
    rw [scalarMethods, hmany]
    split <;> simp [getter, setter]
  · split <;> simp [listMethods, singleMethods, getter, setter]

theorem flatMap_lists {f : Member → String} :
    ((b.members e).flatMap fun m => if m.isMany then [f m] else []) = (lists b e).map f := by
  rw [lists]
  induction b.members e with
  | nil => rfl
  | cons m l ih =>
    rw [List.flatMap_cons, ih, List.filter_cons]
    cases m.isMany <;> rfl

/-- The functions by what they do. -/
theorem map_name_methods_perm : ((methods b e).map (·.name)).Perm (fixedNames b e ++
    ((b.members e).map b.field ++ ((b.members e).map (fun m => "set_" ++ b.stem m) ++
      (lists b e).map fun m => b.stem m ++ "_mut"))) := by
  rw [methods, List.map_append, List.map_flatMap, funext fun m => map_name_memberMethods,
    ← flatMap_lists]
  refine .append_left _ (.trans (List.map_append_flatMap_perm _ _ _).symm (.append_left _ ?_))
  exact (List.map_append_flatMap_perm _ _ _).symm

/-! ## Which names are different -/

theorem field_eq_fixed {name : String} (hname : name ∈ ["header", "header_mut", "type_tag"]) :
    b.field m = name ↔ b.stem m = name :=
  have hplain : ∀ name ∈ ["header", "header_mut", "type_tag"], ∀ k ∈ keywords,
      k ≠ name ∧ escape k ≠ name := by decide +kernel
  escape_eq_iff_of_plain (hplain name hname)

theorem field_eq_setter : b.field m = "set_" ++ b.stem k ↔ b.stem m = "set_" ++ b.stem k :=
  escape_eq_prefixed (by decide +kernel)

theorem field_eq_access : b.field m = b.stem k ++ "_mut" ↔ b.stem m = b.stem k ++ "_mut" :=
  escape_eq_suffixed

theorem fixed_ne_setter {name : String} (hname : name ∈ fixedNames b e) (stem : String) :
    name ≠ "set_" ++ stem := by
  intro h
  have hfirst := congrArg (·.toList.head?) h
  rcases mem_fixedNames.1 hname with rfl | rfl | ⟨rfl, -⟩ <;>
    simp [String.toList_append] at hfirst

theorem fixed_ne_access {name : String} (hname : name ∈ fixedNames b e) {stem : String}
    (hstem : stem ≠ "header") : name ≠ stem ++ "_mut" := by
  intro h
  have hlast := congrArg (·.toList.getLast?) h
  rcases mem_fixedNames.1 hname with rfl | rfl | ⟨rfl, -⟩
  · simp [String.toList_append] at hlast
  · have hheader : "header" ++ "_mut" = "header_mut" := by decide
    exact hstem ((String.append_left_inj "_mut").1 (hheader.trans h)).symm
  · simp [String.toList_append] at hlast

section

variable (hstems : ((b.members e).map b.stem).Nodup)

include hstems

theorem nodup_field_iff : ((b.members e).map b.field).Nodup ↔
    ∀ m ∈ b.members e, ∀ k ∈ b.members e, b.field m = b.stem k → b.stem m = b.stem k :=
  nodup_map_escape_iff hstems

theorem nodup_setters : ((b.members e).map fun m => "set_" ++ b.stem m).Nodup :=
  .map_on (fun _ hm _ hk h => List.inj_on_of_nodup_map hstems hm hk
    ((String.append_right_inj _).1 h)) (.of_map _ hstems)

theorem nodup_accesses : ((lists b e).map fun m => b.stem m ++ "_mut").Nodup :=
  .map_on (fun _ hm _ hk h => List.inj_on_of_nodup_map hstems (List.mem_of_mem_filter hm)
    (List.mem_of_mem_filter hk) ((String.append_left_inj _).1 h))
    ((List.Nodup.of_map _ hstems).filter _)

/-- The functions on the struct of an entity are defined once just if its members are
    clear. -/
theorem nodup_methods_iff : ((methods b e).map (·.name)).Nodup ↔ Clear b e := by
  -- Within each sort of method the names differ in any
  -- case, so what is left is one sort against another.
  rw [map_name_methods_perm.nodup_iff]
  simp only [List.nodup_append, List.mem_append, or_imp, forall_and, List.forall_mem_map,
    nodup_field_iff hstems, nodup_fixedNames, nodup_setters hstems, nodup_accesses hstems, true_and]
  constructor
  · rintro ⟨⟨hescaped, hboth, hsetters, hlists⟩, hfixed, -, -⟩
    refine ⟨fun m hm => ⟨?_, ?_, ?_⟩, hescaped, ?_, ?_, ?_⟩
    · exact fun h => hfixed _ (mem_fixedNames.2 (.inl rfl)) m hm
        ((field_eq_fixed (by decide)).2 h).symm
    · exact fun h => hfixed _ (mem_fixedNames.2 (.inr (.inl rfl))) m hm
        ((field_eq_fixed (by decide)).2 h).symm
    · intro h
      by_contra hdeclares
      exact hfixed _ (mem_fixedNames.2 (.inr (.inr ⟨rfl, by simpa using hdeclares⟩))) m hm
        ((field_eq_fixed (by decide)).2 h).symm
    · exact fun m hm k hk h => hsetters k hk m hm (field_eq_setter.2 h.symm)
    · exact fun m hm hmany k hk h =>
        hlists k hk m (List.mem_filter.2 ⟨hm, hmany⟩) (field_eq_access.2 h.symm)
    · exact fun m hm hmany k hk h => hboth k hk m (List.mem_filter.2 ⟨hm, hmany⟩) h.symm
  · intro h
    refine ⟨⟨h.escaped, fun k hk m hm heq => ?_, fun k hk m hm heq => ?_, fun k hk m hm heq => ?_⟩,
      fun name hname m hm heq => ?_, fun name hname m _ => fixed_ne_setter hname _,
      fun name hname m hm => fixed_ne_access hname (h.fixed m (List.mem_of_mem_filter hm)).1⟩
    · obtain ⟨hm, hmany⟩ := List.mem_filter.1 hm
      exact h.both m hm hmany k hk heq.symm
    · exact h.setters m hm k hk (field_eq_setter.1 heq).symm
    · obtain ⟨hm, hmany⟩ := List.mem_filter.1 hm
      exact h.lists m hm hmany k hk (field_eq_access.1 heq).symm
    · obtain ⟨hheader, hmut, htag⟩ := h.fixed m hm
      rcases mem_fixedNames.1 hname with rfl | rfl | ⟨rfl, hdeclares⟩
      · exact hheader ((field_eq_fixed (by decide)).1 heq.symm)
      · exact hmut ((field_eq_fixed (by decide)).1 heq.symm)
      · rw [htag ((field_eq_fixed (by decide)).1 heq.symm)] at hdeclares
        cases hdeclares

/-- The fields of the struct of an entity are defined once just if no member is
    called like the header or like the escaped field of another one. -/
theorem nodup_fields_iff : ((fields b e).map (·.name)).Nodup ↔
    (∀ m ∈ b.members e, b.stem m ≠ "header") ∧
      ∀ m ∈ b.members e, ∀ k ∈ b.members e, b.field m = b.stem k → b.stem m = b.stem k := by
  have hfields : (fields b e).map (·.name) = "header" :: (b.members e).map b.field := by
    rw [fields, List.map_cons, List.map_map, Blueprint.members, ← RawSchema.owned_members.2,
      List.map_map]
    simp only [headerField, memberField, Function.comp_def]
  rw [hfields, List.nodup_cons, nodup_field_iff hstems]
  refine and_congr_left fun _ => ?_
  simp only [List.mem_map, not_exists, not_and]
  exact forall₂_congr fun m _ => not_congr (field_eq_fixed (by decide))

end

/-- In the code that a generator makes for a concrete entity, under whatever naming,
    all fields of the struct and all functions on it are defined once just if the
    members of the entity are clear of each other and of the header. -/
theorem nodup_names_iff {s : Schema} {naming : Naming} {policy : PolicyTable}
    {only : Option (List Emitter)} {g : Generator}
    (hbuild : Generator.build s naming policy only = .ok g) (he : e ∈ s.concrete) :
    (((fields g.blueprint e).map (·.name)).Nodup ∧
      ((methods g.blueprint e).map (·.name)).Nodup ↔ Clear g.blueprint e) ∧
    (((fields g.blueprint e).map (·.name)).Nodup ↔
      (∀ m ∈ g.blueprint.members e, g.blueprint.stem m ≠ "header") ∧
        ∀ m ∈ g.blueprint.members e, ∀ k ∈ g.blueprint.members e,
          g.blueprint.field m = g.blueprint.stem k → g.blueprint.stem m = g.blueprint.stem k) := by
  obtain ⟨hcheck, -, -, hnaming, -⟩ := Generator.build_eq_ok hbuild
  obtain rfl := Generator.schema_of_build hbuild
  subst hnaming
  have hstems := Blueprint.nodup_stems (RawSchema.check_eq_ok.1 hcheck).2.2.2
    (List.mem_of_mem_filter he)
  have hfields := nodup_fields_iff hstems
  refine ⟨?_, hfields⟩
  rw [nodup_methods_iff hstems, hfields]
  exact and_iff_right_of_imp fun h => ⟨fun m hm => (h.fixed m hm).1, h.escaped⟩

/-- The struct of cells. -/
theorem nodup_names_iff_cells : ∃ g, Generator.build Design.schema .hardware .empty none = .ok g ∧
    ∃ e ∈ Design.schema.concrete, e.name = "cell" ∧ ((fields g.blueprint e).map (·.name)).Nodup ∧
      ((methods g.blueprint e).map (·.name)).Nodup := by
  obtain ⟨g, hbuild, hg⟩ : ∃ g, Generator.build Design.schema .hardware .empty none = .ok g ∧
      g.blueprint = ⟨⟨Design.schema, ∅⟩, .hardware, .empty⟩ :=
    Generator.build_of_resolve (by decide +kernel)
  let e : Entity := Design.declarations.entity Design.declarations.entities[1] 1
  have he : e ∈ Design.schema.concrete := by decide +kernel
  have hclear : Clear g.blueprint e := by
    rw [hg]
    exact ⟨by decide +kernel, by decide +kernel, by decide +kernel, by decide +kernel,
      by decide +kernel⟩
  exact ⟨g, hbuild, e, he, rfl, (nodup_names_iff hbuild he).1.2 hclear⟩

/-- Packets, which have a header of their own. -/
def packets : Declarations where
  name := "packets"
  entities := [{ name := "packet", members := [.plain "header" (.scalar .string)] }]

/-- A member may be called like the header: field and function are defined twice. -/
theorem names_not_nodup : packets.toSchema .hardware = .ok packets.assemble ∧
    ∃ g, Generator.build packets.assemble .hardware .empty none = .ok g ∧
      ∃ e ∈ packets.assemble.concrete,
        (fields g.blueprint e).map (·.name) = ["header", "header"] ∧
        (methods g.blueprint e).map (·.name) =
          ["header", "header_mut", "type_tag", "header", "set_header"] := by
  obtain ⟨g, hbuild, hg⟩ : ∃ g, Generator.build packets.assemble .hardware .empty none = .ok g ∧
      g.blueprint = ⟨⟨packets.assemble, ∅⟩, .hardware, .empty⟩ :=
    Generator.build_of_resolve (by decide +kernel)
  refine ⟨by decide +kernel, g, hbuild, packets.entity packets.entities[0] 0, by decide +kernel, ?_⟩
  rw [hg]
  exact ⟨by decide +kernel, by decide +kernel⟩

end ObjectModel.Generation.Objects
