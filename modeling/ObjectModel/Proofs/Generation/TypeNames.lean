import ObjectModel.Proofs.Generation.Building
import ObjectModel.Proofs.Generation.Functions
import ObjectModel.Proofs.Generation.Targets
import ObjectModel.Proofs.Graph.Design
import ObjectModel.Proofs.Naming.Canonical

/-!
# Names of generated types

Whatever is generated for an entity is called by its name in capitals or by its stem.
A generator does not see to it that these differ. All is defined once, and members
are checked by the predicate of what they refer to (`Blueprint.NamesOnce`), just if
stems are different and nothing else takes the names that are made of them
(`Blueprint.Clear`, `Blueprint.namesOnce_iff`). Names that are spelt in the usual way
have different stems, so there only some names are to be avoided
(`Blueprint.Unreserved`).
-/

namespace ObjectModel.Generation.Blueprint

open Spelling

variable {b : Blueprint}

/-- What is generated for entities and groups is defined once, and the predicate that
    is called for a member accepts just what the member may refer to. -/
structure NamesOnce (b : Blueprint) : Prop where
  /-- The types of objects and their tags are declared by these names. -/
  classes : (b.schema.entities.map b.className).Nodup
  stems : (b.schema.entities.map b.typeStem).Nodup
  groupStems : (b.schema.groups.map fun g => groupStem g.name).Nodup
  fields : (Store.fieldNames b).Nodup
  makers : ∀ e ∈ b.concrete, (Store.functionNames b).count ("make_" ++ b.typeStem e) = 1
  cloners : ∀ e ∈ b.concrete, (Clone.functionNames b).count ("clone_" ++ b.typeStem e) = 1
  visitors : ∀ e ∈ b.concrete, (Listener.functionNames b).count (b.visitor e) = 1
  handleVisitors : ∀ e ∈ b.concrete, (HandleListener.functionNames b).count (b.visitor e) = 1
  predicates : ∀ e ∈ b.schema.entities,
    (TypeTable.functionNames b).count ("is_" ++ b.typeStem e) = 1
  groupPredicates : ∀ g ∈ b.schema.groups,
    (Groups.functionNames b).count ("is_" ++ groupStem g.name) = 1
  /-- The right objects are let through. -/
  targets : ∀ e ∈ b.schema.entities, ∀ m ∈ b.references e, ∃ path tags,
    b.targetPredicate? m = some path ∧ b.resolution.targetTags m = .ok tags ∧
      ∀ tag, b.Accepts path tag ↔ tag ∈ tags

/-- Stems that lead to names in the fixed text of some file. -/
def reservedStems : List String := ["any", "collection", "last_id", "list", "ref", "single"]

/-- No stem leads to a name that is used otherwise. -/
structure Unreserved (b : Blueprint) : Prop where
  fixed : ∀ e ∈ b.concrete, b.typeStem e ∉ reservedStems
  /-- No function that looks up objects is called like one that makes some. -/
  makers : ∀ e ∈ b.concrete, ∀ d ∈ b.concrete,
    "make_" ++ b.typeStem e ≠ b.typeStem d ∧ "make_" ++ b.typeStem e ≠ b.typeStem d ++ "_mut"

/-- The names of entities and groups keep what is generated for them apart. -/
structure Clear (b : Blueprint) : Prop where
  stems : (b.schema.entities.map b.typeStem).Nodup
  groupStems : (b.schema.groups.map fun g => groupStem g.name).Nodup
  /-- No stem is the escaped one of another entity. -/
  escaped : ∀ e ∈ b.concrete, ∀ d ∈ b.concrete,
    b.storeField e = b.typeStem d → b.typeStem e = b.typeStem d
  unreserved : b.Unreserved

theorem nodup_concrete (hstems : (b.schema.entities.map b.typeStem).Nodup) :
    (b.concrete.map b.typeStem).Nodup := hstems.sublist (List.filter_sublist.map _)

/-- Different stems are made of different names in capitals. -/
theorem nodup_classes (hstems : (b.schema.entities.map b.typeStem).Nodup) :
    (b.schema.entities.map b.className).Nodup := by
  refine .of_map snake ?_
  rwa [List.map_map]

/-- Names are defined once just if they are clear of each other. -/
theorem namesOnce_iff_clear (hcontents : b.schema.checkContents = .ok ())
    (hresolution : Resolution.ofSchema b.schema = .ok b.resolution) : b.NamesOnce ↔ b.Clear := by
  constructor
  · intro h
    have hstems := nodup_concrete h.stems
    obtain ⟨hescaped, hlast⟩ := (Store.nodup_fieldNames_iff hstems).1 h.fields
    have hcloners := (Clone.count_cloners_iff hstems).1 h.cloners
    have hvisitors := (HandleListener.count_visitors_iff hstems).1 h.handleVisitors
    refine ⟨h.stems, h.groupStems, hescaped, fun e he => ?_,
      (Store.count_makers_iff hstems).1 h.makers⟩
    -- Each reserved stem is kept out of the store, of the cloner or of one of the walks.
    have hcloner := hcloners e he
    have hvisitor := hvisitors e he
    simp only [List.mem_cons, List.not_mem_nil, or_false, not_or] at hcloner hvisitor
    obtain ⟨hany, href, hlist⟩ := hcloner
    obtain ⟨hsingle, hcollection⟩ := hvisitor
    simp only [reservedStems, List.mem_cons, List.not_mem_nil, or_false, not_or]
    exact ⟨hany, hcollection, hlast e he, hlist, href, hsingle⟩
  · intro h
    have hstems := nodup_concrete h.stems
    have hfixed {names : List String} (hnames : names ⊆ reservedStems) :
        ∀ e ∈ b.concrete, b.typeStem e ∉ names := fun e he hmem =>
      h.unreserved.fixed e he (hnames hmem)
    exact {
      classes := nodup_classes h.stems
      stems := h.stems
      groupStems := h.groupStems
      fields := (Store.nodup_fieldNames_iff hstems).2
        ⟨h.escaped, fun e he hlast => hfixed (by decide) e he (List.mem_singleton.2 hlast)⟩
      makers := (Store.count_makers_iff hstems).2 h.unreserved.makers
      cloners := (Clone.count_cloners_iff hstems).2 (hfixed (by decide))
      visitors := (Listener.count_visitors_iff hstems).2 (hfixed (by decide))
      handleVisitors := (HandleListener.count_visitors_iff hstems).2 (hfixed (by decide))
      predicates := TypeTable.count_predicates h.stems
      groupPredicates := Groups.count_predicates h.groupStems
      targets := fun e he m hm =>
        accepts_iff_of_reference hcontents hresolution h.stems h.groupStems he hm }

/-! ## Canonical names -/

/-- Canonical stems are not escaped to each other. -/
theorem clear_iff_of_canonical (hcanonical : ∀ e ∈ b.schema.entities, Canonical (b.typeStem e)) :
    b.Clear ↔ (b.schema.entities.map b.typeStem).Nodup ∧
      (b.schema.groups.map fun g => groupStem g.name).Nodup ∧ b.Unreserved := by
  refine ⟨fun h => ⟨h.stems, h.groupStems, h.unreserved⟩, fun ⟨hstems, hgroups, h⟩ => ?_⟩
  exact ⟨hstems, hgroups, fun e _ d hd heq =>
    (hcanonical d (List.mem_of_mem_filter hd)).eq_of_escape heq, h⟩

/-- Canonical names of groups are kept. -/
theorem nodup_groupStems (hgroups : (b.schema.groups.map (·.name)).Nodup)
    (hcanonical : ∀ x ∈ b.schema.groups, Canonical x.name) :
    (b.schema.groups.map fun g => groupStem g.name).Nodup := by
  have hstems : (b.schema.groups.map fun g => groupStem g.name) = b.schema.groups.map (·.name) :=
    List.map_congr_left fun x hx => (hcanonical x hx).snake_pascal
  rwa [hstems]

section

variable (hnames : (b.schema.entities.map (·.name)).Nodup)
  (hgroups : (b.schema.groups.map (·.name)).Nodup)
  (hentities : ∀ e ∈ b.schema.entities, Canonical e.name)
  (hcanonical : ∀ x ∈ b.schema.groups, Canonical x.name)

include hnames hgroups hentities hcanonical

/-- Where nothing is irregular, stems are names. -/
theorem clear_regular (hnaming : b.naming = .regular) : b.Clear ↔ b.Unreserved := by
  have hstem (e : Entity) (he : e ∈ b.schema.entities) : b.typeStem e = e.name := by
    rw [typeStem, hnaming, Naming.typeStem_regular (hentities e he)]
  have hstems : (b.schema.entities.map b.typeStem).Nodup := by
    rwa [List.map_congr_left hstem]
  rw [clear_iff_of_canonical fun e he => hstem e he ▸ hentities e he]
  exact ⟨fun h => h.2.2, fun h => ⟨hstems, nodup_groupStems hgroups hcanonical, h⟩⟩

/-- With the irregular names of hardware, a name that loses a word must not be declared
    together with what is left of it. -/
theorem clear_hardware (hnaming : b.naming = .hardware) : b.Clear ↔
    (∀ p ∈ Naming.shortened, ¬ (b.schema.hasEntity p.1 ∧ b.schema.hasEntity p.2)) ∧
      b.Unreserved := by
  have hstem (e : Entity) : b.typeStem e = Naming.hardware.typeStem e.name := by
    rw [typeStem, hnaming]
  have hstems : (b.schema.entities.map b.typeStem).Nodup ↔
      ∀ p ∈ Naming.shortened, ¬ (b.schema.hasEntity p.1 ∧ b.schema.hasEntity p.2) := by
    rw [List.map_congr_left fun e _ => hstem e]
    exact Schema.nodup_derived_iff hnames (by decide) fun e he d hd =>
      Naming.typeStem_hardware_inj (hentities e he) (hentities d hd)
  rw [clear_iff_of_canonical fun e he =>
    hstem e ▸ Naming.canonical_typeStem_hardware (hentities e he), hstems]
  exact and_congr_right fun _ => and_iff_right (nodup_groupStems hgroups hcanonical)

end

/-- In the code that a generator makes, under whatever naming, what is generated for
    entities and groups is defined once and members are checked by the right
    predicates just if their names are clear. If names are spelt in the usual way,
    this comes down to a few names that an entity must not have, and under the naming
    of hardware to five pairs of names that must not be declared together. -/
theorem namesOnce_iff {s : Schema} {naming : Naming} {policy : PolicyTable}
    {only : Option (List Emitter)} {g : Generator}
    (hbuild : Generator.build s naming policy only = .ok g) :
    (g.blueprint.NamesOnce ↔ g.blueprint.Clear) ∧
    ∀ (d : Declarations) (n : Naming), d.toSchema n = .ok s →
      (∀ e ∈ s.entities, Canonical e.name) → (∀ x ∈ s.groups, Canonical x.name) →
      (naming = .regular → (g.blueprint.NamesOnce ↔ g.blueprint.Unreserved)) ∧
      (naming = .hardware → (g.blueprint.NamesOnce ↔
        (∀ p ∈ Naming.shortened, ¬ (s.hasEntity p.1 ∧ s.hasEntity p.2)) ∧
          g.blueprint.Unreserved)) := by
  obtain ⟨hcheck, -, hresolution, hnaming, -⟩ := Generator.build_eq_ok hbuild
  obtain rfl := Generator.schema_of_build hbuild
  have hclear := namesOnce_iff_clear (RawSchema.check_eq_ok.1 hcheck).1 hresolution
  refine ⟨hclear, fun d n hs hentities hcanonical => ?_⟩
  have hnames := Declarations.nodup_of_toSchema hs
  have hgroups := Declarations.nodup_groups_of_toSchema hs
  rw [hclear]
  subst hnaming
  exact ⟨clear_regular hnames hgroups hentities hcanonical,
    clear_hardware hnames hgroups hentities hcanonical⟩

/-- Wires and cells. -/
theorem namesOnce_iff_design : ∃ g,
    Generator.build Design.schema .hardware .empty none = .ok g ∧ g.blueprint.NamesOnce := by
  obtain ⟨g, hbuild, hg⟩ : ∃ g, Generator.build Design.schema .hardware .empty none = .ok g ∧
      g.blueprint = ⟨⟨Design.schema, ∅⟩, .hardware, .empty⟩ :=
    Generator.build_of_resolve (by decide +kernel)
  have hwords : ∀ e ∈ Design.schema.entities, IsWord e.name.toList := by decide +kernel
  have hhardware := ((namesOnce_iff hbuild).2 Design.declarations .hardware
    Design.toSchema_declarations (fun e he => .last (hwords e he)) (List.forall_mem_nil _)).2 rfl
  refine ⟨g, hbuild, hhardware.2 ⟨by decide +kernel, ?_⟩⟩
  rw [hg]
  exact ⟨by decide +kernel, by decide +kernel⟩

/-- Nets that are told apart by an underscore only. -/
def nets : Declarations where
  name := "nets"
  entities := [{ name := "net2" }, { name := "net_2" }]

/-- Two entities may be called the same in generated code. -/
theorem not_namesOnce : nets.toSchema .hardware = .ok nets.assemble ∧
    ∃ g, Generator.build nets.assemble .hardware .empty none = .ok g ∧
      nets.assemble.entities.map g.blueprint.className = ["Net2", "Net2"] ∧
      nets.assemble.entities.map g.blueprint.typeStem = ["net2", "net2"] ∧
      ¬ g.blueprint.NamesOnce := by
  obtain ⟨g, hbuild, hg⟩ : ∃ g, Generator.build nets.assemble .hardware .empty none = .ok g ∧
      g.blueprint = ⟨⟨nets.assemble, ∅⟩, .hardware, .empty⟩ :=
    Generator.build_of_resolve (by decide +kernel)
  refine ⟨by decide +kernel, g, hbuild, ?_⟩
  rw [hg]
  exact ⟨by decide +kernel, by decide +kernel, fun h => absurd h.classes (by decide +kernel)⟩

end ObjectModel.Generation.Blueprint
