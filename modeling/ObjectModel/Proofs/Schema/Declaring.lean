import Mathlib.Data.List.Nodup
import ObjectModel.Naming.Hardware
import ObjectModel.Proofs.Schema.Cycles

/-!
# Sound declarations

Declarations make a schema just if they are sound (`Declarations.Sound`), which
is said here of the declarations alone: of their names, of their order and of
what they refer to. The members that an entity comes to have are those of its
lineage (`Declarations.Lineage`), which the schema has as its chain
(`Declarations.members_of_lineage`). Each pass of the check has a lemma that
tells what it accepts.

* `Declarations.toSchema_eq_ok_iff`: the declarations that make a schema;
* `Declarations.IsDeclared`: what a declaration makes, at its position;
* `Declarations.toSchema_iff_sound`: both.
-/

namespace ObjectModel

namespace RawSchema

variable {s : RawSchema} {naming : Naming} {earlier l : List Member}

/-- The first passes of the check are all accepted. -/
theorem check_eq_ok : s.check naming = .ok () ↔ s.checkContents = .ok () ∧
    s.checkGroupRefs = .ok () ∧ s.checkGroupCycles = .ok () ∧ s.checkNames naming = .ok () := by
  simp only [check, check_bind_eq_ok]

theorem checkContents_eq_ok :
    s.checkContents = .ok () ↔ ∀ e ∈ s.entities, ∀ m ∈ e.members, s.resolves m := by
  refine forM_eq_ok.trans (forall₂_congr fun e _ => forM_eq_ok.trans (forall₂_congr fun m _ => ?_))
  by_cases hm : s.resolves m <;>
    simp [hm]

/-- Members do not collide if each of their derived names is given once, and to
    none of the earlier. -/
theorem collision?_eq_none : collision? naming earlier l = none ↔
    ∀ derive ∈ derivedNames naming,
      (l.map derive).Nodup ∧ ∀ m ∈ l, ∀ x ∈ earlier, derive x ≠ derive m := by
  induction l generalizing earlier with
  | nil => simp [collision?]
  | cons m l ih =>
    have hfirst : ((derivedNames naming).findSome? fun derive =>
        (earlier.find? (derive · == derive m)).map (·, m, derive m)) = none ↔
        ∀ derive ∈ derivedNames naming, ∀ x ∈ earlier, derive x ≠ derive m := by
      simp [List.findSome?_eq_none_iff]
    rw [collision?, Option.orElse_eq_none, hfirst, ih, ← forall₂_and]
    refine forall₂_congr fun derive _ => ?_
    rw [List.map_cons, List.nodup_cons, List.forall_mem_cons]
    simp only [List.mem_map, not_exists, not_and, List.forall_mem_append, List.forall_mem_singleton]
    constructor
    · rintro ⟨hm, hl, hnew⟩
      exact ⟨⟨fun x hx => ((hnew x hx).2).symm, hl⟩, hm, fun x hx => (hnew x hx).1⟩
    · rintro ⟨⟨hdistinct, hl⟩, hm, hnew⟩
      exact ⟨hm, hl, fun x hx => ⟨hnew x hx, Ne.symm (hdistinct x hx)⟩⟩

/-- Names are accepted if whatever is derived from those of one entity differs. -/
theorem checkNames_eq_ok : s.checkNames naming = .ok () ↔
    ∀ e ∈ s.entities, ∀ derive ∈ derivedNames naming,
      ((s.membersDerivedFirst e).map derive).Nodup := by
  refine forM_eq_ok.trans (forall₂_congr fun e _ => ?_)
  have hnone : collision? naming [] (s.membersDerivedFirst e) = none ↔
      ∀ derive ∈ derivedNames naming, ((s.membersDerivedFirst e).map derive).Nodup := by
    simp [collision?_eq_none]
  rw [← hnone]
  cases collision? naming [] (s.membersDerivedFirst e) <;>
    simp

end RawSchema

namespace Declarations

variable {d : Declarations} {naming : Naming} {s : Schema} {e b : EntityDecl} {l : List EntityDecl}
  {pre post : List EntityDecl}

/-! ## What is declared -/

/-- The group `a` is declared to take in the group `b`. -/
def TakesIn (d : Declarations) (a b : String) : Prop :=
  ∃ g ∈ d.groups, g.name = a ∧ GroupRef.group b ∈ g.refs

/-- What a member refers to is declared. -/
def DeclaresContent (d : Declarations) : Content → Prop
  | .scalar _ => True
  | .object name _ => name ∈ d.entities.map (·.name)
  | .union name _ => name ∈ d.groups.map (·.name)

/-- What a group refers to is declared. -/
def DeclaresRef (d : Declarations) : GroupRef → Prop
  | .entity name | .family name => name ∈ d.entities.map (·.name)
  | .group name => name ∈ d.groups.map (·.name)

/-- The declaration of an entity, followed by those of all that it extends, the
    root last. -/
inductive Lineage (d : Declarations) : EntityDecl → List EntityDecl → Prop
  | root {e : EntityDecl} : e.base = none → d.Lineage e [e]
  | derived {e b : EntityDecl} {l : List EntityDecl} :
    b ∈ d.entities → e.base = some b.name → d.Lineage b l → d.Lineage e (e :: l)

/-- The declarations are sound: names are different, bases are declared before
    what extends them, what is referred to is declared, no group takes itself
    in, and the members of an entity, inherited ones included, get different
    names. -/
structure Sound (d : Declarations) (naming : Naming) : Prop where
  entityNames : (d.entities.map (·.name)).Nodup
  groupNames : (d.groups.map (·.name)).Nodup
  memberNames : ∀ e ∈ d.entities, (e.members.map (·.name)).Nodup
  bases : ∀ pre e post, d.entities = pre ++ e :: post → ∀ base, e.base = some base →
    base ∈ pre.map (·.name)
  contents : ∀ e ∈ d.entities, ∀ m ∈ e.members, d.DeclaresContent m.content
  refs : ∀ g ∈ d.groups, ∀ r ∈ g.refs, d.DeclaresRef r
  acyclic : ¬ ∃ g, Relation.TransGen d.TakesIn g g
  derivedNames : ∀ e ∈ d.entities, ∃ l, d.Lineage e l ∧
    ((l.flatMap (·.members)).map fun m => naming.memberName m.name m.cardinality).Nodup ∧
    ((l.flatMap (·.members)).map fun m => naming.accessorName m.name m.cardinality).Nodup ∧
    ((l.flatMap (·.members)).map fun m => naming.fieldStem m.name m.cardinality).Nodup

/-- `x` is what the declaration `e` makes at the position `i`. -/
structure IsDeclared (d : Declarations) (e : EntityDecl) (i : Nat) (x : Entity) : Prop where
  name : x.name = e.name
  base : x.base = e.base
  members : x.members = e.members
  tag : x.tag = i
  /-- The subclasses are those that name it as their base, in order. -/
  subclasses : x.subclasses = (d.entities.filter (·.base = some e.name)).map (·.name)
  leaf : x.kind = .leaf ↔ x.subclasses = []
  abstract : x.kind = .abstract ↔ x.subclasses ≠ [] ∧ e.isAbstract

/-! ## What is looked up in the schema -/

theorem hasEntity_assemble {name : String} :
    d.assemble.hasEntity name ↔ name ∈ d.entities.map (·.name) := by
  rw [← names_assemble]
  exact d.assemble.indexed.hasEntity_iff

theorem hasGroup_assemble {name : String} :
    d.assemble.hasGroup name ↔ name ∈ d.groups.map (·.name) :=
  d.assemble.indexed.hasGroup_iff

/-- The schema resolves what declared members refer to. -/
theorem resolves_assemble {m : Member} :
    d.assemble.resolves m ↔ d.DeclaresContent m.content := by
  rw [RawSchema.resolves]
  cases m.content with
  | scalar => exact iff_of_true rfl trivial
  | object => exact hasEntity_assemble
  | union => exact hasGroup_assemble

theorem declares_assemble {r : GroupRef} : d.assemble.declares r ↔ d.DeclaresRef r := by
  cases r with
  | entity | family => exact hasEntity_assemble
  | group => exact hasGroup_assemble

/-- Where groups have different names, each is the one found by its name. -/
theorem takesIn_assemble (hgroups : (d.groups.map (·.name)).Nodup) :
    d.assemble.TakesIn = d.TakesIn := by
  funext a c
  exact propext (d.assemble.indexed.takesIn_iff hgroups)

/-- Each declaration makes an entity, at its position. -/
theorem mem_assemble (hsplit : d.entities = pre ++ e :: post) :
    d.entity e pre.length ∈ d.assemble.entities := by
  rw [assemble, List.mem_map]
  refine ⟨(e, pre.length), ?_, rfl⟩
  rw [List.mem_zipIdx_iff_getElem?, hsplit]
  simp

/-- All entities are made by declarations. -/
theorem exists_of_mem_assemble {x : Entity} (hx : x ∈ d.assemble.entities) :
    ∃ pre e post, d.entities = pre ++ e :: post ∧ x = d.entity e pre.length := by
  obtain ⟨⟨e, i⟩, he, rfl⟩ := List.mem_map.1 hx
  obtain ⟨hlt, he⟩ := List.getElem?_eq_some_iff.1 (List.mem_zipIdx_iff_getElem?.1 he)
  refine ⟨d.entities.take i, e, d.entities.drop (i + 1), ?_, ?_⟩
  · rw [← show d.entities[i] = e from he, ← List.drop_eq_getElem_cons hlt, List.take_append_drop]
  · rw [List.length_take_of_le hlt.le]

/-! ## Lineages are chains -/

section

variable (hnames : (d.entities.map (·.name)).Nodup)
  (hbases : ∀ pre e post, d.entities = pre ++ e :: post → ∀ base, e.base = some base →
    base ∈ pre.map (·.name))

include hnames hbases

/-- A base is at a place before what extends it. -/
theorem exists_before (hb : b ∈ d.entities) (hbase : e.base = some b.name)
    (hsplit : d.entities = pre ++ e :: post) :
    ∃ pre' post', d.entities = pre' ++ b :: post' ∧ pre'.length < pre.length := by
  obtain ⟨b', hb', hname⟩ := List.mem_map.1 (hbases pre e post hsplit b.name hbase)
  have hmem : b' ∈ d.entities := hsplit ▸ List.mem_append_left _ hb'
  obtain rfl := List.inj_on_of_nodup_map hnames hmem hb hname
  obtain ⟨pre', rest, rfl⟩ := List.append_of_mem hb'
  refine ⟨pre', rest ++ e :: post, ?_, ?_⟩
  · rw [hsplit, List.append_assoc, List.cons_append]
  · simp

/-- The chain of an entity has the members that are declared along its lineage. -/
theorem members_of_lineage (hl : d.Lineage e l) {n : Nat} (hsplit : d.entities = pre ++ e :: post)
    (hn : pre.length < n) :
    (d.assemble.chainUpTo n (d.entity e pre.length)).flatMap (·.members) =
      l.flatMap (·.members) := by
  induction hl generalizing pre post n with
  | @root e hbase =>
    obtain ⟨n, rfl⟩ := Nat.exists_eq_succ_of_ne_zero (Nat.ne_zero_of_lt hn)
    have hroot : d.assemble.base? (d.entity e pre.length) = none := by
      rw [RawSchema.base?, entity, hbase, Option.bind_none]
    rw [RawSchema.chainUpTo, hroot]
    rfl
  | @derived e b l hb hbase _ ih =>
    -- The base is at an earlier position, so a step less is enough for it.
    obtain ⟨n, rfl⟩ := Nat.exists_eq_succ_of_ne_zero (Nat.ne_zero_of_lt hn)
    obtain ⟨pre', post', hsplit', hlt⟩ := exists_before hnames hbases hb hbase hsplit
    have hfound : d.assemble.base? (d.entity e pre.length) = some (d.entity b pre'.length) := by
      rw [RawSchema.base?, entity, hbase, Option.bind_some]
      exact d.assemble.indexed.entity?_name (names_assemble ▸ hnames) (mem_assemble hsplit')
    rw [RawSchema.chainUpTo, hfound, List.flatMap_cons, List.flatMap_cons, ih hsplit' (by omega)]
    rfl

/-- The members of an entity are those of its lineage, its own first. -/
theorem membersDerivedFirst_of_lineage (hl : d.Lineage e l)
    (hsplit : d.entities = pre ++ e :: post) :
    d.assemble.membersDerivedFirst (d.entity e pre.length) = l.flatMap (·.members) := by
  refine members_of_lineage hnames hbases hl hsplit ?_
  simp [assemble, hsplit]

omit hnames in
/-- Every entity that is declared has a lineage. -/
theorem exists_lineage (hsplit : d.entities = pre ++ e :: post) : ∃ l, d.Lineage e l := by
  -- By induction on the position: the base has one that is less.
  induction hlength : pre.length using Nat.strong_induction_on generalizing e pre post with
  | _ n ih =>
    rcases hbase : e.base with _ | base
    · exact ⟨[e], .root hbase⟩
    · obtain ⟨b, hb, rfl⟩ := List.mem_map.1 (hbases pre e post hsplit base hbase)
      have hmem : b ∈ d.entities := hsplit ▸ List.mem_append_left _ hb
      obtain ⟨pre', rest, rfl⟩ := List.append_of_mem hb
      obtain ⟨l, hl⟩ := ih pre'.length (by simp [← hlength])
        (hsplit.trans (List.append_assoc pre' (b :: rest) _)) rfl
      exact ⟨e :: l, .derived hmem hbase hl⟩

/-- The names derived for a schema are different just if those derived along
    lineages are. -/
theorem checkNames_assemble : d.assemble.checkNames naming = .ok () ↔
    ∀ e ∈ d.entities, ∃ l, d.Lineage e l ∧ ∀ derive ∈ RawSchema.derivedNames naming,
      ((l.flatMap (·.members)).map derive).Nodup := by
  rw [RawSchema.checkNames_eq_ok]
  constructor
  · intro h e he
    obtain ⟨pre, post, hsplit⟩ := List.append_of_mem he
    obtain ⟨l, hl⟩ := exists_lineage hbases hsplit
    refine ⟨l, hl, fun derive hderive => ?_⟩
    rw [← membersDerivedFirst_of_lineage hnames hbases hl hsplit]
    exact h _ (mem_assemble hsplit) derive hderive
  · intro h x hx derive hderive
    obtain ⟨pre, e, post, hsplit, rfl⟩ := exists_of_mem_assemble hx
    obtain ⟨l, hl, hnodup⟩ := h e (hsplit ▸ List.mem_append_right _ List.mem_cons_self)
    rw [membersDerivedFirst_of_lineage hnames hbases hl hsplit]
    exact hnodup derive hderive

end

/-! ## What makes a schema -/

theorem checkGroupNames_eq_ok :
    d.checkGroupNames = .ok () ↔ (d.groups.map (·.name)).Nodup := by
  rw [← firstRepeat?_nil_eq_none, checkGroupNames]
  cases firstRepeat? [] (d.groups.map (·.name)) <;>
    simp

/-- Declaring a schema gives its groups different names. -/
theorem nodup_groups_of_toSchema {s : Schema} (h : d.toSchema naming = .ok s) :
    (s.groups.map (·.name)).Nodup := by
  obtain ⟨-, hgroups, -, -, rfl⟩ := toSchema_eq_ok.1 h
  exact checkGroupNames_eq_ok.1 hgroups

/-- Contents are accepted if all that members refer to is declared. -/
theorem checkContents_assemble : d.assemble.checkContents = .ok () ↔
    ∀ e ∈ d.entities, ∀ m ∈ e.members, d.DeclaresContent m.content := by
  rw [RawSchema.checkContents_eq_ok]
  constructor
  · intro h e he m hm
    obtain ⟨pre, post, hsplit⟩ := List.append_of_mem he
    exact resolves_assemble.1 (h _ (mem_assemble hsplit) m hm)
  · intro h x hx m hm
    obtain ⟨pre, e, post, hsplit, rfl⟩ := exists_of_mem_assemble hx
    exact resolves_assemble.2 (h e (hsplit ▸ List.mem_append_right _ List.mem_cons_self) m hm)

theorem checkGroupRefs_assemble : d.assemble.checkGroupRefs = .ok () ↔
    ∀ g ∈ d.groups, ∀ r ∈ g.refs, d.DeclaresRef r :=
  RawSchema.checkGroupRefs_eq_ok.trans
    (forall₂_congr fun _ _ => forall₂_congr fun _ _ => declares_assemble)

theorem checkEntityNames_nil : checkEntityNames [] d.entities = .ok () ↔
    (d.entities.map (·.name)).Nodup ∧ ∀ e ∈ d.entities, (e.members.map (·.name)).Nodup := by
  rw [checkEntityNames_eq_ok]
  simp

/-- Bases are accepted if they are declared before what extends them. -/
theorem checkBases_nil : d.checkBases [] d.entities = .ok () ↔
    ∀ pre e post, d.entities = pre ++ e :: post → ∀ base, e.base = some base →
      base ∈ pre.map (·.name) := by
  rw [checkBases_eq_ok]
  simp

/-- Where groups refer to what is declared, the check of cycles succeeds just if none of
    the declared groups takes itself in. -/
theorem checkGroupCycles_assemble (hgroups : (d.groups.map (·.name)).Nodup)
    (hrefs : ∀ g ∈ d.groups, ∀ r ∈ g.refs, d.DeclaresRef r) :
    d.assemble.checkGroupCycles = .ok () ↔ ¬ ∃ g, Relation.TransGen d.TakesIn g g := by
  rw [← takesIn_assemble hgroups]
  exact RawSchema.checkGroupCycles_eq_ok (d.assemble.indexed.refsResolve fun g hg r hr =>
    declares_assemble.2 (hrefs g hg r hr))

/-- Declarations make a schema just if they are sound. -/
theorem toSchema_eq_ok_iff : (∃ s, d.toSchema naming = .ok s) ↔ d.Sound naming := by
  simp only [toSchema_eq_ok, exists_and_left, exists_eq', and_true]
  rw [checkEntityNames_nil, checkGroupNames_eq_ok, checkBases_nil]
  constructor
  · rintro ⟨⟨hentities, hmembers⟩, hgroups, hbases, hcheck⟩
    -- The checks run over the assembled schema, and
    -- each comes down to one over the declarations.
    obtain ⟨hcontents, hrefs, hcycles, hnames⟩ := RawSchema.check_eq_ok.1 hcheck
    exact {
      entityNames := hentities
      groupNames := hgroups
      memberNames := hmembers
      bases := hbases
      contents := checkContents_assemble.1 hcontents
      refs := checkGroupRefs_assemble.1 hrefs
      acyclic := (checkGroupCycles_assemble hgroups (checkGroupRefs_assemble.1 hrefs)).1 hcycles
      derivedNames := by
        simpa [RawSchema.derivedNames] using (checkNames_assemble hentities hbases).1 hnames }
  · intro h
    refine ⟨⟨h.entityNames, h.memberNames⟩, h.groupNames, h.bases,
      RawSchema.check_eq_ok.2 ⟨?_, ?_, ?_, ?_⟩⟩
    · exact checkContents_assemble.2 h.contents
    · exact checkGroupRefs_assemble.2 h.refs
    · exact (checkGroupCycles_assemble h.groupNames h.refs).2 h.acyclic
    · refine (checkNames_assemble h.entityNames h.bases).2 ?_
      simpa [RawSchema.derivedNames] using h.derivedNames

/-- What is made of a declaration is as declared. -/
theorem isDeclared_entity {i : Nat} : d.IsDeclared e i (d.entity e i) where
  name := rfl
  base := rfl
  members := rfl
  tag := rfl
  subclasses := by
    change (d.entities.filter (·.base == some e.name)).map (·.name) = _
    simp only [beq_eq_decide]
  leaf := by
    rw [entity]
    rcases d.subclasses e.name with _ | ⟨c, r⟩ <;> cases e.isAbstract <;> simp
  abstract := by
    rw [entity]
    rcases d.subclasses e.name with _ | ⟨c, r⟩ <;> cases e.isAbstract <;> simp

/-- Declarations make a schema just if they are sound. The schema that they make
    has their groups, and their entities in order: each is tagged with its
    position, its subclasses are those that name it as their base, and it is a
    leaf just if there are none. -/
theorem toSchema_iff_sound (d : Declarations) (naming : Naming) :
    ((∃ s, d.toSchema naming = .ok s) ↔ d.Sound naming) ∧
    ∀ s, d.toSchema naming = .ok s → s.name = d.name ∧ s.groups = d.groups ∧
      s.entities.length = d.entities.length ∧
      ∀ i e, d.entities[i]? = some e → ∃ x, s.entities[i]? = some x ∧ d.IsDeclared e i x := by
  refine ⟨toSchema_eq_ok_iff, fun s h => ?_⟩
  obtain ⟨-, -, -, -, rfl⟩ := toSchema_eq_ok.1 h
  refine ⟨rfl, rfl, ?_, fun i e he => ⟨d.entity e i, ?_, isDeclared_entity⟩⟩
  · rw [assemble, List.length_map, List.length_zipIdx]
  · rw [assemble, List.getElem?_map, List.getElem?_zipIdx, he]
    simp

/-- What is drawn on a sheet: circles are shapes. -/
def circle : EntityDecl where
  name := "circle"
  base := some "shape"
  members := [.plain "radius" (.scalar .int32)]

/-- The declarations of shapes, with two groups. -/
def shapes : Declarations where
  name := "shapes"
  entities := [
    { name := "shape", isAbstract := true, members := [.plain "name" (.scalar .string)] },
    circle,
    { name := "sheet", members := [.plain "content" (.union "drawn" .many)] }]
  groups := [⟨"drawn", [.group "solid", .entity "sheet"]⟩, ⟨"solid", [.family "shape"]⟩]

theorem toSchema_iff_sound_shapes : shapes.Sound .hardware ∧
    ∃ x, shapes.assemble.entities[1]? = some x ∧ shapes.IsDeclared circle 1 x := by
  have hmade : shapes.toSchema .hardware = .ok shapes.assemble := by decide +kernel
  obtain ⟨hsound, hshape⟩ := toSchema_iff_sound shapes .hardware
  obtain ⟨-, -, -, hentities⟩ := hshape _ hmade
  exact ⟨hsound.1 ⟨_, hmade⟩, hentities 1 circle rfl⟩

end Declarations

end ObjectModel
