import Mathlib.Data.List.Nodup
import ObjectModel.Naming.Hardware
import ObjectModel.Proofs.Graph.Typing
import ObjectModel.Proofs.Schema.Declaring

/-!
# Names of members

The names that are derived for the members of an entity are different in a
schema that is made from declarations. They are derived from the name of a
member and from whether it is a list, so two members of one entity may still be
called the same if one of them is a list and the other is not, and one of them
is inherited. Looked up by name, the member that is declared nearer to the
entity is found, in a layout as in the schema; the other is in no slot that its
name leads to.

* `RawSchema.nodup_spellings`: members of one entity differ in their names or in
  their cardinalities;
* `Layout.find?_slotOf?`, `RawSchema.find?_reverse_membersBaseFirst`: what a name
  leads to;
* `Declarations.memberNames_nodup_iff`: when the names alone are different.
-/

namespace ObjectModel

/-! ## Looking up by name -/

/-- To look for the last element is to look for the first one backwards. -/
theorem lastIndex?_bind {α : Type} {p : α → Bool} {l : List α} :
    ((lastIndex? p l).bind fun i => l[i]?) = l.reverse.find? p := by
  induction l with
  | nil => rfl
  | cons a l ih =>
    rw [lastIndex?, List.reverse_cons, List.find?_append, ← ih]
    rcases hl : lastIndex? p l with _ | i
    · cases hp : p a <;> simp [hp]
    · obtain ⟨b, hb, -⟩ := lastIndex?_eq_some hl
      simp [hb]

/-- A name leads to the last slot that has it. -/
theorem Layout.find?_slotOf? {l : Layout} {name : String} :
    ((l.slotOf? name).bind fun i => l.members[i]?) = l.members.reverse.find? (·.name == name) := by
  simp only [slotOf?, members, List.getElem?_map, ← List.map_reverse, List.find?_map]
  rw [← lastIndex?_bind, Option.map_bind]
  rfl

/-- Each slot is found under its own name just if names are different. -/
theorem Layout.nodup_members_iff {l : Layout} : (l.members.map (·.name)).Nodup ↔
    ∀ i m, l.members[i]? = some m → l.slotOf? m.name = some i := by
  constructor
  · intro hn i m hm
    exact (slotOf?_eq_some hn (List.mem_of_getElem? hm)).2 hm
  · intro h
    rw [List.Nodup, List.pairwise_iff_getElem]
    intro i j hi hj hij hname
    rw [List.length_map] at hi hj
    rw [List.getElem_map, List.getElem_map] at hname
    -- Two slots of one name would both be the one found under it.
    have hfirst := h i _ (List.getElem?_eq_getElem hi)
    have hsecond := h j _ (List.getElem?_eq_getElem hj)
    rw [hname, hsecond] at hfirst
    exact hij.ne' (Option.some.inj hfirst)

/-- Where keys are different, it makes no difference from which end one looks. -/
theorem find?_reverse_of_nodup {α κ : Type} [BEq κ] [LawfulBEq κ] {key : α → κ} {l : List α} {k : κ}
    (hl : (l.map key).Nodup) : l.reverse.find? (key · == k) = l.find? (key · == k) := by
  induction l with
  | nil => rfl
  | cons a l ih =>
    obtain ⟨hnew, hl⟩ := List.nodup_cons.1 hl
    rw [List.reverse_cons, List.find?_append, ih hl]
    by_cases ha : key a = k
    · -- Nothing behind `a` has its key.
      have hnone : l.find? (key · == k) = none := List.find?_eq_none.2 fun b hb hkey => by
        exact hnew (List.mem_map.2 ⟨b, hb, (eq_of_beq hkey).trans ha.symm⟩)
      simp [hnone, ha]
    · simp [ha]

theorem findSome?_congr {α β : Type} {f g : α → Option β} {l : List α} (h : ∀ a ∈ l, f a = g a) :
    l.findSome? f = l.findSome? g := by
  induction l with
  | nil => rfl
  | cons a l ih =>
    obtain ⟨ha, hl⟩ := List.forall_mem_cons.1 h
    rw [List.findSome?_cons, List.findSome?_cons, ha, ih hl]

namespace RawSchema

variable {s : RawSchema} {e : Entity} {naming : Naming} {name : String}

theorem membersBaseFirst_perm : (s.membersBaseFirst e).Perm (s.membersDerivedFirst e) :=
  (List.reverse_perm _).flatMap_right _

/-- The member that a schema finds is the first of that name, those of the
    entity itself coming first. -/
theorem findMember?_eq :
    (s.findMember? e name).map (·.2) = (s.membersDerivedFirst e).find? (·.name == name) := by
  have hmembers : s.membersDerivedFirst e = (s.ownedDerivedFirst e).map (·.2) := by
    simp [membersDerivedFirst, ownedDerivedFirst, List.map_flatMap, Function.comp_def]
  rw [hmembers, List.find?_map]
  rfl

/-- Where the members of an entity have different names, each is the one found by
    its name. -/
theorem findMember?_name (hnames : ((s.membersBaseFirst e).map (·.name)).Nodup) {m : Member}
    (hm : m ∈ s.membersBaseFirst e) : (s.findMember? e m.name).map (·.2) = some m := by
  have hperm := membersBaseFirst_perm (s := s) (e := e)
  rw [findMember?_eq]
  obtain ⟨m', hm'⟩ : ∃ m', (s.membersDerivedFirst e).find? (·.name == m.name) = some m' :=
    Option.isSome_iff_exists.1 (List.find?_isSome.2 ⟨m, hperm.mem_iff.1 hm, beq_self_eq_true _⟩)
  have hname : m'.name = m.name := by simpa using List.find?_some hm'
  rw [hm', List.inj_on_of_nodup_map hnames
    (hperm.mem_iff.2 (List.mem_of_find?_eq_some hm')) hm hname]

/-- Where each entity's own members have different names, the last member of a
    name is the one that the schema finds. -/
theorem find?_reverse_membersBaseFirst
    (hown : ∀ x ∈ s.chain e, (x.members.map (·.name)).Nodup) :
    (s.membersBaseFirst e).reverse.find? (·.name == name) =
      (s.findMember? e name).map (·.2) := by
  rw [findMember?_eq, membersBaseFirst, membersDerivedFirst, levels, List.flatMap_reverse,
    List.reverse_reverse, List.find?_flatMap, List.find?_flatMap]
  exact findSome?_congr fun x hx => find?_reverse_of_nodup (hown x hx)

/-- No two members of an entity have both their name and their cardinality in
    common. -/
theorem nodup_spellings (hnames : s.checkNames naming = .ok ()) (he : e ∈ s.entities) :
    ((s.membersBaseFirst e).map fun m => (m.name, m.cardinality)).Nodup := by
  -- The derived name is a function of both, so where it differs they do.
  have hderived := checkNames_eq_ok.1 hnames e he _ List.mem_cons_self
  rw [← (membersBaseFirst_perm.map _).nodup_iff] at hderived
  refine .of_map (fun spelling => naming.memberName spelling.1 spelling.2) ?_
  rwa [List.map_map]

end RawSchema

namespace Declarations

variable {d : Declarations} {naming : Naming} {s : Schema} {e : Entity}

/-- The own members of all entities of a chain have different names. -/
theorem nodup_own_of_toSchema (h : d.toSchema naming = .ok s) (he : e ∈ s.entities) :
    ∀ x ∈ s.chain e, (x.members.map (·.name)).Nodup := by
  obtain ⟨hnames, -, -, -, rfl⟩ := toSchema_eq_ok.1 h
  intro x hx
  have hx : x ∈ d.assemble.entities := by
    rcases RawSchema.mem_chainUpTo hx with rfl | hx
    · exact he
    · exact hx
  obtain ⟨pre, c, post, hsplit, rfl⟩ := exists_of_mem_assemble hx
  exact (checkEntityNames_nil.1 hnames).2 c (hsplit ▸ List.mem_append_right _ List.mem_cons_self)

/-- In a schema that is made from declarations, the members of an entity differ
    in name or cardinality. So their names are different just if no name stands
    for a single member and for a list. Just then each slot of a layout is found
    under its name; in any case, a name leads to the member that the schema
    finds under it. -/
theorem memberNames_nodup_iff (h : d.toSchema naming = .ok s) (he : e ∈ s.entities) :
    ((s.membersBaseFirst e).map fun m => (m.name, m.cardinality)).Nodup ∧
    (((s.membersBaseFirst e).map (·.name)).Nodup ↔
      ∀ a ∈ s.membersBaseFirst e, ∀ b ∈ s.membersBaseFirst e,
        a.name = b.name → a.cardinality = b.cardinality) ∧
    ∀ r l, Layout.ofMembers r (s.membersBaseFirst e) = .ok l →
      (((s.membersBaseFirst e).map (·.name)).Nodup ↔
        ∀ i m, l.members[i]? = some m → l.slotOf? m.name = some i) ∧
      ∀ name, ((l.slotOf? name).bind fun i => l.members[i]?) =
        (s.findMember? e name).map (·.2) := by
  have hspellings : ((s.membersBaseFirst e).map fun m => (m.name, m.cardinality)).Nodup := by
    obtain ⟨-, -, -, hcheck, rfl⟩ := toSchema_eq_ok.1 h
    exact RawSchema.nodup_spellings (RawSchema.check_eq_ok.1 hcheck).2.2.2 he
  refine ⟨hspellings, ⟨fun hnames a ha b hb hname => ?_, fun hcard => ?_⟩, fun r l hl => ?_⟩
  · rw [List.inj_on_of_nodup_map hnames ha hb hname]
  · refine .map_on (fun a ha b hb hname => ?_) (.of_map _ hspellings)
    exact List.inj_on_of_nodup_map hspellings ha hb (Prod.ext hname (hcard a ha b hb hname))
  · rw [← Layout.members_ofMembers hl]
    refine ⟨Layout.nodup_members_iff, fun name => ?_⟩
    rw [Layout.find?_slotOf?, Layout.members_ofMembers hl]
    exact RawSchema.find?_reverse_membersBaseFirst (nodup_own_of_toSchema h he)

theorem checkNames_of_toSchema (h : d.toSchema naming = .ok s) : s.checkNames naming = .ok () := by
  obtain ⟨-, -, -, hcheck, rfl⟩ := toSchema_eq_ok.1 h
  exact (RawSchema.check_eq_ok.1 hcheck).2.2.2

/-- A member that is looked up in an ancestor is one of the entity. -/
theorem mem_of_lookupMember? (h : d.toSchema naming = .ok s) (he : e ∈ s.entities)
    {level : Entity} (hlevel : level ∈ s.chain e) {name : String} {m : Member}
    (hm : s.lookupMember? level.name name = some m) :
    m ∈ s.membersBaseFirst e ∧ m.name = name := by
  have hmem : level ∈ s.entities := (RawSchema.mem_chainUpTo hlevel).elim (fun hl => hl ▸ he) id
  rw [RawSchema.lookupMember?, s.indexed.entity?_name (nodup_of_toSchema h) hmem, Option.bind_some,
    RawSchema.findMember?_eq] at hm
  refine ⟨?_, by simpa using List.find?_some hm⟩
  refine RawSchema.membersBaseFirst_subset (basesFirst_of_toSchema h) he (numbered_of_toSchema h)
    hlevel ?_
  exact RawSchema.membersBaseFirst_perm.mem_iff.2 (List.mem_of_find?_eq_some hm)

/-- An entity that extends `base` by a list called like the single member that
    it inherits. -/
def relister : EntityDecl where
  name := "derived"
  base := some "base"
  members := [.plain "net" (.object "base" .many)]

/-- The declarations of `relister` and its base. -/
def relisted : Declarations where
  name := "relisted"
  entities := [{ name := "base", members := [.plain "net" (.object "base" .one)] }, relister]

theorem memberNames_nodup_iff_relisted : ∃ s e r l, relisted.toSchema .hardware = .ok s ∧
    s.entity? "derived" = some e ∧ Layout.ofMembers r (s.membersBaseFirst e) = .ok l ∧
    ¬ (∀ i m, l.members[i]? = some m → l.slotOf? m.name = some i) ∧
    (l.slotOf? "net").bind (fun i => l.members[i]?) =
      (s.findMember? e "net").map (·.2) := by
  have hmade : relisted.toSchema .hardware = .ok relisted.assemble := by decide +kernel
  have hmem : relisted.entity relister 1 ∈ relisted.assemble.entities := by decide +kernel
  have hlayout : Layout.ofMembers ⟨relisted.assemble, .empty⟩
      (relisted.assemble.membersBaseFirst (relisted.entity relister 1)) =
      .ok [⟨.plain "net" (.object "base" .one), [0, 1]⟩,
        ⟨.plain "net" (.object "base" .many), [0, 1]⟩] := by decide +kernel
  obtain ⟨-, -, hlayouts⟩ := memberNames_nodup_iff hmade hmem
  obtain ⟨hslots, hlookup⟩ := hlayouts _ _ hlayout
  exact ⟨_, _, _, _, hmade, by decide +kernel, hlayout, mt hslots.2 (by decide +kernel),
    hlookup "net"⟩

/-- An entity of a schema that is accepted may have two members of one name. -/
theorem memberNames_not_nodup : ∃ s e, relisted.toSchema .hardware = .ok s ∧
    s.entity? "derived" = some e ∧ ¬ ((s.membersBaseFirst e).map (·.name)).Nodup :=
  ⟨relisted.assemble, relisted.entity relister 1, by decide +kernel, by decide +kernel,
    by decide +kernel⟩

end Declarations

end ObjectModel
