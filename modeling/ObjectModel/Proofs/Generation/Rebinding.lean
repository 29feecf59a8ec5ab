import ObjectModel.Cloning.Cloner
import ObjectModel.Generation.Clone
import ObjectModel.Proofs.Policy.Restricting
import ObjectModel.Proofs.Schema.Chains

/-!
# Keys of generated rebinding

A reference may be rebound by a text of the object that is cloned, its key. In
generated code the key is looked up among the members of the entity when the code
is generated (`Clone.ownKey?`), and where this finds no text, the key is read from
the objects referred to instead (`Clone.Step.ReadsTarget`). When objects of a graph
are cloned, references without a key stay (`Cloning.applyPolicy`).

The check of a policy sees to the key where an entry names an entity. So under such
an entry the two agree, unless a list of the key's name is declared nearer to the
entity (`Clone.step_of_referrer`). Entries for all entities are not
checked, and the two may differ (`Clone.step_reads_target`).
-/

namespace ObjectModel

/-! ## Texts -/

/-- A member is a text if its values are. -/
theorem Member.isText_iff {m : Member} : m.isText = true ↔ m.valueKind = .text := by
  obtain ⟨name, content, relation, tags⟩ := m
  rcases content with kind | ⟨_, card⟩ | ⟨_, card⟩
  · cases kind <;> simp [isText, scalarKind?, valueKind, ScalarKind.isSymbol]
  · cases card <;> simp [isText, scalarKind?, valueKind]
  · cases card <;> simp [isText, scalarKind?, valueKind]

theorem Member.isMany_of_isText {m : Member} (h : m.isText = true) : m.isMany = false := by
  rw [isText_iff] at h
  rw [← Bool.not_eq_true, isMany_iff, h]
  exact ValueKind.noConfusion

theorem Member.cardinality_of_not_isMany {m : Member} (h : ¬ m.isMany = true) :
    m.cardinality = .one := by
  cases hcard : m.cardinality with
  | one => rfl
  | many => exact absurd (by rw [isMany, hcard]; rfl) h

theorem exists_getElem?_of_forall₂ {α β : Type} {R : α → β → Prop} {l : List α} {l' : List β}
    (h : List.Forall₂ R l l') {i : Nat} {a : α} (ha : l[i]? = some a) :
    ∃ c, l'[i]? = some c ∧ R a c := by
  obtain ⟨hi, rfl⟩ := List.getElem?_eq_some_iff.1 ha
  have hi' : i < l'.length := h.length_eq ▸ hi
  exact ⟨_, List.getElem?_eq_getElem hi', h.get hi hi'⟩

theorem Value.exists_text {m : Member} {v : Value} (hm : m.isText = true)
    (h : v.fits m = true) : ∃ text, v = .text text := by
  have hkind : v.kind = .text := (kind_of_fits h).trans (Member.isText_iff.1 hm)
  cases v with
  | text text => exact ⟨text, rfl⟩
  | _ => cases hkind

/-! ## Checked keys -/

namespace PolicyTable

variable {d : Declarations} {naming : Naming} {t : PolicyTable} {s : Schema} {e : Entity}
  {m : Member} {key entity : String} {chain : List Entity} {clone : MemberClone}

/-- Nothing is rebound by a text of its own object unless an entry says so. -/
theorem exists_deciding_of_referrer (h : t.memberCloneOf chain m = .rebind key .referrer) :
    ∃ entity, t.deciding? chain m = some (entity, .rebind key .referrer) := by
  rw [memberCloneOf_eq] at h
  rcases hdeciding : t.deciding? chain m with _ | ⟨entity, clone⟩
  · rw [hdeciding, Option.map_none, Option.getD_none] at h
    split at h
    · cases h
    · split at h <;> cases h
  · rw [hdeciding] at h
    obtain rfl : clone = .rebind key .referrer := h
    exact ⟨entity, rfl⟩

/-- The entry that decides is for the wildcard or for an entity of the chain. -/
theorem get?_of_deciding (h : t.deciding? chain m = some (entity, clone)) :
    t.memberClone.get? (entity, m.name) = some clone ∧
      (entity = anyEntity ∨ ∃ level ∈ chain, level.name = entity) := by
  obtain ⟨name, hname, h⟩ := List.exists_of_findSome?_eq_some h
  obtain ⟨clone', hget, h⟩ := Option.map_eq_some_iff.1 h
  obtain ⟨rfl, rfl⟩ := Prod.mk.inj h
  refine ⟨hget, ?_⟩
  rcases List.mem_append.1 hname with hname | hname
  · exact .inr (List.mem_map.1 hname)
  · exact .inl (List.mem_singleton.1 hname)

/-- If the entry that decides names an entity, the key is a text of the object. -/
theorem exists_key (hs : d.toSchema naming = .ok s) (hcheck : t.check s = .ok ())
    (he : e ∈ s.entities) (hany : entity ≠ anyEntity)
    (h : t.deciding? (s.chain e) m = some (entity, .rebind key .referrer)) :
    ∃ k ∈ s.membersBaseFirst e, k.name = key ∧ k.isText = true := by
  obtain ⟨hget, hlevel⟩ := get?_of_deciding h
  obtain ⟨level, hchain, rfl⟩ := hlevel.resolve_left hany
  obtain ⟨-, -, hok⟩ := (staleMemberClone?_eq_none.1
    ((check_eq_ok.1 hcheck).1 _ _ _ hget)).resolve_left hany
  rw [rebindKeyOk, beq_iff_eq, Option.bind_eq_some_iff] at hok
  obtain ⟨k, hlookup, hkind⟩ := hok
  obtain ⟨hmember, hname⟩ := Declarations.mem_of_lookupMember? hs he hchain hlookup
  exact ⟨k, hmember, hname, by rw [Member.isText, hkind]; rfl⟩

end PolicyTable

/-! ## Keys of graphs -/

namespace Cloning

variable {σ : Type} [Bindings σ] {members : List Member} {values : List Value} {k : Member}
  {i : Nat} {text : String}

/-- Where names are different, the key is read from the slot of its member. -/
theorem referrerKey?_eq (hnames : (members.map (·.name)).Nodup) (hk : members[i]? = some k)
    (hv : values[i]? = some (.text text)) :
    referrerKey? members values k.name = if text = "" then none else some text := by
  obtain ⟨hi, hk⟩ := List.getElem?_eq_some_iff.1 hk
  have hindex : members.findIdx? (·.name == k.name) = some i := by
    refine List.findIdx?_eq_some_iff_getElem.2 ⟨hi, by rw [hk, beq_self_eq_true], fun j hj => ?_⟩
    rw [← hk, beq_iff_eq]
    intro hname
    have hj' : j < (members.map (·.name)).length := by rw [List.length_map]; omega
    refine hj.ne ((List.getElem?_inj hj' hnames).1 ?_)
    rw [List.getElem?_map, List.getElem?_map, List.getElem?_eq_getElem hi,
      List.getElem?_eq_getElem (hj.trans hi), Option.map_some, Option.map_some, hname]
  rw [referrerKey?, hindex, Option.bind_some, hv]

/-- There is no key where no text has its name. -/
theorem referrerKey?_eq_none {key : String}
    (hvalues : List.Forall₂ (fun m v => Value.fits m v = true) members values)
    (hkey : ∀ k ∈ members, k.name = key → ¬ k.isText = true) :
    referrerKey? members values key = none := by
  rw [referrerKey?, Option.bind_eq_none_iff]
  intro i hi
  obtain ⟨hlt, hname, -⟩ := List.findIdx?_eq_some_iff_getElem.1 hi
  obtain ⟨v, hv, hfits⟩ := exists_getElem?_of_forall₂ hvalues (List.getElem?_eq_getElem hlt)
  have hnot := hkey _ (List.getElem_mem hlt) (eq_of_beq hname)
  rw [Member.isText_iff, ← Value.kind_of_fits hfits] at hnot
  rw [hv]
  cases v with
  | text text => exact absurd rfl hnot
  | _ => rfl

/-- References are rebound by the key, if it is not empty, and stay otherwise. -/
theorem applyPolicy_referrer (hnames : (members.map (·.name)).Nodup) (hk : members[i]? = some k)
    (hv : values[i]? = some (.text text)) (deep : Ref → Cloning σ Ref) (v : Value) :
    applyPolicy deep members values (.rebind k.name .referrer) v =
      if text = "" then pure v else mapRefs (rebind text) v := by
  rw [applyPolicy, referrerKey?_eq hnames hk hv]
  by_cases htext : text = ""
  · rw [if_pos htext, if_pos htext]
  · rw [if_neg htext, if_neg htext]

end Cloning

namespace Generation.Clone

variable {d : Declarations} {naming : Naming} {b : Blueprint} {e : Entity} {m k : Member}
  {key entity : String} {clone : MemberClone}

/-- The key by which references are rebound is read from the objects referred to. -/
def Step.ReadsTarget (st : Step) : Prop :=
  ∃ field key many, st = .rebindByTarget field key many

/-! ## Keys of generated code -/

/-- The key is the member that the name leads to, if that is a text. -/
theorem ownKey?_eq_some : ownKey? b e key = some k ↔
    (b.schema.findMember? e key).map (·.2) = some k ∧ k.isText = true := by
  rw [ownKey?, Option.bind_eq_some_iff, Option.map_eq_some_iff]
  constructor
  · rintro ⟨om, hom, hk⟩
    obtain ⟨htext, hk⟩ := Option.ite_none_right_eq_some.1 hk
    obtain rfl := Option.some.inj hk
    exact ⟨⟨om, hom, rfl⟩, htext⟩
  · rintro ⟨⟨om, hom, rfl⟩, htext⟩
    exact ⟨om, hom, if_pos htext⟩

/-- The key of an entity is a text among its members. -/
theorem mem_of_ownKey? (h : ownKey? b e key = some k) :
    k ∈ b.members e ∧ k.name = key ∧ k.isText = true := by
  obtain ⟨hfind, htext⟩ := ownKey?_eq_some.1 h
  rw [RawSchema.findMember?_eq] at hfind
  exact ⟨RawSchema.membersBaseFirst_perm.mem_iff.2 (List.mem_of_find?_eq_some hfind),
    by simpa using List.find?_some hfind, htext⟩

section

variable (hclone : b.policy.memberCloneOf (b.chain e) m = .rebind key .referrer)

include hclone

/-- Where there is a key, generated code rebinds by it. -/
theorem step_of_ownKey (hk : ownKey? b e key = some k) :
    step b e m = .rebind (b.field m) (b.field k) m.isMany := by
  rw [step, hclone]
  simp only [hk]

/-- Where no text of the object is found as the key, generated code goes to the
    objects referred to. -/
theorem readsTarget_iff : (step b e m).ReadsTarget ↔ ownKey? b e key = none := by
  rcases hk : ownKey? b e key with _ | k
  · refine iff_of_true ⟨b.field m, key, m.isMany, ?_⟩ rfl
    rw [step, hclone]
    simp only [hk]
  · refine iff_of_false ?_ (Option.some_ne_none k)
    rw [step_of_ownKey hclone hk]
    rintro ⟨_, _, _, h⟩
    cases h

end

section

variable (hs : d.toSchema naming = .ok b.schema) (hcheck : b.policy.check b.schema = .ok ())
  (he : e ∈ b.schema.entities) (hany : entity ≠ anyEntity)
  (hentry : b.policy.deciding? (b.chain e) m = some (entity, .rebind key .referrer))

include hs hcheck he hany hentry

/-- The key of an entry for an entity is not found just if a list of its name is
    nearer: a name stands for no more than one single member and one list. -/
theorem ownKey?_eq_none : ownKey? b e key = none ↔
    ∃ l, (b.schema.findMember? e key).map (·.2) = some l ∧ l.isMany = true := by
  obtain ⟨k, hmember, hname, htext⟩ := PolicyTable.exists_key hs hcheck he hany hentry
  obtain ⟨l, hl⟩ : ∃ l, (b.schema.findMember? e key).map (·.2) = some l := by
    rw [RawSchema.findMember?_eq]
    exact Option.isSome_iff_exists.1 (List.find?_isSome.2
      ⟨k, RawSchema.membersBaseFirst_perm.mem_iff.1 hmember, by rw [hname, beq_self_eq_true]⟩)
  have hnone : ownKey? b e key = none ↔ ¬ l.isText = true := by
    simp only [Option.eq_none_iff_forall_ne_some, ne_eq, ownKey?_eq_some, hl, Option.some.injEq,
      not_and, forall_eq']
  rw [hnone]
  simp only [hl, Option.some.injEq, exists_eq_left']
  refine ⟨fun hnot => ?_, fun hmany htext => ?_⟩
  · -- The list is not the text, so it is told from it by being a list.
    have hfind := RawSchema.findMember?_eq ▸ hl
    have hlname : l.name = key := by simpa using List.find?_some hfind
    have hlmember := RawSchema.membersBaseFirst_perm.mem_iff.2 (List.mem_of_find?_eq_some hfind)
    by_contra hmany
    have hsingle : l.cardinality = k.cardinality :=
      (Member.cardinality_of_not_isMany hmany).trans
        (Member.cardinality_of_not_isMany (by rw [Member.isMany_of_isText htext]; simp)).symm
    have hspellings := RawSchema.nodup_spellings (Declarations.checkNames_of_toSchema hs) he
    refine hnot (List.inj_on_of_nodup_map hspellings hlmember hmember ?_ ▸ htext)
    exact Prod.ext (hlname.trans hname.symm) hsingle
  · rw [Member.isMany_of_isText htext] at hmany
    cases hmany

/-- Where names are different, generated code and graphs read the key from the
    same slot. -/
theorem exists_slot (hnames : ((b.members e).map (·.name)).Nodup) :
    ∃ (i : Nat) (k : Member), (b.members e)[i]? = some k ∧ k.name = key ∧ k.isText = true ∧
      ownKey? b e key = some k := by
  obtain ⟨k, hmember, rfl, htext⟩ := PolicyTable.exists_key hs hcheck he hany hentry
  obtain ⟨i, hi⟩ := List.mem_iff_getElem?.1 hmember
  exact ⟨i, k, hi, rfl, htext,
    ownKey?_eq_some.2 ⟨RawSchema.findMember?_name hnames hmember, htext⟩⟩

end

/-- The references of a member are to be rebound by a text of the object that is
    cloned. Over a schema that is made from declarations, under a checked policy,
    generated code reads the key from the objects referred to just if the nearest
    member of its name is not a text. If the entry that says how the member is cloned
    names an entity, this is so just if that member is a list. Where the members of
    the entity have different names, it is not so under such an entry; where it is so,
    references stay when objects of graphs are cloned; and otherwise generated code
    and graphs read the key from the same slot, though in graphs an empty one leaves
    the references as they are. -/
theorem step_of_referrer (hs : d.toSchema naming = .ok b.schema)
    (hcheck : b.policy.check b.schema = .ok ()) (he : e ∈ b.concrete)
    (hclone : b.policy.memberCloneOf (b.chain e) m = .rebind key .referrer) :
    ((step b e m).ReadsTarget ↔
      ¬ ∃ k, (b.schema.findMember? e key).map (·.2) = some k ∧ k.isText = true) ∧
    (∀ entity clone, b.policy.deciding? (b.chain e) m = some (entity, clone) →
      entity ≠ anyEntity → ((step b e m).ReadsTarget ↔
        ∃ l, (b.schema.findMember? e key).map (·.2) = some l ∧ l.isMany = true)) ∧
    (((b.members e).map (·.name)).Nodup →
      (∀ entity clone, b.policy.deciding? (b.chain e) m = some (entity, clone) →
        entity ≠ anyEntity → ¬ (step b e m).ReadsTarget) ∧
      ((step b e m).ReadsTarget → ∀ values,
        List.Forall₂ (fun m v => Value.fits m v = true) (b.members e) values →
          ∀ (σ : Type) [Bindings σ] (deep : Ref → Cloning σ Ref) (v : Value),
            Cloning.applyPolicy deep (b.members e) values (.rebind key .referrer) v = pure v) ∧
      (¬ (step b e m).ReadsTarget → ∃ (i : Nat) (k : Member), (b.members e)[i]? = some k ∧
        k.isText = true ∧ step b e m = .rebind (b.field m) (b.field k) m.isMany ∧ ∀ values,
          List.Forall₂ (fun m v => Value.fits m v = true) (b.members e) values →
            ∃ text, values[i]? = some (.text text) ∧
              ∀ (σ : Type) [Bindings σ] (deep : Ref → Cloning σ Ref) (v : Value),
                Cloning.applyPolicy deep (b.members e) values (.rebind key .referrer) v =
                  if text = "" then pure v else Cloning.mapRefs (Cloning.rebind text) v)) := by
  have he := List.mem_of_mem_filter he
  have hreads := readsTarget_iff hclone
  -- The entry that decides is the rebinding itself.
  have hdeciding {entity : String} {clone : MemberClone}
      (h : b.policy.deciding? (b.chain e) m = some (entity, clone)) :
      b.policy.deciding? (b.chain e) m = some (entity, .rebind key .referrer) := by
    obtain ⟨entity', h'⟩ := PolicyTable.exists_deciding_of_referrer hclone
    obtain ⟨rfl, rfl⟩ := Prod.mk.inj (Option.some.inj (h.symm.trans h'))
    exact h
  refine ⟨?_, fun entity clone h hany => ?_, fun hnames => ⟨fun entity clone h hany => ?_,
    fun htarget values hvalues σ _ deep v => ?_, fun hown => ?_⟩⟩
  · rw [hreads, Option.eq_none_iff_forall_ne_some, ← not_exists]
    simp only [ownKey?_eq_some]
  · rw [hreads]
    exact ownKey?_eq_none hs hcheck he hany (hdeciding h)
  · obtain ⟨i, k, -, -, -, hk⟩ := exists_slot hs hcheck he hany (hdeciding h) hnames
    rw [hreads, hk]
    exact Option.some_ne_none k
  · -- A text of this name would be the one found, as names are different.
    have hkey (k : Member) (hk : k ∈ b.members e) (hname : k.name = key) : ¬ k.isText = true := by
      subst hname
      intro htext
      have hsome := ownKey?_eq_some.2 ⟨RawSchema.findMember?_name hnames hk, htext⟩
      rw [hreads.1 htarget] at hsome
      cases hsome
    rw [Cloning.applyPolicy, Cloning.referrerKey?_eq_none hvalues hkey]
  · obtain ⟨k, hk⟩ := Option.ne_none_iff_exists'.1 (mt hreads.2 hown)
    obtain ⟨hmember, rfl, htext⟩ := mem_of_ownKey? hk
    obtain ⟨i, hi⟩ := List.mem_iff_getElem?.1 hmember
    refine ⟨i, k, hi, htext, step_of_ownKey hclone hk, fun values hvalues => ?_⟩
    obtain ⟨v, hv, hfits⟩ := exists_getElem?_of_forall₂ hvalues hi
    obtain ⟨text, rfl⟩ := Value.exists_text htext hfits
    exact ⟨text, hv, fun σ _ deep v => Cloning.applyPolicy_referrer hnames hi hv deep v⟩

/-- The cell above a cell is rebound by the name of the cell that is cloned. -/
theorem step_of_referrer_cells :
    let policy := PolicyTable.empty.addAll [.memberClone "cell" "up" (.rebind "name" .referrer)]
    let b : Blueprint := ⟨⟨Design.schema, ∅⟩, .hardware, policy⟩
    let up := (Member.plain "up" (.object "cell" .one)).withTag .backReference
    let values : List Value := [.text "a", .ref none, .refs none, .refs none]
    ∃ e ∈ b.concrete, e.name = "cell" ∧ up ∈ b.references e ∧ ¬ (step b e up).ReadsTarget ∧
      ∀ (σ : Type) [Bindings σ] (deep : Ref → Cloning σ Ref) (v : Value),
        Cloning.applyPolicy deep (b.members e) values (.rebind "name" .referrer) v =
          Cloning.mapRefs (Cloning.rebind "a") v := by
  intro policy b up values
  let e : Entity := Design.declarations.entity Design.declarations.entities[1] 1
  have he : e ∈ b.concrete := by decide +kernel
  have hclone : b.policy.memberCloneOf (b.chain e) up = .rebind "name" .referrer := by
    decide +kernel
  obtain ⟨-, -, hagree⟩ :=
    step_of_referrer Design.toSchema_declarations (by decide +kernel) he hclone
  obtain ⟨hentity, -, hown⟩ := hagree (by decide +kernel)
  have hdeciding : b.policy.deciding? (b.chain e) up = some ("cell", .rebind "name" .referrer) := by
    decide +kernel
  have hnot := hentity _ _ hdeciding (by decide)
  obtain ⟨i, k, -, -, -, hslot⟩ := hown hnot
  obtain ⟨text, htext, happly⟩ := hslot values (.cons rfl (.cons rfl (.cons rfl (.cons rfl .nil))))
  -- Of the four values only the first is a text.
  obtain rfl : text = "a" := by
    match i with
    | 0 => exact (Value.text.inj (Option.some.inj htext)).symm
    | 1 | 2 | 3 => cases htext
    | i + 4 => cases htext
  exact ⟨e, he, rfl, by decide +kernel, hnot, happly⟩

/-- The declarations of wires, which have a label, and of pins at wires. -/
def pins : Declarations where
  name := "pins"
  entities := [
    { name := "wire", members := [.plain "label" (.scalar .string)] },
    { name := "pin", members := [.plain "wire" (.object "wire" .one)] }]

/-- An entry for all entities may name a key that an entity lacks, and passes the
    check. Generated code then rebinds the wire of a pin by the label of the wire,
    while in graphs the pin keeps its wire. -/
theorem step_reads_target :
    let policy := PolicyTable.empty.addAll [.memberClone "*" "wire" (.rebind "label" .referrer)]
    let b : Blueprint := ⟨⟨pins.assemble, ∅⟩, .hardware, policy⟩
    let wire := Member.plain "wire" (.object "wire" .one)
    pins.toSchema .hardware = .ok pins.assemble ∧ policy.check pins.assemble = .ok () ∧
      ∃ e ∈ b.concrete, wire ∈ b.references e ∧
        policy.memberCloneOf (b.chain e) wire = .rebind "label" .referrer ∧
        step b e wire = .rebindByTarget "wire" "label" false ∧
        (step b e wire).code =
          Code.line "object.wire = self.rebind_target(object.wire, \"label\");" ∧
        ∀ (σ : Type) [Bindings σ] (deep : Ref → Cloning σ Ref) (source : List Value) (v : Value),
          Cloning.applyPolicy deep (b.members e) source (.rebind "label" .referrer) v = pure v := by
  intro policy b wire
  refine ⟨by decide +kernel, by decide +kernel, pins.entity pins.entities[1] 1, by decide +kernel,
    by decide +kernel, by decide +kernel, by decide +kernel, by decide +kernel, ?_⟩
  intro σ _ deep source v
  have hkey : Cloning.referrerKey? (b.members (pins.entity pins.entities[1] 1)) source "label" =
      none := rfl
  rw [Cloning.applyPolicy, hkey]

end Generation.Clone

end ObjectModel
