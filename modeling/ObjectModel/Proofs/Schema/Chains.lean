import ObjectModel.Proofs.Schema.Indices
import ObjectModel.Proofs.Schema.Tags

/-!
# Chains

In a schema that is made from declarations, bases are declared before what
extends them (`Declarations.basesFirst_of_toSchema`), and names are different
(`Declarations.nodup_of_toSchema`). So an entity has all members of its
ancestors, with all that these inherit (`RawSchema.membersBaseFirst_subset`).
-/

namespace ObjectModel

namespace RawSchema

variable {s : RawSchema} {e d b : Entity} {m : Member}

/-- Bases are declared before what extends them. -/
def BasesFirst (s : RawSchema) : Prop :=
  ∀ e ∈ s.entities, ∀ b, s.base? e = some b → b.tag < e.tag

theorem mem_of_base? (hb : s.base? e = some b) : b ∈ s.entities :=
  let ⟨_, _, hname⟩ := Option.bind_eq_some_iff.1 hb
  mem_of_entity? hname

/-- A chain goes on with entities of the schema. -/
theorem mem_chainUpTo {n : Nat} (hd : d ∈ s.chainUpTo n e) : d = e ∨ d ∈ s.entities := by
  induction n generalizing e with
  | zero => cases hd
  | succ n ih =>
    rw [chainUpTo] at hd
    rcases List.mem_cons.1 hd with rfl | hd
    · exact .inl rfl
    · split at hd
      · rename_i b hb
        rcases ih hd with rfl | hd
        · exact .inr (mem_of_base? hb)
        · exact .inr hd
      · cases hd

/-- Each member is declared by some entity. -/
theorem exists_level (hm : m ∈ s.membersBaseFirst e) (he : e ∈ s.entities) :
    ∃ d ∈ s.entities, m ∈ d.members := by
  obtain ⟨d, hd, hm⟩ := List.mem_flatMap.1 hm
  rcases mem_chainUpTo (List.mem_reverse.1 hd) with h | hd
  · exact ⟨d, h ▸ he, hm⟩
  · exact ⟨d, hd, hm⟩

section

variable (hs : s.BasesFirst) (he : e ∈ s.entities)

include hs he

/-- No more than the entities declared so far are needed for a chain. -/
theorem mem_chainUpTo_of_lt {n k : Nat} (hn : e.tag < n) (hd : d ∈ s.chainUpTo k e) :
    d ∈ s.chainUpTo n e := by
  induction k generalizing e n with
  | zero => exact absurd hd List.not_mem_nil
  | succ k ih =>
    obtain ⟨n, rfl⟩ := Nat.exists_eq_succ_of_ne_zero (Nat.ne_zero_of_lt hn)
    rw [chainUpTo] at hd ⊢
    rcases List.mem_cons.1 hd with rfl | hd
    · exact List.mem_cons_self
    · rcases hb : s.base? e with _ | b
      · simp [hb] at hd
      · simp only [hb] at hd ⊢
        have hlt := hs e he b hb
        exact List.mem_cons_of_mem _ (ih (mem_of_base? hb) (by omega) hd)

/-- The chain of an ancestor is part of the chain. -/
theorem mem_chainUpTo_trans {n k : Nat} {x : Entity} (hn : e.tag < n)
    (hd : d ∈ s.chainUpTo n e) (hx : x ∈ s.chainUpTo k d) : x ∈ s.chainUpTo n e := by
  induction n generalizing e with
  | zero => exact absurd hd List.not_mem_nil
  | succ n ih =>
    have hmem := hd
    rw [chainUpTo] at hd
    rcases List.mem_cons.1 hd with rfl | hd
    · exact mem_chainUpTo_of_lt hs he hn hx
    · rcases hb : s.base? e with _ | b
      · simp [hb] at hd
      · simp only [hb] at hd
        have hlt := hs e he b hb
        rw [chainUpTo, hb]
        exact List.mem_cons_of_mem _ (ih (mem_of_base? hb) (by omega) hd)

theorem chain_trans {x : Entity} (hnumbered : s.Numbered) (hd : d ∈ s.chain e)
    (hx : x ∈ s.chain d) : x ∈ s.chain e := by
  have hat := hnumbered.entityAt? he
  exact mem_chainUpTo_trans hs he (List.getElem?_eq_some_iff.1 hat).1 hd hx

/-- An entity has the members of its ancestors. -/
theorem membersBaseFirst_subset (hnumbered : s.Numbered) (hd : d ∈ s.chain e) :
    s.membersBaseFirst d ⊆ s.membersBaseFirst e := by
  intro m hm
  obtain ⟨x, hx, hm⟩ := List.mem_flatMap.1 hm
  have hx := chain_trans hs he hnumbered hd (List.mem_reverse.1 hx)
  exact List.mem_flatMap.2 ⟨x, List.mem_reverse.2 hx, hm⟩

end

end RawSchema

namespace Declarations

variable {d : Declarations} {naming : Naming} {s : Schema} {earlier : List String}
  {entities : List EntityDecl}

/-- No name is repeated if all are different, and different from those seen before. -/
theorem firstRepeat?_eq_none {seen l : List String} :
    firstRepeat? seen l = none ↔ l.Nodup ∧ ∀ a ∈ l, a ∉ seen := by
  induction l generalizing seen with
  | nil => simp [firstRepeat?]
  | cons a l ih =>
    rw [firstRepeat?, List.nodup_cons, List.forall_mem_cons]
    by_cases ha : a ∈ seen
    · simp [ha]
    · rw [if_neg ha, ih]
      simp only [List.mem_cons, not_or]
      constructor
      · rintro ⟨hl, hnew⟩
        exact ⟨⟨fun hmem => (hnew a hmem).1 rfl, hl⟩, ha, fun b hb => (hnew b hb).2⟩
      · rintro ⟨⟨hmem, hl⟩, -, hnew⟩
        exact ⟨hl, fun b hb => ⟨ne_of_mem_of_not_mem hb hmem, hnew b hb⟩⟩

theorem firstRepeat?_nil_eq_none {l : List String} : firstRepeat? [] l = none ↔ l.Nodup := by
  simp [firstRepeat?_eq_none]

/-- Names are accepted if entities have different ones, also from the earlier,
    and so have the members of each. -/
theorem checkEntityNames_eq_ok : checkEntityNames earlier entities = .ok () ↔
    (entities.map (·.name)).Nodup ∧ (∀ e ∈ entities, e.name ∉ earlier) ∧
      ∀ e ∈ entities, (e.members.map (·.name)).Nodup := by
  induction entities generalizing earlier with
  | nil => simp [checkEntityNames]
  | cons e entities ih =>
    have hcons : checkEntityNames earlier (e :: entities) = .ok () ↔ e.name ∉ earlier ∧
        (e.members.map (·.name)).Nodup ∧
        checkEntityNames (e.name :: earlier) entities = .ok () := by
      have hmembers := firstRepeat?_nil_eq_none (l := e.members.map (·.name))
      rcases hrepeat : firstRepeat? [] (e.members.map (·.name)) with _ | m <;>
        by_cases hmem : e.name ∈ earlier <;>
        simp_all [checkEntityNames]
    rw [hcons, ih, List.map_cons, List.nodup_cons, List.forall_mem_cons, List.forall_mem_cons]
    simp only [List.mem_cons, not_or, List.mem_map, not_exists, not_and]
    constructor
    · rintro ⟨hname, hmembers, hnodup, hnew, hrest⟩
      exact ⟨⟨fun d hd => (hnew d hd).1, hnodup⟩, ⟨hname, fun d hd => (hnew d hd).2⟩,
        hmembers, hrest⟩
    · rintro ⟨⟨hne, hnodup⟩, ⟨hname, hnew⟩, hmembers, hrest⟩
      exact ⟨hname, hmembers, hnodup, fun d hd => ⟨hne d hd, hnew d hd⟩, hrest⟩

/-- Bases are looked for among the names that were declared before. -/
theorem checkBases_cons {e : EntityDecl} :
    d.checkBases earlier (e :: entities) = .ok () ↔
      (∀ base, e.base = some base → base ∈ earlier) ∧
        d.checkBases (e.name :: earlier) entities = .ok () := by
  rw [checkBases]
  rcases hbase : e.base with _ | base
  · simp
  · by_cases hmem : base ∈ earlier
    · simp [hmem]
    · by_cases hdeclared : base ∈ d.entities.map (·.name) <;>
        simp [hmem, hdeclared]

/-- Bases are accepted if each is among the earlier names, or before what extends it. -/
theorem checkBases_eq_ok : d.checkBases earlier entities = .ok () ↔
    ∀ pre e post, entities = pre ++ e :: post → ∀ base, e.base = some base →
      base ∈ earlier ∨ base ∈ pre.map (·.name) := by
  -- The names that were seen grow with each entity, so this is shown for any of them.
  induction entities generalizing earlier with
  | nil =>
    refine iff_of_true rfl fun pre e post hsplit => ?_
    exact absurd hsplit.symm (List.append_ne_nil_of_right_ne_nil _ (List.cons_ne_nil _ _))
  | cons e entities ih =>
    rw [checkBases_cons, ih]
    constructor
    · rintro ⟨hfirst, hrest⟩ (_ | ⟨e', pre⟩) f post hsplit base hbase
      · obtain ⟨rfl, rfl⟩ := List.cons.inj hsplit
        exact .inl (hfirst base hbase)
      · obtain ⟨rfl, rfl⟩ := List.cons.inj hsplit
        rcases hrest pre f post rfl base hbase with hmem | hmem
        · exact (List.mem_cons.1 hmem).elim (fun h => .inr (h ▸ List.mem_cons_self)) .inl
        · exact .inr (List.mem_cons_of_mem _ hmem)
    · intro h
      refine ⟨fun base hbase => ?_, ?_⟩
      · exact (h [] e entities rfl base hbase).resolve_right List.not_mem_nil
      · rintro pre f post rfl base hbase
        rcases h (e :: pre) f post rfl base hbase with hmem | hmem
        · exact .inl (List.mem_cons_of_mem _ hmem)
        · rcases List.mem_cons.1 hmem with rfl | hmem
          · exact .inl List.mem_cons_self
          · exact .inr hmem

/-- What is checked when a schema is made. -/
theorem toSchema_eq_ok : d.toSchema naming = .ok s ↔
    checkEntityNames [] d.entities = .ok () ∧ d.checkGroupNames = .ok () ∧
      d.checkBases [] d.entities = .ok () ∧ d.assemble.check naming = .ok () ∧ d.assemble = s := by
  simp only [toSchema, check_bind_eq_ok, pure_eq_ok]

/-- The entities of a schema have the names that were declared. -/
theorem names_assemble : d.assemble.entities.map (·.name) = d.entities.map (·.name) := by
  rw [assemble, List.map_map]
  conv_rhs => rw [← List.zipIdx_map_fst 0 d.entities, List.map_map]
  rfl

/-- Declaring a schema gives its entities different names. -/
theorem nodup_of_toSchema (h : d.toSchema naming = .ok s) :
    (s.entities.map (·.name)).Nodup := by
  obtain ⟨hnames, -, -, -, rfl⟩ := toSchema_eq_ok.1 h
  rw [names_assemble]
  exact (checkEntityNames_eq_ok.1 hnames).1

/-- Declaring a schema puts bases before what extends them. -/
theorem basesFirst_of_toSchema (h : d.toSchema naming = .ok s) : s.BasesFirst := by
  have hnumbered := numbered_of_toSchema h
  have hnodup := nodup_of_toSchema h
  obtain ⟨-, -, hbases, -, rfl⟩ := toSchema_eq_ok.1 h
  intro e he b hb
  obtain ⟨base, hbase, hfind⟩ := Option.bind_eq_some_iff.1 hb
  obtain ⟨hbmem, rfl⟩ := d.assemble.indexed.entity?_eq_some hfind
  obtain ⟨i, hi⟩ : ∃ i, e.tag = i := ⟨_, rfl⟩
  have hat := hnumbered.entityAt? he
  rw [hi, RawSchema.entityAt?, assemble, List.getElem?_map, Option.map_eq_some_iff] at hat
  obtain ⟨⟨decl, k⟩, hdecl, rfl⟩ := hat
  rw [List.getElem?_zipIdx, Option.map_eq_some_iff] at hdecl
  obtain ⟨decl, hdecl, hpair⟩ := hdecl
  obtain ⟨rfl, -⟩ := Prod.mk.inj hpair
  obtain ⟨hlt, rfl⟩ := List.getElem?_eq_some_iff.1 hdecl
  have hentities := (List.take_append_drop i d.entities).symm
  rw [List.drop_eq_getElem_cons hlt] at hentities
  have hbefore : b.name ∈ (d.entities.take i).map (·.name) :=
    (checkBases_eq_ok.1 hbases _ _ _ hentities b.name hbase).resolve_left List.not_mem_nil
  -- Among the names so far, that of `b` has a place, which can be none but its tag.
  rw [List.map_take, ← names_assemble] at hbefore
  obtain ⟨j, hj, hname⟩ := List.mem_take_iff_getElem.1 hbefore
  have hplace : (d.assemble.entities.map (·.name))[b.tag]? = some b.name := by
    rw [List.getElem?_map]
    exact congrArg _ (hnumbered.entityAt? hbmem)
  have hsame : b.tag = j :=
    (List.getElem?_inj (List.getElem?_eq_some_iff.1 hplace).1 hnodup).1
      (hplace.trans (hname ▸ (List.getElem?_eq_getElem _).symm))
  rw [hi, hsame]
  omega

end Declarations

end ObjectModel
