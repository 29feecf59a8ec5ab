import Mathlib.Algebra.Ring.Nat
import Mathlib.Data.List.Forall2
import ObjectModel.Proofs.Graph.Typing

/-!
# Growing graphs

A graph grows by objects that are put after those of their tag (`Graph.add`),
which is how objects are made (`Graph.createTag_eq_ok`). A graph extends
another if it has all of its objects as they are, and otherwise only such as
come after them (`Graph.Extends`). Changes to objects that only the extension
has do not show in what it extends (`Extends.modify`).
-/

namespace ObjectModel.Graph

variable {g h k : Graph} {r s : Ref} {o : Object} {tag : Nat} {f : Object → Object}

/-- The graph with one more object of a tag. -/
def add (g : Graph) (tag : Nat) (o : Object) : Graph :=
  { g with stores := g.stores.modify tag (· ++ [o]), lastId := g.lastId + 1 }

/-- The reference that the next object of a tag gets. -/
def fresh (g : Graph) (tag : Nat) : Ref := ⟨tag, g.count tag⟩

@[simp]
theorem model_add : (g.add tag o).model = g.model := rfl

@[simp]
theorem lastId_add : (g.add tag o).lastId = g.lastId + 1 := rfl

theorem modify_modify {f' : Object → Object} :
    (g.modify r f).modify r f' = g.modify r fun o => f' (f o) := by
  rw [modify, modify, modify, List.modify_modify_eq]
  congr 2
  funext store
  exact List.modify_modify_eq _ _ _ _

/-- What a change does to other objects than the one that there is does not count. -/
theorem modify_congr {f' : Object → Object} (hf : ∀ o, g.object? r = some o → f o = f' o) :
    g.modify r f = g.modify r f' := by
  rw [modify, modify]
  congr 1
  refine List.ext_getElem? fun t => ?_
  rw [List.getElem?_modify, List.getElem?_modify]
  split
  · rename_i ht
    subst ht
    cases hstore : g.stores[r.tag]? with
    | none => rfl
    | some store =>
      refine congrArg some (List.ext_getElem? fun i => ?_)
      rw [List.getElem?_modify, List.getElem?_modify]
      split
      · rename_i hi
        subst hi
        cases ho : store[r.index]? with
        | none => rfl
        | some o => exact congrArg some (hf o (by rw [object?, hstore, Option.bind_some, ho]))
      · rfl
  · rfl

theorem modify_eq_self (hf : ∀ o, g.object? r = some o → f o = o) : g.modify r f = g := by
  have hid : (fun store : List Object => store.modify r.index id) = id :=
    funext fun store => List.modify_id _ store
  rw [(modify_congr hf : g.modify r f = g.modify r id), modify, hid, List.modify_id]

theorem updateHeader_eq {f : Header → Header} (hr : g.contains r = true) :
    g.updateHeader r f = .ok (g.modify r fun o => { o with header := f o.header }) :=
  let ⟨o, ho⟩ := contains_iff.1 hr
  bind_eq_ok.2 ⟨o, object_eq_ok.2 ho, rfl⟩

theorem setValues_eq {values : List Value} (hr : g.contains r = true) :
    g.setValues r values = .ok (g.modify r fun o => { o with values }) :=
  let ⟨o, ho⟩ := contains_iff.1 hr
  bind_eq_ok.2 ⟨o, object_eq_ok.2 ho, rfl⟩

theorem contains_fresh : g.contains (g.fresh tag) = false := by
  rw [contains_eq_decide, fresh, decide_eq_false (Nat.lt_irrefl _)]

theorem object?_fresh : g.object? (g.fresh tag) = none := contains_eq_false.1 contains_fresh

theorem ne_fresh (hr : g.contains r = true) : r ≠ g.fresh tag := by
  rintro rfl
  rw [contains_fresh] at hr
  cases hr

theorem tag_lt_of_contains (hr : g.contains r = true) : r.tag < g.stores.length := by
  obtain ⟨o, ho⟩ := contains_iff.1 hr
  rw [object?, Option.bind_eq_some_iff] at ho
  obtain ⟨store, hstore, -⟩ := ho
  exact (List.getElem?_eq_some_iff.1 hstore).1

/-- Of the references, only that to the new object comes to name another one. -/
theorem object?_add (htag : tag < g.stores.length) :
    (g.add tag o).object? s = if s = g.fresh tag then some o else g.object? s := by
  obtain ⟨t, i⟩ := s
  have hcount : g.count tag = g.stores[tag].length := by simp [count, htag]
  by_cases ht : t = tag
  · subst ht
    simp only [object?, add, fresh, hcount, List.getElem?_modify_eq, Ref.mk.injEq, true_and]
    rw [List.getElem?_eq_getElem htag]
    simp only [Option.map_eq_map, Option.map_some, Option.bind_some]
    by_cases hi : i = g.stores[t].length
    · simp [hi]
    · rw [if_neg hi, List.getElem?_append]
      split
      · rfl
      · rename_i hlt
        rw [List.getElem?_eq_none (by simp; omega), List.getElem?_eq_none (by omega)]
  · simp [object?, add, fresh, ht, List.getElem?_modify_ne _ _ (Ne.symm ht)]

theorem object?_add_fresh (htag : tag < g.stores.length) :
    (g.add tag o).object? (g.fresh tag) = some o := by
  rw [object?_add htag, if_pos rfl]

/-- New objects are without children. -/
theorem childrenOf_add {id : UInt32} {values : List Value} (htag : tag < g.stores.length) :
    (g.add tag ⟨{ id }, values⟩).childrenOf s = g.childrenOf s := by
  rw [childrenOf, childrenOf, object?_add htag]
  split
  · rename_i hs
    rw [hs, object?_fresh]
    rfl
  · rfl

/-- New objects are without an owner. -/
theorem parent?_add {id : UInt32} {values : List Value} (htag : tag < g.stores.length) :
    (g.add tag ⟨{ id }, values⟩).parent? s = g.parent? s := by
  rw [parent?, parent?, object?_add htag]
  split
  · rename_i hs
    rw [hs, object?_fresh]
    rfl
  · rfl

/-- What there is after an object was added was there before, or is the new one. -/
theorem contains_add (htag : tag < g.stores.length) :
    (g.add tag o).contains s = true ↔ s = g.fresh tag ∨ g.contains s = true := by
  rw [contains, contains, object?_add htag]
  split <;> simp_all

/-- There is no place for objects of such a tag. -/
theorem object?_add_of_le (htag : g.stores.length ≤ tag) :
    (g.add tag o).object? s = g.object? s := by
  rw [object?, object?, add, List.modify_eq_self htag]

/-- One element more in one of several lists is one more in all of them. -/
theorem flatten_modify_append {α : Type} {l : List (List α)} {i : Nat} (hi : i < l.length) (a : α) :
    (l.modify i (· ++ [a])).flatten.Perm (a :: l.flatten) := by
  induction l generalizing i with
  | nil => exact absurd hi (Nat.not_lt_zero i)
  | cons b l ih =>
    cases i with
    | zero =>
      rw [List.modify_zero_cons, List.flatten_cons, List.flatten_cons, List.append_assoc]
      exact List.perm_middle
    | succ i =>
      rw [List.modify_succ_cons, List.flatten_cons, List.flatten_cons]
      exact ((ih (Nat.lt_of_succ_lt_succ hi)).append_left b).trans List.perm_middle

/-- The objects are those that there were, and the new one. -/
theorem perm_objects_add (htag : tag < g.stores.length) :
    (g.add tag o).stores.flatten.Perm (o :: g.stores.flatten) :=
  flatten_modify_append htag o

theorem size_add (htag : tag < g.stores.length) : (g.add tag o).size = g.size + 1 :=
  (perm_objects_add htag).length_eq

/-- Where there is no place for it, the object is not added. -/
theorem size_add_of_le (htag : g.stores.length ≤ tag) : (g.add tag o).size = g.size := by
  rw [size, add, List.modify_eq_self htag, size]

/-- A change to an object that was just added is as good as another object. -/
theorem modify_add_fresh (htag : tag < g.stores.length) :
    (g.add tag o).modify (g.fresh tag) f = g.add tag (f o) := by
  have hcount : g.count tag = g.stores[tag].length := by simp [count, htag]
  rw [modify, add, add, fresh, List.modify_modify_eq, hcount]
  congr 1
  refine List.ext_getElem? fun i => ?_
  rw [List.getElem?_modify, List.getElem?_modify]
  by_cases hi : tag = i
  · subst hi
    simp [htag, List.modify_eq_take_drop]
  · simp [hi]

/-! ## Ids -/

/-- There is a next id if this is not the last one that there can be. -/
theorem toNat_succ_lt_iff {id : UInt32} : id.toNat + 1 < 2 ^ 32 ↔ id ≠ topId := by
  have hlt := id.toNat_lt
  have htop : topId.toNat = 2 ^ 32 - 1 := rfl
  rw [ne_eq, ← UInt32.toNat_inj, htop]
  omega

theorem toNat_succ {id : UInt32} (h : id.toNat + 1 < 2 ^ 32) : (id + 1).toNat = id.toNat + 1 := by
  rw [UInt32.toNat_add, UInt32.toNat_one, Nat.mod_eq_of_lt h]

theorem toNat_succ_le {id : UInt32} : (id + 1).toNat ≤ id.toNat + 1 := by
  rw [UInt32.toNat_add, UInt32.toNat_one]
  exact Nat.mod_le _ _

/-- There are ids for `n` more objects. -/
def IdsLeft (g : Graph) (n : Nat) : Prop := g.lastId.toNat + n < 2 ^ 32

instance {n : Nat} : Decidable (g.IdsLeft n) := inferInstanceAs (Decidable (_ < _))

theorem IdsLeft.mono {n k : Nat} (hg : g.IdsLeft n) (hk : k ≤ n) : g.IdsLeft k :=
  Nat.lt_of_le_of_lt (Nat.add_le_add_left hk _) hg

theorem idsLeft_one_iff : g.IdsLeft 1 ↔ g.lastId ≠ topId := toNat_succ_lt_iff

/-- If there is an id left, the next one is given. -/
theorem nextId_eq (hg : g.IdsLeft 1) : g.nextId = .ok (g.lastId + 1) :=
  if_neg (idsLeft_one_iff.1 hg)

theorem nextId_eq_error (hg : ¬ g.IdsLeft 1) : g.nextId = .error .idsExhausted :=
  if_pos (not_not.1 (mt idsLeft_one_iff.2 hg))

/-- The id that is given is the next one. -/
theorem nextId_eq_ok {id : UInt32} (h : g.nextId = .ok id) :
    g.IdsLeft 1 ∧ id = g.lastId + 1 := by
  by_cases hg : g.IdsLeft 1
  · exact ⟨hg, Except.ok.inj (h.symm.trans (nextId_eq hg))⟩
  · rw [nextId_eq_error hg] at h
    cases h

/-- An object that was made has an id that was left, and the default values. -/
theorem createTag_spec (hcreate : g.createTag tag = .ok (r, h)) : g.IdsLeft 1 ∧
    ∃ l, g.model.layout tag = .ok l ∧ r = g.fresh tag ∧
      h = g.add tag ⟨{ id := g.lastId + 1 }, l.defaults⟩ := by
  obtain ⟨e, -, hcreate⟩ := bind_eq_ok.1 hcreate
  cases hc : e.kind.isConcrete <;> simp only [hc, Bool.not_true, Bool.not_false, if_true] at hcreate
  · cases hcreate
  · obtain ⟨l, hl, hcreate⟩ := bind_eq_ok.1 hcreate
    obtain ⟨id, hid, hcreate⟩ := bind_eq_ok.1 hcreate
    obtain ⟨hleft, rfl⟩ := nextId_eq_ok hid
    have hpair := pure_eq_ok.1 hcreate
    exact ⟨hleft, l, hl, (congrArg Prod.fst hpair).symm, (congrArg Prod.snd hpair).symm⟩

/-- Making an object adds one with the default values. -/
theorem createTag_eq_ok (hcreate : g.createTag tag = .ok (r, h)) :
    ∃ l, g.model.layout tag = .ok l ∧ r = g.fresh tag ∧
      h = g.add tag ⟨{ id := g.lastId + 1 }, l.defaults⟩ := (createTag_spec hcreate).2

/-- For objects of a concrete entity nothing is wanted but an id. -/
theorem createTag_eq {e : Entity} (hg : g.model.Built) (he : g.schema.entityAt? tag = some e)
    (hc : e.kind.isConcrete = true) : ∃ l, g.model.layout tag = .ok l ∧
      g.createTag tag = g.nextId.map fun id =>
        (g.fresh tag, { g.add tag ⟨{ id }, l.defaults⟩ with lastId := id }) := by
  obtain ⟨l, hl, -⟩ := hg.exists_layout he hc
  refine ⟨l, hl, ?_⟩
  rw [createTag, Model.entity_eq_ok.2 he]
  change (if !e.kind.isConcrete then _ else _) = _
  rw [hc, hl]
  cases g.nextId <;> rfl

/-- As long as there are ids, objects can be made of each concrete entity. -/
theorem exists_createTag {e : Entity} (hg : g.model.Built)
    (he : g.schema.entityAt? tag = some e) (hc : e.kind.isConcrete = true)
    (hleft : g.IdsLeft 1) : ∃ l, g.model.layout tag = .ok l ∧ g.createTag tag =
      .ok (g.fresh tag, g.add tag ⟨{ id := g.lastId + 1 }, l.defaults⟩) := by
  obtain ⟨l, hl, hcreate⟩ := createTag_eq hg he hc
  refine ⟨l, hl, ?_⟩
  rw [hcreate, nextId_eq hleft]
  rfl

/-- When the last id has been handed out, no object can be made. -/
theorem createTag_eq_error {e : Entity} (hg : g.model.Built)
    (he : g.schema.entityAt? tag = some e) (hc : e.kind.isConcrete = true)
    (hleft : ¬ g.IdsLeft 1) : g.createTag tag = .error .idsExhausted := by
  obtain ⟨l, -, hcreate⟩ := createTag_eq hg he hc
  rw [hcreate, nextId_eq_error hleft]
  rfl

/-- What there are objects of, more objects can be made of. -/
theorem WellTyped.exists_createTag (hg : g.WellTyped) (hr : g.contains r = true)
    (hh : h.model = g.model) (hleft : h.IdsLeft 1) : ∃ l : Layout, h.createTag r.tag =
      .ok (h.fresh r.tag, h.add r.tag ⟨{ id := h.lastId + 1 }, l.defaults⟩) := by
  obtain ⟨o, ho⟩ := contains_iff.1 hr
  obtain ⟨e, he, hc, -⟩ := hg.typed r o ho
  obtain ⟨l, -, hcreate⟩ := Graph.exists_createTag (hh ▸ hg.built)
    ((congrArg (·.schema.entityAt? r.tag) hh).trans he) hc hleft
  exact ⟨l, hcreate⟩

/-! ## Extensions -/

/-- `h` has the objects of `g`, and others only after those of their tags. -/
structure Extends (g h : Graph) : Prop where
  model : h.model = g.model
  stores : List.Forall₂ (· <+: ·) g.stores h.stores

theorem Extends.refl (g : Graph) : g.Extends g :=
  ⟨rfl, List.forall₂_same.2 fun _ _ => List.prefix_rfl⟩

/-- An extension may be extended. -/
theorem Extends.trans (hgh : g.Extends h) (hhk : h.Extends k) : g.Extends k where
  model := hhk.model.trans hgh.model
  stores := by
    have hlen := hgh.stores.length_eq
    have hlen' := hhk.stores.length_eq
    refine List.forall₂_iff_get.2 ⟨hlen.trans hlen', fun i hi hi' => ?_⟩
    exact (hgh.stores.get hi (hlen ▸ hi)).trans (hhk.stores.get (hlen ▸ hi) hi')

/-- An extension has the objects as they are. -/
theorem Extends.object? (hgh : g.Extends h) (ho : g.object? r = some o) :
    h.object? r = some o := by
  rw [Graph.object?, Option.bind_eq_some_iff] at ho
  obtain ⟨store, hstore, ho⟩ := ho
  obtain ⟨htag, rfl⟩ := List.getElem?_eq_some_iff.1 hstore
  have htag' : r.tag < h.stores.length := hgh.stores.length_eq ▸ htag
  have hprefix : g.stores[r.tag] <+: h.stores[r.tag] := hgh.stores.get htag htag'
  obtain ⟨hindex, rfl⟩ := List.getElem?_eq_some_iff.1 ho
  rw [Graph.object?, List.getElem?_eq_getElem htag', Option.bind_some]
  exact List.prefix_iff_getElem?.1 hprefix _ hindex

theorem Extends.contains (hgh : g.Extends h) (hr : g.contains r = true) : h.contains r = true := by
  obtain ⟨o, ho⟩ := contains_iff.1 hr
  exact contains_of_object? (hgh.object? ho)

theorem Extends.object?_eq (hgh : g.Extends h) (hr : g.contains r = true) :
    h.object? r = g.object? r := by
  obtain ⟨o, ho⟩ := contains_iff.1 hr
  rw [ho, hgh.object? ho]

theorem Extends.parent? (hgh : g.Extends h) (hr : g.contains r = true) :
    h.parent? r = g.parent? r := by
  rw [Graph.parent?, Graph.parent?, hgh.object?_eq hr]

theorem Extends.childrenOf (hgh : g.Extends h) (hr : g.contains r = true) :
    h.childrenOf r = g.childrenOf r := by
  rw [Graph.childrenOf, Graph.childrenOf, hgh.object?_eq hr]

theorem Extends.name? (hgh : g.Extends h) (hr : g.contains r = true) : h.name? r = g.name? r := by
  obtain ⟨o, ho⟩ := contains_iff.1 hr
  have hlayout : h.layout r = g.layout r := congrArg (Model.layout · r.tag) hgh.model
  rw [Graph.name?, Graph.name?, hlayout, ho, hgh.object? ho]

/-- An extension by one object more is one. -/
theorem Extends.add (hgh : g.Extends h) : g.Extends (h.add tag o) where
  model := hgh.model
  stores := by
    have hlen := hgh.stores.length_eq
    refine List.forall₂_iff_get.2 ⟨?_, fun i hi hi' => ?_⟩
    · rw [hlen, Graph.add, List.length_modify]
    · have hprefix := hgh.stores.get hi (hlen ▸ hi)
      simp only [List.get_eq_getElem, Graph.add, List.getElem_modify] at hprefix ⊢
      split
      · exact hprefix.trans (List.prefix_append _ _)
      · exact hprefix

/-- What `g` does not have can be changed. -/
theorem Extends.modify (hgh : g.Extends h) (hr : g.contains r = false) :
    g.Extends (h.modify r f) where
  model := hgh.model
  stores := by
    have hlen := hgh.stores.length_eq
    refine List.forall₂_iff_get.2 ⟨?_, fun i hi hi' => ?_⟩
    · rw [hlen, Graph.modify, List.length_modify]
    · have hprefix := hgh.stores.get hi (hlen ▸ hi)
      simp only [List.get_eq_getElem, Graph.modify, List.getElem_modify] at hprefix ⊢
      split
      · rename_i htag
        subst htag
        -- The change is behind the objects that `g` has of the tag.
        have hle : g.stores[r.tag].length ≤ r.index := by
          rw [contains_eq_decide, decide_eq_false_iff_not, count, List.getElem?_eq_getElem hi] at hr
          exact Nat.le_of_not_lt hr
        refine List.prefix_iff_getElem?.2 fun j hj => ?_
        rw [List.getElem?_modify_ne _ _ (Nat.ne_of_gt (Nat.lt_of_lt_of_le hj hle))]
        exact List.prefix_iff_getElem?.1 hprefix j hj
      · exact hprefix

end ObjectModel.Graph
