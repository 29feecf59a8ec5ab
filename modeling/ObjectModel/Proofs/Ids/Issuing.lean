import ObjectModel.Proofs.Adoption.Keeping

/-!
# Ids

Ids are handed out one after the other, as objects are made. So they are not zero, at
most the last one, and no two objects have the same (`Graph.Unique`), until they run
out. How many have been handed out since is known from what a graph has grown by
(`Graph.Issued`), as no object goes away again. Each operation keeps this
(`Graph.Issued.perform`), whether it fails or not: objects are made with the next id
(`Graph.Issued.add`), or changed, but for their ids (`Graph.Issued.modify`).
-/

namespace ObjectModel.Graph

variable {b g h : Graph} {r s : Ref} {o : Object} {l : Layout} {tag n : Nat} {f : Object → Object}

/-! ## Well-typed graphs -/

/-- An object comes to hold other values that fit. -/
theorem WellTyped.modify (hg : g.WellTyped) (hf : ∀ o e, g.object? r = some o →
      g.schema.entityAt? r.tag = some e →
      List.Forall₂ (fun m v => Value.fits m v = true) (g.schema.membersBaseFirst e) o.values →
      List.Forall₂ (fun m v => Value.fits m v = true) (g.schema.membersBaseFirst e) (f o).values) :
    (g.modify r f).WellTyped where
  built := hg.built
  typed s o ho := by
    rw [object?_modify] at ho
    split at ho
    · rename_i hs
      subst hs
      obtain ⟨p, hp, rfl⟩ := Option.map_eq_some_iff.1 ho
      obtain ⟨e, he, hc, hfits⟩ := hg.typed s p hp
      exact ⟨e, he, hc, hf p e hp he hfits⟩
    · exact hg.typed s o ho

/-- A new object has values that fit. -/
theorem WellTyped.add (hg : g.WellTyped) {header : Header} (htag : tag < g.stores.length)
    (hl : g.model.layout tag = .ok l) : (g.add tag ⟨header, l.defaults⟩).WellTyped where
  built := hg.built
  typed r o ho := by
    rw [object?_add htag] at ho
    split at ho
    · rename_i hr
      obtain rfl := Option.some.inj ho
      subst hr
      refine hg.built.forall₂_members hl ?_
      exact List.forall₂_map_right_iff.2 (List.forall₂_same.2 fun slot _ =>
        Value.fits_default slot.member)
    · exact hg.typed r o ho

/-- A value that fits is written into a slot. -/
theorem WellTyped.write {i : Nat} {slot : Slot} {v : Value} (hg : g.WellTyped)
    (ho : g.object? r = some o) (hl : g.layout r = .ok l) (hslot : l[i]? = some slot)
    (hv : v.fits slot.member = true) :
    (g.modify r fun p => { p with values := o.values.set i v }).WellTyped := by
  refine hg.modify fun p e hp he hfits => ?_
  obtain rfl := Option.some.inj (ho.symm.trans hp)
  obtain ⟨e', l', he', -, hl', hmembers, -⟩ := hg.object ho
  obtain rfl := Option.some.inj (he.symm.trans he')
  obtain rfl := Except.ok.inj (hl.symm.trans hl')
  refine forall₂_set hfits fun m hm => ?_
  rw [← hmembers, Layout.members, List.getElem?_map, hslot] at hm
  exact Option.some.inj hm ▸ hv

/-! ## Unique ids -/

/-- Ids are not zero, at most the last one that was handed out, and different objects
    have different ones. -/
structure Unique (g : Graph) : Prop where
  ne_zero : ∀ r o, g.object? r = some o → o.header.id ≠ 0
  le_lastId : ∀ r o, g.object? r = some o → o.header.id ≤ g.lastId
  injective : ∀ r s o p, g.object? r = some o → g.object? s = some p →
    o.header.id = p.header.id → r = s

/-- Ids stay unique if no change touches them. -/
theorem Unique.modify (hg : g.Unique) (hf : ∀ o, (f o).header.id = o.header.id) :
    (g.modify r f).Unique := by
  have hobject s o (ho : (g.modify r f).object? s = some o) :
      ∃ p, g.object? s = some p ∧ p.header.id = o.header.id := by
    rw [object?_modify] at ho
    split at ho
    · obtain ⟨p, hp, rfl⟩ := Option.map_eq_some_iff.1 ho
      exact ⟨p, hp, (hf p).symm⟩
    · exact ⟨o, ho, rfl⟩
  refine ⟨fun s o ho => ?_, fun s o ho => ?_, fun s t o p ho hp hid => ?_⟩
  · obtain ⟨q, hq, hid⟩ := hobject s o ho
    exact hid ▸ hg.ne_zero s q hq
  · obtain ⟨q, hq, hid⟩ := hobject s o ho
    exact hid ▸ hg.le_lastId s q hq
  · obtain ⟨q, hq, hoq⟩ := hobject s o ho
    obtain ⟨q', hq', hpq⟩ := hobject t p hp
    exact hg.injective s t q q' hq hq' (hoq.trans (hid.trans hpq.symm))

/-- The next id is larger than all that there are. -/
theorem Unique.lt_succ (hg : g.Unique) (hlast : g.lastId.toNat + 1 < 2 ^ 32)
    (ho : g.object? r = some o) : o.header.id < g.lastId + 1 := by
  have hle : o.header.id.toNat ≤ g.lastId.toNat := hg.le_lastId r o ho
  rw [UInt32.lt_iff_toNat_lt, toNat_succ hlast]
  exact Nat.lt_succ_of_le hle

/-- An object with the next id is added. -/
theorem Unique.add (hg : g.Unique) (htag : tag < g.stores.length)
    (hlast : g.lastId.toNat + 1 < 2 ^ 32) (hid : o.header.id = g.lastId + 1) :
    (g.add tag o).Unique := by
  refine ⟨fun s p hp => ?_, fun s p hp => ?_, fun s t p q hp hq heq => ?_⟩
  · rw [object?_add htag] at hp
    split at hp
    · obtain rfl := Option.some.inj hp
      intro hzero
      have hsucc := toNat_succ hlast
      rw [← hid, hzero] at hsucc
      cases hsucc
    · exact hg.ne_zero s p hp
  · rw [object?_add htag] at hp
    rw [lastId_add]
    split at hp
    · obtain rfl := Option.some.inj hp
      exact hid ▸ UInt32.le_refl _
    · exact UInt32.le_of_lt (hg.lt_succ hlast hp)
  · rw [object?_add htag] at hp hq
    -- Of two objects with one id both are new or both are
    -- old: an id that was given is not above the last one.
    split at hp <;> split at hq
    · rename_i hs ht
      exact hs.trans ht.symm
    · obtain rfl := Option.some.inj hp
      exact absurd (heq.symm.trans hid) (UInt32.ne_of_lt (hg.lt_succ hlast hq))
    · obtain rfl := Option.some.inj hq
      exact absurd (heq.trans hid) (UInt32.ne_of_lt (hg.lt_succ hlast hp))
    · exact hg.injective s t p q hp hq heq

/-! ## Ids that have been handed out -/

/-- The graph has grown out of `b`, whose objects have kept their ids. If at most `n`
    ids had been handed out before, and ids have not run out since, they are unique, and
    the last one tells how many there were at most. -/
structure Issued (b : Graph) (n : Nat) (g : Graph) : Prop where
  model : g.model = b.model
  wellTyped : g.WellTyped
  numbered : g.schema.Numbered
  places : g.stores.length = g.model.layouts.length
  grown : b.size ≤ g.size
  kept : ∀ r o, b.object? r = some o → ∃ p, g.object? r = some p ∧ p.header.id = o.header.id
  unique : n + (g.size - b.size) < 2 ^ 32 →
    g.Unique ∧ g.lastId.toNat ≤ n + (g.size - b.size)

/-- A graph that has just come about. -/
theorem issued_self (hg : g.WellTyped) (hnum : g.schema.Numbered)
    (hplaces : g.stores.length = g.model.layouts.length)
    (hunique : n < 2 ^ 32 → g.Unique ∧ g.lastId.toNat ≤ n) : g.Issued n g where
  model := rfl
  wellTyped := hg
  numbered := hnum
  places := hplaces
  grown := Nat.le_refl _
  kept _ o ho := ⟨o, ho, rfl⟩
  unique := by
    rw [Nat.sub_self]
    exact hunique

/-- Ids are unique as long as there have not been more than there are. -/
theorem Issued.unique_self (hg : g.Issued n g) (hn : n < 2 ^ 32) :
    g.Unique ∧ g.lastId.toNat ≤ n := by
  have hunique := hg.unique
  rw [Nat.sub_self] at hunique
  exact hunique hn

/-- In an empty graph no id has been handed out. -/
theorem issued_empty {m : Model} (hm : m.Built) (hnum : m.schema.Numbered) :
    (empty m).Issued 0 (empty m) := by
  have hnone {r : Ref} {o : Object} (ho : (empty m).object? r = some o) : False := by
    rw [object?_empty] at ho
    cases ho
  refine issued_self (Sound.empty hm).wellTyped hnum (Sound.empty hm).stores fun _ => ?_
  exact ⟨⟨fun _ _ ho => (hnone ho).elim, fun _ _ ho => (hnone ho).elim,
    fun _ _ _ _ ho => (hnone ho).elim⟩, Nat.zero_le _⟩

/-- One can go on from what a graph has become. -/
theorem Issued.onward (hg : b.Issued n g) : g.Issued (n + (g.size - b.size)) g :=
  issued_self hg.wellTyped hg.numbered hg.places hg.unique

/-- Objects that `b` does not have are new, and so are their ids. -/
theorem Issued.fresh (hg : b.Issued n g) (hn : n + (g.size - b.size) < 2 ^ 32)
    (ho : g.object? r = some o) (hr : b.contains r = false) {p : Object}
    (hp : b.object? s = some p) : o.header.id ≠ p.header.id := by
  intro hid
  obtain ⟨q, hq, hqp⟩ := hg.kept s p hp
  obtain rfl := (hg.unique hn).1.injective r s o q ho hq (hid.trans hqp.symm)
  rw [contains_eq_false, hp] at hr
  cases hr

/-- Objects may change, but for their ids. -/
theorem Issued.modify (hg : b.Issued n g) (htyped : (g.modify r f).WellTyped)
    (hf : ∀ o, (f o).header.id = o.header.id) : b.Issued n (g.modify r f) where
  model := hg.model
  wellTyped := htyped
  numbered := hg.numbered
  places := (List.length_modify _ _ _).trans hg.places
  grown := size_modify.symm ▸ hg.grown
  kept s o ho := by
    obtain ⟨p, hp, hid⟩ := hg.kept s o ho
    rw [object?_modify]
    split
    · exact ⟨f p, by rw [hp]; rfl, (hf p).trans hid⟩
    · exact ⟨p, hp, hid⟩
  unique hn := by
    rw [size_modify] at hn ⊢
    obtain ⟨hunique, hlast⟩ := hg.unique hn
    exact ⟨hunique.modify hf, hlast⟩

theorem Issued.layout_eq (hg : b.Issued n g) : g.layout r = b.model.layout r.tag := by
  rw [layout, hg.model]

theorem Issued.tag_lt (hg : b.Issued n g) (hl : g.model.layout tag = .ok l) :
    tag < g.stores.length :=
  hg.places ▸ Model.lt_of_layout_eq_ok hl

/-- Objects are made with the next id. -/
theorem Issued.add (hg : b.Issued n g) {header : Header} (hl : g.model.layout tag = .ok l)
    (hid : header.id = g.lastId + 1) : b.Issued n (g.add tag ⟨header, l.defaults⟩) where
  model := hg.model
  wellTyped := hg.wellTyped.add (hg.tag_lt hl) hl
  numbered := hg.numbered
  places := (List.length_modify _ _ _).trans hg.places
  grown := by
    rw [size_add (hg.tag_lt hl)]
    exact Nat.le_succ_of_le hg.grown
  kept r o ho := by
    obtain ⟨p, hp, hid⟩ := hg.kept r o ho
    exact ⟨p, (Extends.refl g).add.object? hp, hid⟩
  unique hn := by
    have hgrown := hg.grown
    rw [size_add (hg.tag_lt hl)] at hn ⊢
    obtain ⟨hunique, hcount⟩ := hg.unique (by omega)
    have hlast : g.lastId.toNat + 1 < 2 ^ 32 := by omega
    refine ⟨hunique.add (hg.tag_lt hl) hlast hid, ?_⟩
    rw [lastId_add, toNat_succ hlast]
    omega

/-- An object is made with the next id. -/
theorem Issued.createTag (hg : b.Issued n g) (hcreate : g.createTag tag = .ok (r, h)) :
    b.Issued n h := by
  obtain ⟨l, hl, -, rfl⟩ := createTag_eq_ok hcreate
  exact hg.add hl rfl

/-- Headers may change, but for their ids. -/
theorem Issued.updateHeader (hg : b.Issued n g) {f : Header → Header}
    (hf : ∀ header, (f header).id = header.id) (hupdate : g.updateHeader r f = .ok h) :
    b.Issued n h := by
  obtain ⟨o, -, hh⟩ := bind_eq_ok.1 hupdate
  obtain rfl := pure_eq_ok.1 hh
  exact hg.modify (hg.wellTyped.modify fun _ _ _ _ hfits => hfits) fun o => hf o.header

/-- What writes into members, and changes headers but for their ids, hands out no ids. -/
theorem adoptive_issued (b : Graph) (n : Nat) :
    Adoptive fun g h => b.Issued n g → b.Issued n h where
  refl _ := id
  trans _ _ _ hgh hhk := hhk ∘ hgh
  updateHeader _ _ _ _ hf hupdate hg := hg.updateHeader hf hupdate
  set g h r member v hset hg := by
    obtain ⟨o, l, i, slot, v, ho, hl, -, hslot, hv, rfl⟩ := writes_of_set hset
    exact hg.modify (hg.wellTyped.write ho hl hslot hv.1) fun _ => rfl
  push g h r member item hpush hg := by
    obtain ⟨o, l, i, slot, items, ho, hl, -, hslot, hv, -, rfl⟩ :=
      hg.wellTyped.exists_of_push hpush
    refine hg.modify (hg.wellTyped.write ho hl hslot ?_) fun _ => rfl
    obtain ⟨v, hv', hfits⟩ := hg.wellTyped.exists_value ho hl hslot
    obtain rfl := Option.some.inj (hv.symm.trans hv')
    exact Value.fits_refs hfits

/-- Each operation hands out ids in turn, if any, whether it fails or not. -/
theorem Issued.perform (hg : b.Issued n g) (op : Operation) : b.Issued n (g.perform op) :=
  (adoptive_issued b n).perform (fun _ _ _ _ hcreate hg => hg.createTag hcreate) g op hg

end ObjectModel.Graph
