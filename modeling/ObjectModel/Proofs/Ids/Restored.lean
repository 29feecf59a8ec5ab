import ObjectModel.Proofs.Archive.Format
import ObjectModel.Proofs.Ids.Runs

/-!
# Ids after restoring

Ids in an archive are taken as they are, and the next one follows on the highest of
them. So objects can be made in a restored graph, under ids of their own, unless the
highest id that there can be (`Graph.topId`) is among those restored. Then there is none
left, and no object can be made (`Graph.createTag_of_restore`).
-/

namespace ObjectModel

open Wire

namespace Graph

variable {g h : Graph} {m : Model} {bytes : List UInt8} {roots : List Ref} {id : UInt32}
  {tag : Nat} {e : Entity}

/-- Some object has the id. -/
def HasId (g : Graph) (id : UInt32) : Prop := ∃ r o, g.object? r = some o ∧ o.header.id = id

/-- The highest id that there can be is the highest one of objects just if some object
    has it. -/
theorem maxId_eq_topId_iff : Restoring.maxId g = topId ↔ g.HasId topId := by
  constructor
  · intro h
    by_contra hnone
    -- Otherwise no id is higher than the last but one.
    have hle : Restoring.maxId g ≤ topId - 1 := Restoring.maxId_le_iff.2 fun r o ho => by
      have hne : o.header.id ≠ topId := fun hid => hnone ⟨r, o, ho, hid⟩
      have hlt := toNat_succ_lt_iff.2 hne
      have htop : (topId - 1).toNat = 2 ^ 32 - 2 := rfl
      rw [UInt32.le_iff_toNat_le, htop]
      omega
    rw [h] at hle
    exact absurd hle (by decide)
  · rintro ⟨r, o, ho, hid⟩
    have hle : topId ≤ Restoring.maxId g :=
      hid ▸ Restoring.maxId_le_iff.1 (UInt32.le_refl _) r o ho
    have hlt := (Restoring.maxId g).toNat_lt
    have htop : topId.toNat = 2 ^ 32 - 1 := rfl
    rw [UInt32.le_iff_toNat_le, htop] at hle
    rw [← UInt32.toNat_inj, htop]
    omega

/-- As long as there is an id left, it is higher than all others. -/
theorem lt_succ_maxId {r : Ref} {o : Object} (htop : ¬ g.HasId topId)
    (ho : g.object? r = some o) : o.header.id < Restoring.maxId g + 1 := by
  have hlast : (Restoring.maxId g).toNat + 1 < 2 ^ 32 :=
    toNat_succ_lt_iff.2 (mt maxId_eq_topId_iff.1 htop)
  have hle := UInt32.le_iff_toNat_le.1 (Restoring.maxId_le_iff.1 (UInt32.le_refl _) r o ho)
  rw [UInt32.lt_iff_toNat_lt, toNat_succ hlast]
  exact Nat.lt_succ_of_le hle

/-- Whether one can go on making objects in a restored graph depends on nothing but the
    ids in it. For each concrete entity,

    * if the highest possible id has not been restored, there is a new object, which comes
      after those restored and has a higher id than any of them;
    * if it has been, there is no id for another object. -/
theorem createTag_of_restore (hm : m.Built) (hrestore : m.restore bytes = .ok (g, roots))
    (he : m.schema.entityAt? tag = some e) (hc : e.kind.isConcrete = true) :
    (¬ g.HasId topId → ∃ r h o, g.createTag tag = .ok (r, h) ∧ g.contains r = false ∧
      g.Extends h ∧ h.object? r = some o ∧
      ∀ s p, g.object? s = some p → p.header.id < o.header.id) ∧
    (g.HasId topId → g.createTag tag = .error .idsExhausted) := by
  obtain ⟨rfl, hplaces, hlast⟩ := frame_of_restore hrestore
  have hleft : g.IdsLeft 1 ↔ ¬ g.HasId topId := by
    rw [idsLeft_one_iff, hlast, ne_eq, maxId_eq_topId_iff]
  refine ⟨fun htop => ?_, fun htop => ?_⟩
  · obtain ⟨l, hl, hcreate⟩ := exists_createTag hm he hc (hleft.2 htop)
    have htag : tag < g.stores.length := hplaces ▸ Model.lt_of_layout_eq_ok hl
    refine ⟨_, _, _, hcreate, contains_fresh, (Extends.refl g).add, object?_add_fresh htag,
      fun s p hp => ?_⟩
    rw [hlast]
    exact lt_succ_maxId htop hp
  · exact createTag_eq_error hm he hc (mt hleft.1 (not_not_intro htop))

end Graph

namespace Archive

/-- The archive of two nodes that refer to nothing, by their ids. -/
def ofIds (first second : UInt32) : Archive where
  preamble := .current
  symbols := []
  roots := [⟨0, 1⟩, ⟨0, 2⟩]
  sections := [⟨0, [first, second].map fun id =>
    ⟨⟨id, ⟨0, 0⟩, 0, ⟨0, 0⟩, ⟨0, 0⟩, []⟩, [.symbol 0, .one ⟨0, 0⟩, .unmade, .unmade]⟩⟩]

end Archive

/-- After the ids nine and three there comes a higher one. -/
theorem Graph.createTag_of_restore_nodes : ∃ g roots r h o,
    (Network.model {}).restore (encodeAll (Archive.ofIds 9 3).items) = .ok (g, roots) ∧
      g.createTag 0 = .ok (r, h) ∧ h.object? r = some o ∧ 9 < o.header.id := by
  have hids : ((Network.model {}).restore (encodeAll (Archive.ofIds 9 3).items)).map
      (fun e => (Restoring.maxId e.1, (e.1.object? (Network.ref 0)).map (·.header.id))) =
        .ok (9, some 9) := by decide +kernel
  obtain ⟨⟨g, roots⟩, hrestore, hpair⟩ := map_eq_ok.1 hids
  obtain ⟨hmax, hnine⟩ := Prod.mk.inj hpair
  obtain ⟨p, hp, hid⟩ := Option.map_eq_some_iff.1 hnine
  have htop : ¬ g.HasId topId := mt maxId_eq_topId_iff.2 (by rw [hmax]; decide)
  have hentity : (Network.model {}).schema.entityAt? 0 = some Network.entity := rfl
  obtain ⟨hmake, -⟩ := createTag_of_restore (Network.built {}) hrestore hentity rfl
  obtain ⟨r, h, o, hcreate, -, -, ho, hhigher⟩ := hmake htop
  exact ⟨g, roots, r, h, o, hrestore, hcreate, ho, hid ▸ hhigher _ p hp⟩

/-- After the highest id there comes none, though the archive is restored. -/
theorem Graph.createTag_exhausted : ∃ g roots,
    (Network.model {}).restore (encodeAll (Archive.ofIds Graph.topId 0).items) =
      .ok (g, roots) ∧ ¬ g.lastId.toNat + 1 < 2 ^ 32 ∧ ∀ made, g.createTag 0 ≠ .ok made := by
  have h : ((Network.model {}).restore (encodeAll (Archive.ofIds topId 0).items)).map
      (fun e => (e.1.lastId, (e.1.createTag 0).isOk)) = .ok (topId, false) := by decide +kernel
  obtain ⟨⟨g, roots⟩, hrestore, hpair⟩ := map_eq_ok.1 h
  obtain ⟨hlast, hfails⟩ := Prod.mk.inj hpair
  refine ⟨g, roots, hrestore, by rw [hlast]; decide, fun made hmade => ?_⟩
  rw [show g.createTag 0 = .ok made from hmade] at hfails
  cases hfails

end ObjectModel
