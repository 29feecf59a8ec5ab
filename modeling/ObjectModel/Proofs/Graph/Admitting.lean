import ObjectModel.Proofs.Graph.Soundness
import ObjectModel.Proofs.Schema.Closures

/-!
# What members admit

A slot accepts values by the tags that were put down for it when the model was
made. These are the target tags that the resolution of the schema gives the
member (`Slot.accepts_iff_admits`). So soundness, which is about layouts, comes
to a statement about schemas: objects hold what the members of their entities
admit (`Graph.Sound.admitted`).
-/

namespace ObjectModel

/-! ## Models of declared schemas -/

theorem Model.built_of_ofResolution {r : Resolution} {policy : PolicyTable} {m : Model}
    (h : Model.ofResolution r policy = .ok m) :
    m.Built ∧ m.resolution = r ∧ m.policy = policy := by
  obtain ⟨layouts, -, hm⟩ := bind_eq_ok.1 h
  obtain rfl := pure_eq_ok.1 hm
  exact ⟨h, rfl, rfl⟩

/-- Where all members have target tags, there are layouts for them. -/
theorem Resolution.Exact.exists_model {r : Resolution} (hr : r.Exact) (policy : PolicyTable) :
    ∃ m, Model.ofResolution r policy = .ok m := by
  have hlayouts : ∀ e ∈ r.schema.entities, ∃ l, (if e.kind.isConcrete then
      some <$> Layout.ofMembers r (r.schema.membersBaseFirst e) else pure none :
        Except GraphError (Option Layout)) = .ok l := by
    intro e he
    split
    · obtain ⟨l, hl⟩ : ∃ l, Layout.ofMembers r (r.schema.membersBaseFirst e) = .ok l := by
        refine exists_mapM fun member hmember => ?_
        obtain ⟨tags, htags, -⟩ := hr.targetTags e he member hmember
        exact ⟨⟨member, tags⟩, by rw [htags]; rfl⟩
      exact ⟨some l, map_eq_ok.2 ⟨l, hl, rfl⟩⟩
    · exact ⟨none, rfl⟩
  obtain ⟨layouts, hlayouts⟩ := exists_mapM hlayouts
  exact ⟨_, bind_eq_ok.2 ⟨layouts, hlayouts, rfl⟩⟩

/-- In `g`, the member admits a value: it fits, and refers to objects that have
    target tags of the member. -/
def Resolution.Admits (r : Resolution) (g : Graph) (m : Member) (v : Value) : Prop :=
  v.fits m = true ∧ ∃ tags, r.targetTags m = .ok tags ∧
    ∀ s ∈ v.references, g.contains s = true ∧ s.tag ∈ tags

/-- A slot accepts what its member admits. -/
theorem Slot.accepts_iff_admits {r : Resolution} {g : Graph} {slot : Slot} {v : Value}
    (hslot : r.targetTags slot.member = .ok slot.targets) :
    slot.Accepts g v ↔ r.Admits g slot.member v := by
  rw [Accepts, Resolution.Admits, hslot]
  simp

namespace Graph

/-- Each object is of an entity that has objects, and holds one value for each of
    its members, which the member admits. -/
def Admitted (g : Graph) : Prop :=
  ∀ r o, g.object? r = some o → ∃ e, g.schema.entityAt? r.tag = some e ∧
    e.kind.isConcrete = true ∧
      List.Forall₂ (g.model.resolution.Admits g) (g.schema.membersBaseFirst e) o.values

/-- What is in the slots of a sound graph is what the members of the entities admit. -/
theorem Sound.admitted {g : Graph} (hg : g.Sound) : g.Admitted := by
  intro r o ho
  obtain ⟨l, hl, hvalues⟩ := hg.accepted r o ho
  rw [Layout.accepts_iff, List.forall₂_iff_zip] at hvalues
  refine hg.built.forall₂_members hl (List.forall₂_iff_zip.2 ⟨hvalues.1, fun {slot v} hmem => ?_⟩)
  have htargets := hg.built.targetTags_eq hl (List.of_mem_zip hmem).1
  exact (Slot.accepts_iff_admits htargets).1 (hvalues.2 hmem)

end Graph

end ObjectModel
