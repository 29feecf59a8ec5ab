import ObjectModel.Proofs.Cloning.Copies
import ObjectModel.Proofs.Schema.Chains

/-!
# Cloning as an isomorphism

Under the empty policy, and in a schema whose members carry no marks that
suggest otherwise, all references are cloned and none is shared
(`Cloning.copyable_empty`), whatever is bound. So cloning copies what an object
leads to by references and children, one new object for each, and the copies
refer to one another as their sources do (`Graph.cloneTree_isomorphic`). It is
not needed that they come in any order: cycles and sharing are found again.
-/

namespace ObjectModel

/-! ## The empty policy -/

namespace RawSchema

/-- No member refers up or to a type specification. -/
def Unmarked (s : RawSchema) : Prop :=
  ∀ e ∈ s.entities, ∀ m ∈ e.members,
    m.hasTag .backReference = false ∧ m.hasTag .typeSpecification = false

instance (s : RawSchema) : Decidable s.Unmarked :=
  inferInstanceAs (Decidable (∀ e ∈ s.entities, ∀ m ∈ e.members,
    m.hasTag .backReference = false ∧ m.hasTag .typeSpecification = false))

end RawSchema

namespace PolicyTable

theorem entityCloneOf_empty (chain : List Entity) : empty.entityCloneOf chain = .generic := by
  have hnone : (chain.findSome? fun e => empty.entityClone.get? e.name) = none :=
    List.findSome?_eq_none_iff.2 fun _ _ => rfl
  rw [entityCloneOf, hnone, Option.getD_none]

theorem memberCloneOf_empty (chain : List Entity) {m : Member}
    (hup : m.hasTag .backReference = false) (htype : m.hasTag .typeSpecification = false) :
    empty.memberCloneOf chain m = .deep := by
  have hnone : ((chain.map (·.name) ++ [anyEntity]).findSome? fun e =>
      empty.memberClone.get? (e, m.name)) = none :=
    List.findSome?_eq_none_iff.2 fun _ _ => rfl
  rw [memberCloneOf, hnone, hup, htype]
  rfl

end PolicyTable

namespace Cloning

/-- Under the empty policy objects are copied, whatever is bound. -/
theorem copyable_empty {σ : Type} [Bindings σ] {model : Model} {e : Entity}
    (hpolicy : model.policy = .empty) (hmarks : model.schema.Unmarked)
    (he : e ∈ model.schema.entities) : Copyable σ False model e := by
  have hgeneric := PolicyTable.entityCloneOf_empty (model.schema.chain e)
  rw [← hpolicy] at hgeneric
  refine ⟨fun kind h => ?_, fun h => ?_, fun name m hm _ deep source v => .inl ?_⟩
  · rw [hgeneric] at h
    cases h
  · rw [hgeneric] at h
    cases h
  · obtain ⟨d, hd, hm⟩ := RawSchema.exists_level hm he
    obtain ⟨hup, htype⟩ := hmarks d hd m hm
    rw [hgeneric, hpolicy]
    change applyPolicy deep _ source (PolicyTable.empty.memberCloneOf _ m) v = _
    rw [PolicyTable.memberCloneOf_empty _ hup htype]
    rfl

end Cloning

/-! ## Images -/

namespace Cloner

variable {σ : Type} {g : Graph} {D : Set Ref} {c : Cloner σ} {r s : Ref}

/-- Where nothing is shared, all references are replaced by images. -/
theorem turns_unshared {values copies : List Value}
    (h : List.Forall₂ (c.Turns False) values copies) :
    copies = values.map (·.map c.image) ∧ ∀ v ∈ values, ∀ q ∈ v.references, q ∈ c.sources := by
  induction h with
  | nil => exact ⟨rfl, fun _ hv => absurd hv List.not_mem_nil⟩
  | cons hv _ ih =>
    obtain ⟨rfl, hsources⟩ := hv.resolve_right fun h => h.1
    exact ⟨congrArg _ ih.1, List.forall_mem_cons.2 ⟨hsources, ih.2⟩⟩

/-- Where nothing is shared, a finished object is the image of its source in all
    of its parts. -/
theorem Finished.parts (h : c.Finished g False r s) :
    ∃ o p, g.object? r = some o ∧ c.graph.object? s = some p ∧
      p.values = o.values.map (·.map c.image) ∧
      p.header.children = o.header.children.map c.image ∧
      (p.header.file = o.header.file ∧ p.header.start = o.header.start ∧
        p.header.stop = o.header.stop) ∧ ∀ q ∈ o.parts, q ∈ c.sources := by
  obtain ⟨o, p, ho, hp, hspan, hchildren, hvalues⟩ := h
  obtain ⟨hchildren, hsources⟩ := hchildren.resolve_left id
  obtain ⟨hmap, hreferences⟩ := turns_unshared hvalues
  refine ⟨o, p, ho, hp, hmap, hchildren, hspan, fun q hq => ?_⟩
  rcases Object.mem_parts.1 hq with hq | ⟨v, hv, hq⟩
  · exact hsources q hq
  · exact hreferences v hv q hq

end Cloner

namespace Graph

variable {σ : Type} [Bindings σ] {g : Graph} {r : Ref}

/-- `b` is a part of the object `a`. -/
def HasPart (g : Graph) (a b : Ref) : Prop := ∃ o, g.object? a = some o ∧ b ∈ o.parts

/-- What an object leads to are objects with all of their parts. -/
theorem Whole.closed_reached (hg : g.Whole) (hr : g.contains r = true) :
    g.Closed {x | Relation.ReflTransGen g.HasPart r x} := by
  intro x hx
  suffices g.contains x = true by
    obtain ⟨o, ho⟩ := contains_iff.1 this
    exact ⟨o, ho, fun s hs => hx.tail ⟨o, ho, hs⟩⟩
  induction hx with
  | refl => exact hr
  | tail _ hpart _ =>
    obtain ⟨o, ho, hs⟩ := hpart
    exact hg _ o ho _ hs

/-- A deep clone is an isomorphic copy, apart from its source. Under the empty
    policy, in a schema without marks that suggest otherwise, and in whatever
    setting, cloning comes to an end if there is an id for each object. What became
    of the objects is a bijection from those that the object leads to, by references
    and children, onto all new objects. It

    * keeps tags;
    * gives the references of each clone, one by one, and its children, while
      scalars are kept, and the place in the source text.

    No part of a new object is an old one. -/
theorem cloneTree_isomorphic (hg : g.WellTyped) (hwhole : g.Whole) (hids : g.IdsLeft g.size)
    (hpolicy : g.model.policy = .empty) (hmarks : g.schema.Unmarked) (hr : g.contains r = true)
    (s : σ) (parent : Option Ref) :
    ∃ φ c, g.cloneTree s r parent = (.ok (φ r), c) ∧
      (∀ x y, c.cloned? x = some y ↔ Relation.ReflTransGen g.HasPart r x ∧ φ x = y) ∧
      Set.BijOn φ {x | Relation.ReflTransGen g.HasPart r x}
        {y | c.graph.contains y = true ∧ g.contains y = false} ∧
      (∀ x, Relation.ReflTransGen g.HasPart r x → (φ x).tag = x.tag ∧
        ∃ o p, g.object? x = some o ∧ c.graph.object? (φ x) = some p ∧
          p.values = o.values.map (·.map φ) ∧ p.header.children = o.header.children.map φ ∧
          p.header.file = o.header.file ∧ p.header.start = o.header.start ∧
          p.header.stop = o.header.stop) ∧
      ∀ y p, c.graph.object? y = some p → g.contains y = false →
        ∀ t ∈ p.parts, g.contains t = false := by
  obtain ⟨copy, c, hrun, hcopy, hc, hfinished⟩ := Cloning.exists_cloneTree hg
    (hwhole.closed_reached hr) hids (fun e he => Cloning.copyable_empty hpolicy hmarks he)
    (Relation.ReflTransGen.refl : _ ∈ {x | Relation.ReflTransGen g.HasPart r x}) s parent
  -- What was cloned is all that the object leads to.
  have hsource {x : Ref} : x ∈ c.sources ↔ Relation.ReflTransGen g.HasPart r x := by
    constructor
    · intro hx
      exact hc.source x _ (Cloner.cloned?_image hx)
    · intro hx
      induction hx with
      | refl => exact Cloner.mem_sources.2 ⟨copy, hcopy⟩
      | tail _ hpart ih =>
        obtain ⟨o, ho, hs⟩ := hpart
        obtain ⟨o', -, ho', -, -, -, -, hparts⟩ := (hfinished _ _ (Cloner.cloned?_image ih)).parts
        obtain rfl := Option.some.inj (ho.symm.trans ho')
        exact hparts _ hs
  have hcloned {x : Ref} (hx : Relation.ReflTransGen g.HasPart r x) :
      c.cloned? x = some (c.image x) := Cloner.cloned?_image (hsource.2 hx)
  refine ⟨c.image, c, ?_, fun x y => ⟨fun h => ?_, fun h => ?_⟩, ⟨?_, ?_, ?_⟩, fun x hx => ?_, ?_⟩
  · rw [Cloner.image_eq hcopy, hrun]
  · exact ⟨hc.source x y h, Cloner.image_eq h⟩
  · rw [hcloned h.1, h.2]
  · exact fun x hx => hc.image x _ (hcloned hx)
  · exact fun x hx y hy h => hc.injective x y _ (hcloned hx) (h ▸ hcloned hy)
  · rintro y ⟨hy, hnew⟩
    obtain ⟨x, hx⟩ := hc.onto y hy hnew
    exact ⟨x, hc.source x y hx, Cloner.image_eq hx⟩
  · obtain ⟨o, p, ho, hp, hvalues, hchildren, hspan, -⟩ := (hfinished _ _ (hcloned hx)).parts
    exact ⟨hc.tag x _ (hcloned hx), o, p, ho, hp, hvalues, hchildren, hspan⟩
  · intro y p hp hnew t ht
    obtain ⟨x, hx⟩ := hc.onto y (contains_of_object? hp) hnew
    obtain ⟨o, p', -, hp', hvalues, hchildren, -, hparts⟩ := (hfinished _ _ hx).parts
    obtain rfl := Option.some.inj (hp.symm.trans hp')
    -- What the clone has for parts are images.
    have hmap : p.parts = (o.map c.image).parts := by
      rw [Object.parts, hvalues, hchildren]
      rfl
    obtain ⟨q, hq, rfl⟩ := List.mem_map.1 (Object.parts_map ▸ hmap ▸ ht)
    exact (hc.image q _ (Cloner.cloned?_image (hparts q hq))).2

/-- Two nodes that refer to each other, one also a child of the other, are
    copied, while one that only refers to them is not. -/
theorem cloneTree_isomorphic_pair :
    let g := Network.graph .empty [{ next := some 1 },
      { name := "a", next := some 2, left := some [1, 2, 1], children := [2] },
      { name := "a", right := some [1], parent := some 1 }]
    ∃ φ c, g.cloneTree (Elaboration.bind {} "a" (Network.ref 0)) (Network.ref 1) none =
        (.ok (φ (Network.ref 1)), c) ∧
      Set.BijOn φ {x | Relation.ReflTransGen g.HasPart (Network.ref 1) x}
        {y | c.graph.contains y = true ∧ g.contains y = false} := by
  intro g
  obtain ⟨φ, c, hrun, -, hbij, -⟩ := cloneTree_isomorphic (g := g) (r := Network.ref 1)
    (Network.wellTyped _ _) (Network.whole (by decide)) (by decide) rfl (by decide)
    (Network.contains_ref.2 (by decide)) (Elaboration.bind {} "a" (Network.ref 0)) none
  exact ⟨φ, c, hrun, hbij⟩

end Graph

end ObjectModel
