import ObjectModel.Proofs.Cloning.Copies
import ObjectModel.Proofs.Comparison.Bisimulation

/-!
# Cloning without bindings

Where nothing is ever bound (`NoBindings`), every lookup comes to the object
that was looked up. So whatever a policy says of a member, the references in it
are all cloned or all shared, and objects are copied
(`Cloning.copyable_noBindings`). What is shared equals itself, and what is
cloned equals its clone, one depending on the other in cycles; all these pairs
together are consistent, so a clone compares equal to its source
(`Graph.compare_cloneTree`).
-/

namespace ObjectModel

namespace Cloning

/-! ## Lookups -/

section

variable {σ : Type} {α β : Type} {x : Cloning σ α} {f : α → Cloning σ β} {y : Cloning σ β} {a : α}

/-- What only reads does nothing but tell what it has read. -/
theorem bind_eq_of_reads (hx : ∀ c, ∃ a, x.run c = (.ok a, c) ∧ f a = y) : x >>= f = y := by
  funext c
  obtain ⟨a, ha, hf⟩ := hx c
  rw [← hf]
  exact run_bind_ok ha

/-- A value whose references are left is left. -/
theorem mapRefs_pure (v : Value) : mapRefs (pure : Ref → Cloning σ Ref) v = pure v := by
  cases v with
  | ref target => cases target <;> rfl
  | refs items =>
    cases items with
    | none => rfl
    | some l =>
      rw [mapRefs, List.mapM_pure, pure_bind, List.map_id']
  | _ => rfl

end

variable {deep : Ref → Cloning NoBindings Ref} {members : List Member} {source : List Value}
  {v : Value}

/-- Where nothing is bound, a reference is bound to itself. -/
theorem rebind_noBindings (key : String) : (rebind key : Ref → Cloning NoBindings Ref) = pure := rfl

/-- Only the policy that asks for it clones the objects in a member. -/
theorem applyPolicy_noBindings (policy : MemberClone) :
    applyPolicy deep members source policy v =
      if policy = .deep then mapRefs deep v else pure v := by
  cases policy with
  | deep => rfl
  | «alias» => rfl
  | uniquify => rfl
  | rebind key scope =>
    rw [if_neg MemberClone.noConfusion]
    cases scope with
    | referrer =>
      rw [applyPolicy]
      split
      · rw [rebind_noBindings, mapRefs_pure]
      · rfl
    | target =>
      -- Whether or not a key is found, the object stays.
      refine (congrArg (mapRefs · v) (funext fun r => ?_)).trans (mapRefs_pure v)
      exact bind_eq_of_reads fun c => ⟨_, rfl, by split <;> rfl⟩

theorem boundNet?_noBindings (r : Ref) :
    (boundNet? r : Cloning NoBindings (Option Ref)) = pure none :=
  bind_eq_of_reads fun c => ⟨_, rfl, by split <;> first | rfl | split <;> rfl⟩

/-- The objects in a member are cloned where nothing is bound. -/
def clonesDeep (policy : PolicyTable) (chain : List Entity) (custom : Option CustomClone)
    (m : Member) : Bool :=
  let deep := policy.memberCloneOf chain m == .deep
  match custom with
  | some .call => !policy.skipsTraversal chain m && deep
  | some .hierPath => !m.hasTag .backReference && deep
  | some .contAssign => true
  | _ => deep

/-- The objects in a member are all cloned, or all shared. -/
theorem cloneReferences_noBindings (policy : PolicyTable) (how : Method) (m : Member) :
    cloneReferences deep policy how members source m v =
      if clonesDeep policy how.chain how.custom m then mapRefs deep v else pure v := by
  obtain ⟨chain, custom, name⟩ := how
  have hpolicy : applyPolicy deep members source (policy.memberCloneOf chain m) v =
      if (policy.memberCloneOf chain m == .deep) = true then mapRefs deep v else pure v := by
    simp only [applyPolicy_noBindings, beq_iff_eq]
  -- Without bindings a lookup finds nothing, so what
  -- is left of a method is whether it clones at all.
  rcases custom with _ | custom
  · exact hpolicy
  cases custom with
  | call =>
    by_cases hskips : policy.skipsTraversal chain m = true
    · simp only [cloneReferences, clonesDeep, hskips, Bool.not_true, Bool.false_and,
        Bool.false_eq_true, if_true, if_false]
      exact mapRefs_pure v
    · simp only [cloneReferences, clonesDeep, Bool.eq_false_iff.2 hskips, Bool.not_false,
        Bool.true_and, Bool.false_eq_true, if_false]
      exact hpolicy
  | hierPath =>
    by_cases hback : m.hasTag .backReference = true
    · simp only [cloneReferences, clonesDeep, hback, Bool.not_true, Bool.false_and,
        Bool.false_eq_true, if_true, if_false]
      exact mapRefs_pure v
    · simp only [cloneReferences, clonesDeep, Bool.eq_false_iff.2 hback, Bool.not_false,
        Bool.true_and, Bool.false_eq_true, if_false]
      exact hpolicy
  | contAssign =>
    refine congrArg (mapRefs · v) (funext fun r => ?_)
    rw [boundNet?_noBindings, pure_bind]
  | taskFunc | constant | genScopeArray => exact hpolicy

/-- The references in a member are all cloned or all left. -/
theorem uniform_noBindings (policy : PolicyTable) (how : Method) (members : List Member) :
    Uniform NoBindings True policy how members := by
  intro m _ _ deep source v
  rw [cloneReferences_noBindings]
  split
  · exact .inl rfl
  · exact .inr ⟨trivial, rfl⟩

theorem copyable_noBindings (model : Model) (e : Entity) : Copyable NoBindings True model e where
  unbound kind _ _ _ := by cases kind <;> rfl
  constant _ := trivial
  uniform _ := uniform_noBindings _ _ _

end Cloning

/-! ## Sources and clones -/

namespace Cloner

variable {σ : Type} {g : Graph} {shares : Prop} {D : Set Ref} {c : Cloner σ} {v w : Value}

theorem Turns.fits {m : Member} (h : c.Turns shares v w) (hv : v.fits m = true) :
    w.fits m = true := by
  rcases h with ⟨rfl, -⟩ | ⟨-, rfl⟩
  · rwa [Value.fits_map]
  · exact hv

/-- What a value refers to after it was turned are images, or what it referred to. -/
theorem Turns.references {s : Ref} (h : c.Turns shares v w) (hs : s ∈ w.references) :
    (∃ r, c.cloned? r = some s) ∨ s ∈ v.references := by
  rcases h with ⟨rfl, hsources⟩ | ⟨-, rfl⟩
  · rw [Value.references_map] at hs
    obtain ⟨r, hr, rfl⟩ := List.mem_map.1 hs
    exact .inl ⟨r, cloned?_image (hsources r hr)⟩
  · exact .inr hs

section

variable {members : List Member} {values copies : List Value}

/-- The values of a copy fit its members. -/
theorem turns_fit (hvalues : List.Forall₂ (c.Turns shares) values copies)
    (hfits : List.Forall₂ (fun m v => Value.fits m v = true) members values) :
    List.Forall₂ (fun m v => Value.fits m v = true) members copies := by
  induction hvalues generalizing members with
  | nil => exact hfits
  | cons hv _ ih =>
    cases hfits with
    | cons hm hfits => exact .cons (hv.fits hm) (ih hfits)

/-- Each value of a copy has a source. -/
theorem exists_turns (hvalues : List.Forall₂ (c.Turns shares) values copies) (hw : w ∈ copies) :
    ∃ v ∈ values, c.Turns shares v w := by
  induction hvalues with
  | nil => cases hw
  | cons hv _ ih =>
    rcases List.mem_cons.1 hw with rfl | hw
    · exact ⟨_, List.mem_cons_self, hv⟩
    · obtain ⟨v, hmem, hturns⟩ := ih hw
      exact ⟨v, List.mem_cons_of_mem _ hmem, hturns⟩

end

section

variable (hc : c.Copying g D) (hfinished : ∀ a b, c.cloned? a = some b → c.Finished g shares a b)

include hc hfinished

/-- An object is one of `g`, or a finished image. -/
theorem Copying.cases {r : Ref} {o : Object} (ho : c.graph.object? r = some o) :
    g.object? r = some o ∨ ∃ q p, c.cloned? q = some r ∧ g.object? q = some p ∧
      List.Forall₂ (c.Turns shares) p.values o.values := by
  cases hlive : g.contains r with
  | true =>
    obtain ⟨p, hp⟩ := Graph.contains_iff.1 hlive
    obtain rfl := Option.some.inj ((hc.extension.object? hp).symm.trans ho)
    exact .inl hp
  | false =>
    obtain ⟨q, hq⟩ := hc.onto r (Graph.contains_of_object? ho) hlive
    obtain ⟨p, o', hp, ho', -, -, hvalues⟩ := hfinished q r hq
    obtain rfl := Option.some.inj (ho.symm.trans ho')
    exact .inr ⟨q, p, hq, hp, hvalues⟩

/-- When all copies are finished, the graph is well typed. -/
theorem Copying.wellTyped (hg : g.WellTyped) : c.graph.WellTyped where
  built := hc.extension.model ▸ hg.built
  typed r o ho := by
    have hmodel : c.graph.model = g.model := hc.extension.model
    rw [Graph.schema, hmodel]
    rcases hc.cases hfinished ho with ho | ⟨q, p, hq, hp, hvalues⟩
    · exact hg.typed r o ho
    · obtain ⟨e, he, hconcrete, hfits⟩ := hg.typed q p hp
      refine ⟨e, hc.tag q r hq ▸ he, hconcrete, ?_⟩
      exact turns_fit hvalues hfits

theorem Copying.live (hlive : g.Live) : c.graph.Live := by
  intro r o ho v hv s hs
  rcases hc.cases hfinished ho with ho | ⟨q, p, -, hp, hvalues⟩
  · exact hc.extension.contains (hlive r o ho v hv s hs)
  · obtain ⟨u, hu, hturns⟩ := exists_turns hvalues hv
    rcases hturns.references hs with ⟨t, ht⟩ | hs
    · exact (hc.image t s ht).1
    · exact hc.extension.contains (hlive q p hp u hu s hs)

end

/-- A value and what has become of it are related if references are related to
    their images, and to themselves. -/
theorem Turns.related {R : Ref → Ref → Prop} (h : c.Turns shares v w)
    (hself : ∀ r ∈ v.references, R r r) (himage : ∀ r s, c.cloned? r = some s → R r s) :
    v.Related R w := by
  rcases h with ⟨rfl, hsources⟩ | ⟨-, rfl⟩
  · exact Value.related_map fun r hr => himage r _ (cloned?_image (hsources r hr))
  · exact .refl hself

end Cloner

namespace Graph

variable {g : Graph} {r : Ref}

/-- A clone without bindings compares equal to its source. Under whatever policy,
    if members and children name objects only and there is an id for each object,
    each object is cloned: there is
    a new object, which compares equal to it in the graph that is left. -/
theorem compare_cloneTree (hg : g.WellTyped) (hwhole : g.Whole) (hids : g.IdsLeft g.size)
    (hr : g.contains r = true) (parent : Option Ref) :
    ∃ copy c, g.cloneTree NoBindings.none r parent = (.ok copy, c) ∧
      g.contains copy = false ∧
        ∃ o, compare c.graph c.graph r copy = .ok o ∧ o.ordering = .eq := by
  obtain ⟨copy, c, hrun, hcopy, hc, hfinished⟩ := Cloning.exists_cloneTree hg hwhole.closed hids
    (fun e _ => Cloning.copyable_noBindings g.model e) hr NoBindings.none parent
  have hlive := hc.live hfinished hwhole.live
  refine ⟨copy, c, hrun, (hc.image r copy hcopy).2, ?_⟩
  -- Each object is paired with itself and with its clone.
  refine compare_eq_of_related (S := {q | q.1 = q.2 ∧ c.graph.contains q.1 = true ∨
    c.cloned? q.1 = some q.2}) (hc.wellTyped hfinished hg) ?_ (.inr hcopy)
  rintro ⟨a, b⟩ (⟨rfl : a = b, ha⟩ | hab)
  · obtain ⟨o, ho⟩ := contains_iff.1 ha
    refine ⟨rfl, o, o, ho, ho, List.forall₂_same.2 fun v hv => .refl fun s hs => .inl ?_⟩
    exact ⟨rfl, hlive a o ho v hv s hs⟩
  · obtain ⟨o, p, ho, hp, -, -, hvalues⟩ := hfinished a b hab
    have ho' := hc.extension.object? ho
    refine ⟨(hc.tag a b hab).symm, o, p, ho', hp, ?_⟩
    refine List.forall₂_iff_zip.2 ⟨hvalues.length_eq, fun {v w} hvw => ?_⟩
    refine (List.forall₂_zip hvalues hvw).related (fun s hs => .inl ⟨rfl, ?_⟩) fun _ _ => .inr
    exact hlive a o ho' v (List.of_mem_zip hvw).1 s hs

/-- Two nodes that refer to each other, in members of which one is shared and one
    rebound, under a policy that takes clones from a table by their name. -/
theorem compare_cloneTree_pair :
    let policy := PolicyTable.empty.addAll [.memberClone "node" "left" .alias,
      .memberClone "*" "right" (.rebind "name" .target),
      .entityClone "node" (.dedupByName .net)]
    let g := Network.graph policy [
      { name := "a", next := some 1, left := some [0, 1], children := [1] },
      { name := "b", next := some 0, right := some [1, 0], parent := some 0 }]
    ∃ copy c, g.cloneTree NoBindings.none (Network.ref 0) none = (.ok copy, c) ∧
      g.contains copy = false ∧
        ∃ o, compare c.graph c.graph (Network.ref 0) copy = .ok o ∧ o.ordering = .eq := by
  intro policy g
  exact compare_cloneTree (Network.wellTyped _ _) (Network.whole (by decide))
    (by decide) (Network.contains_ref.2 (by decide)) none

end Graph

end ObjectModel
