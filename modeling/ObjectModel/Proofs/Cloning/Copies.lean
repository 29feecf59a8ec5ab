import ObjectModel.Proofs.Cloning.Copying
import ObjectModel.Proofs.Cloning.Making

/-!
# What is copied

What is asked of a setting for objects to be copied is that none is taken for
another that is bound to its name, and that the references in a member are
either all cloned or all shared (`Cloning.Copyable`). Then every part of cloning
advances the copying; the depth that it needs is the number of objects that
remain to be copied (`Cloning.Copies`).

* `Cloning.Copies.generic`: cloning an object member by member copies it,
  provided that what it refers to is copied;
* `Cloning.copies_cloneUpTo`: cloning of sufficient depth copies objects.
* `Cloning.exists_cloneTree`: so it comes to an end, with everything finished.
-/

namespace ObjectModel

/-- The way of their own in which objects are cloned, if there is one. -/
def EntityClone.custom? : EntityClone → Option CustomClone
  | .custom kind => some kind
  | _ => none

namespace Cloning

variable {σ : Type} {g : Graph} {shares : Prop} {D : Set Ref} {n : Nat} {c : Cloner σ} {r : Ref}

/-- The state in which a part of cloning ends that begins in `c`. -/
def Copied (g : Graph) (shares : Prop) (D : Set Ref) (c c' : Cloner σ) : Prop :=
  c.Advances g shares c' ∧ c'.Copying g D

/-- `clone` copies single objects, as long as less than `n` of them remain to
    be copied. -/
def Copies (g : Graph) (shares : Prop) (D : Set Ref) (n : Nat)
    (clone : Ref → Option Ref → Cloning σ Ref) : Prop :=
  ∀ c r p, c.Copying g D → r ∈ D → remaining g.refs c.sources < n →
    Ends (clone r p) c (fun s c' => c'.cloned? r = some s ∧ Copied g shares D c c') fun _ => False

variable {clone : Ref → Option Ref → Cloning σ Ref} {p : Option Ref} {items copies : List Ref}

/-- What was cloned from a list are its images. -/
theorem forall₂_cloned (h : List.Forall₂ (fun r s => c.cloned? r = some s) items copies) :
    copies = items.map c.image ∧ ∀ r ∈ items, r ∈ c.sources := by
  induction h with
  | nil => exact ⟨rfl, fun _ hr => absurd hr List.not_mem_nil⟩
  | cons hr _ ih =>
    refine ⟨by rw [List.map_cons, Cloner.image_eq hr, ih.1], List.forall_mem_cons.2 ⟨?_, ih.2⟩⟩
    exact Cloner.mem_sources.2 ⟨_, hr⟩

/-- The elements of a list are copied one after the other. -/
theorem Copies.mapM (hclone : Copies g shares D n clone) (hitems : ∀ r ∈ items, r ∈ D)
    (hc : c.Copying g D) (hn : remaining g.refs c.sources < n) :
    Ends (items.mapM (clone · p)) c (fun copies c' =>
      (copies = items.map c'.image ∧ ∀ r ∈ items, r ∈ c'.sources) ∧ Copied g shares D c c')
      fun _ => False := by
  have hlasting : Lasting (fun c c' : Cloner σ => c.Advances g shares c')
      fun r s c => c.cloned? r = some s :=
    fun r s _ _ h hs => h.cloned r s hs
  have hall := Ends.mapM (l := items) (f := (clone · p)) (E := fun _ => False)
    (I := fun c => c.Copying g D ∧ remaining g.refs c.sources < n)
    (.refl g shares) (fun _ _ _ => .trans) hlasting (fun r hr c hc => ?_) ⟨hc, hn⟩
  · exact hall.mono (fun copies c' h => ⟨forall₂_cloned h.1, h.2.1, h.2.2.1⟩) fun _ h => h
  · exact (hclone c r p hc.1 (hitems r hr) hc.2).mono
      (fun s c' h => ⟨h.1, h.2.1, h.2.2, h.2.1.remaining_lt hc.2⟩) fun _ h => h

/-- The references in a value are replaced by images. -/
theorem Copies.mapRefs (hclone : Copies g shares D n clone) {v : Value}
    (hv : ∀ r ∈ v.references, r ∈ D) (hc : c.Copying g D) (hn : remaining g.refs c.sources < n) :
    Ends (Cloning.mapRefs (clone · p) v) c (fun w c' =>
      (w = v.map c'.image ∧ ∀ r ∈ v.references, r ∈ c'.sources) ∧ Copied g shares D c c')
      fun _ => False := by
  have hnone {v : Value} (h : v.references = []) : Ends (pure v : Cloning σ Value) c (fun w c' =>
      (w = v.map c'.image ∧ ∀ r ∈ v.references, r ∈ c'.sources) ∧ Copied g shares D c c')
      fun _ => False :=
    .pure ⟨⟨(Value.map_eq_self h).symm, fun r hr => by rw [h] at hr; cases hr⟩, .refl .., hc⟩
  -- Only a reference or a list has something to be cloned.
  cases v with
  | ref target =>
    cases target with
    | none => exact hnone rfl
    | some r =>
      refine (hclone c r p hc (hv r List.mem_cons_self) hn).bind fun s c' ⟨hs, hc'⟩ => ?_
      refine .pure ⟨⟨?_, fun q hq => ?_⟩, hc'⟩
      · rw [Value.map, Option.map_some, Cloner.image_eq hs]
      · rw [List.mem_singleton.1 hq]
        exact Cloner.mem_sources.2 ⟨s, hs⟩
  | refs items =>
    cases items with
    | none => exact hnone rfl
    | some l =>
      refine (hclone.mapM hv hc hn).bind fun copies c' ⟨⟨hcopies, hsources⟩, hc'⟩ => ?_
      refine .pure ⟨⟨?_, hsources⟩, hc'⟩
      rw [Value.map, Option.map_some, hcopies]
      rfl
  | _ => exact hnone rfl

/-! ## Copying objects -/

section

variable (σ : Type) [Bindings σ] (shares : Prop)

/-- In an object that is cloned in this way, the references in a member are all
    cloned, or are shared, provided that they may be. -/
def Uniform (policy : PolicyTable) (how : Method) (members : List Member) : Prop :=
  ∀ m ∈ members, m.isReference = true → ∀ (deep : Ref → Cloning σ Ref) source v,
    cloneReferences deep policy how members source m v = mapRefs deep v ∨
      shares ∧ cloneReferences deep policy how members source m v = pure v

/-- Objects of `e` are copied when they are cloned. -/
structure Copyable (model : Model) (e : Entity) : Prop where
  unbound : ∀ kind, model.policy.entityCloneOf (model.schema.chain e) = .dedupByName kind →
    ∀ name (s : σ), bound? kind name s = none
  constant : model.policy.entityCloneOf (model.schema.chain e) = .custom .constant → shares
  uniform : ∀ name, Uniform σ shares model.policy ⟨model.schema.chain e,
    (model.policy.entityCloneOf (model.schema.chain e)).custom?, name⟩
      (model.schema.membersBaseFirst e)

end

section

variable [Bindings σ] {model : Model} {how : Method} {e : Entity} {chain : List Entity}
  {custom : Option CustomClone} {members : List Member} {source values : List Value} {copy : Ref}

/-- References in a member are replaced by images, or are all left. -/
theorem Copies.cloneReferences (hclone : Copies g shares D n clone) {m : Member} {v : Value}
    (huniform : Uniform σ shares model.policy how members) (hm : m ∈ members)
    (href : m.isReference = true) (hv : ∀ r ∈ v.references, r ∈ D) (hc : c.Copying g D)
    (hn : remaining g.refs c.sources < n) :
    Ends (Cloning.cloneReferences (clone · p) model.policy how members source m v) c
      (fun w c' => c'.Turns shares v w ∧ Copied g shares D c c') fun _ => False := by
  rcases huniform m hm href (clone · p) source v with h | ⟨hs, h⟩
  · rw [h]
    exact (hclone.mapRefs hv hc hn).mono (fun w c' h => ⟨.inl h.1, h.2⟩) fun _ h => h
  · rw [h]
    exact .pure ⟨.inr ⟨hs, rfl⟩, .refl .., hc⟩

/-- The values of an object turn one after the other. -/
theorem Copies.mapMembers (hclone : Copies g shares D n clone)
    (huniform : Uniform σ shares model.policy how members)
    (hfits : List.Forall₂ (fun m v => Value.fits m v = true) members values)
    (hv : ∀ v ∈ values, ∀ r ∈ v.references, r ∈ D) (hc : c.Copying g D)
    (hn : remaining g.refs c.sources < n) :
    Ends ((members.zip values).mapM fun (m, v) =>
        if m.isReference then
          Cloning.cloneReferences (clone · p) model.policy how members source m v
        else pure v) c
      (fun copies c' => List.Forall₂ (c'.Turns shares) values copies ∧ Copied g shares D c c')
      fun _ => False := by
  -- What a value has turned into stays right as the memo grows.
  have hlasting : Lasting (fun c c' : Cloner σ => c.Advances g shares c')
      fun (mv : Member × Value) w c => c.Turns shares mv.2 w := fun _ _ _ _ h hv => h.turns hv
  have hall := Ends.mapM (l := members.zip values) (E := fun _ => False)
    (I := fun c => c.Copying g D ∧ remaining g.refs c.sources < n)
    (f := fun (m, v) => if m.isReference then
        Cloning.cloneReferences (clone · p) model.policy how members source m v
      else pure v)
    (.refl g shares) (fun _ _ _ => .trans) hlasting (fun mv hmv c hc => ?_) ⟨hc, hn⟩
  · refine hall.mono (fun copies c' h => ⟨?_, h.2.1, h.2.2.1⟩) fun _ h => h
    have hsnd : (members.zip values).map Prod.snd = values :=
      List.map_snd_zip hfits.length_eq.ge
    rw [← hsnd]
    exact List.forall₂_map_left_iff.2 h.1
  · obtain ⟨m, v⟩ := mv
    obtain ⟨hm, hmem⟩ := List.of_mem_zip hmv
    have hrefs := hv v hmem
    dsimp only
    split
    · rename_i href
      exact (hclone.cloneReferences huniform hm href hrefs hc.1 hc.2).mono
        (fun w c' h => ⟨h.1, h.2.1, h.2.2, h.2.1.remaining_lt hc.2⟩) fun _ h => h
    · -- A scalar has no references, so nothing becomes of it.
      rename_i hscalar
      have hnone : v.references = [] := by
        have hfit : v.fits m = true := (List.forall₂_iff_zip.1 hfits).2 hmv
        rw [Member.isReference_iff, ← Value.kind_of_fits hfit, not_or] at hscalar
        cases v with
        | ref _ => exact absurd rfl hscalar.1
        | refs _ => exact absurd rfl hscalar.2
        | _ => rfl
      refine .pure ⟨.inl ⟨(Value.map_eq_self hnone).symm, fun r hr => ?_⟩, .refl .., hc⟩
      rw [hnone] at hr
      cases hr

omit [Bindings σ] in
/-- The image of `r` is finished when what becomes of `r` is written into it. -/
theorem copied_modify {c' : Cloner σ} {o p : Object} {f : Object → Object}
    (ho : g.object? r = some o) (hc : c.Copying g D) (hnew : c.cloned? r = none)
    (htag : r.tag < c.graph.stores.length) (hcopied : Copied g shares D (c.withImage r p) c')
    (hspan : (f p).header.file = o.header.file ∧ (f p).header.start = o.header.start ∧
      (f p).header.stop = o.header.stop)
    (hchildren : shares ∨ (f p).header.children = o.header.children.map c'.image ∧
      ∀ q ∈ o.header.children, q ∈ c'.sources)
    (hvalues : List.Forall₂ (c'.Turns shares) o.values (f p).values) :
    c'.cloned? r = some (c.graph.fresh r.tag) ∧
      Copied g shares D c { c' with graph := c'.graph.modify (c.graph.fresh r.tag) f } := by
  obtain ⟨hadv, hc'⟩ := hcopied
  have hp : c'.graph.object? (c.graph.fresh r.tag) = some p :=
    hadv.extension.object? (Graph.object?_add_fresh htag)
  refine ⟨hadv.cloned r _ (by rw [Cloner.cloned?_withImage, if_pos rfl]), ?_, hc'.modify ?_⟩
  · refine hadv.finish hc' hnew ⟨o, f p, ho, ?_, hspan, hchildren, hvalues⟩
    rw [Graph.object?_modify_self, hp]
    rfl
  · exact Bool.eq_false_iff.2 fun h => Graph.ne_fresh (hc.extension.contains h) rfl

omit [Bindings σ] in
/-- The object gets an image, which has the same place in the source text. -/
theorem exists_allocate {o : Object} (hg : g.WellTyped) (ho : g.object? r = some o)
    (hc : g.Extends c.graph) (hleft : c.graph.IdsLeft 1) (p : Option Ref) : ∃ copy : Object,
      (copy.header.file = o.header.file ∧ copy.header.start = o.header.start ∧
        copy.header.stop = o.header.stop) ∧
      (allocate r p o.header).run c = (.ok (c.graph.fresh r.tag), c.withImage r copy) := by
  have hlive := Graph.contains_of_object? ho
  obtain ⟨l, hcreate⟩ := hg.exists_createTag hlive hc.model hleft
  have htag := Graph.tag_lt_of_contains (hc.contains hlive)
  refine ⟨⟨{ o.header with id := _, parent := p, children := [] }, l.defaults⟩, ?_,
    run_allocate hcreate htag⟩
  exact ⟨rfl, rfl, rfl⟩

/-- An object is copied when its copy gets what becomes of its parts. -/
theorem Copies.generic (hg : g.WellTyped) (hD : g.Closed D) (hclone : Copies g shares D n clone)
    (he : g.schema.entityAt? r.tag = some e)
    (huniform : ∀ name, Uniform σ shares g.model.policy ⟨chain, custom, name⟩
      (g.schema.membersBaseFirst e))
    (hc : c.Copying g D) (hr : r ∈ D) (hnew : c.cloned? r = none)
    (hn : remaining g.refs c.sources < n + 1) :
    Ends (Cloning.generic clone chain custom r p) c
      (fun s c' => c'.cloned? r = some s ∧ Copied g shares D c c') fun _ => False := by
  obtain ⟨o, ho, hparts⟩ := hD r hr
  obtain ⟨e', l, he', -, hl, hmembers, hfits⟩ := hg.object ho
  obtain rfl := Option.some.inj (he.symm.trans he')
  have hlive := Graph.contains_of_object? ho
  have htag := Graph.tag_lt_of_contains (hc.extension.contains hlive)
  have hmodel : c.graph.model = g.model := hc.extension.model
  have hrefs : ∀ v ∈ o.values, ∀ s ∈ v.references, s ∈ D := fun v hv s hs =>
    hparts s (Object.mem_parts.2 (.inr ⟨v, hv, hs⟩))
  have hchildren : ∀ s ∈ o.header.children, s ∈ D := fun s hs =>
    hparts s (Object.mem_parts.2 (.inl hs))
  obtain ⟨copy, hspan, hallocate⟩ := exists_allocate hg ho hc.extension
    (Cloner.idsLeft_of_remaining hnew hlive hc.ids) p
  refine .after (run_fromGraph (Graph.object_eq_ok.2 (hc.extension.object? ho))) ?_
  refine .after hallocate ?_
  -- From here on there is an image of `r`, so fewer objects remain to be copied.
  have hn' : remaining g.refs (c.withImage r copy).sources < n :=
    Nat.lt_of_lt_of_le (Cloner.remaining_withImage_lt hnew hlive) (Nat.le_of_lt_succ hn)
  refine .after (run_fromGraph (a := g.model.policy)
    (congrArg (fun m : Model => Except.ok m.policy) hmodel)) ?_
  -- What the object is called, and what is bound on entering it, do not count.
  refine .after (run_fromGraph rfl) ?_
  generalize Option.getD _ "" = name
  refine .after rfl ?_
  generalize (Method.prepare _ _ _ _ : σ) = b
  have hbound := (hc.withImage (o := copy) hr hnew htag hlive).withBindings b
  refine .after (run_fromGraph (a := g.schema.membersBaseFirst e) ?_) ?_
  · exact map_eq_ok.2 ⟨l, (congrArg (Model.layout · r.tag) hmodel).trans hl, hmembers⟩
  refine (hclone.mapMembers (huniform name) (hmembers ▸ hfits) hrefs hbound hn').bind
    fun values c₁ ⟨hvalues, hadv₁, hc₁⟩ => ?_
  refine (hclone.mapM hchildren hc₁ (hadv₁.remaining_lt hn')).bind
    fun children c₂ ⟨hchildren, hadv₂, hc₂⟩ => ?_
  -- What became of the parts is written into the image.
  have hadv : Cloner.Advances g shares (c.withImage r copy) c₂ :=
    ((Cloner.Advances.refl ..).withBindings b).trans (hadv₁.trans hadv₂)
  have hmade := hadv.extension.contains (Cloner.contains_withImage htag)
  refine .after rfl (.after (run_changeGraph (Graph.updateHeader_eq hmade)) (.after (run_changeGraph
    (Graph.setValues_eq ((Graph.contains_modify _).trans hmade))) (.pure ?_)))
  rw [Graph.modify_modify]
  exact copied_modify ho hc hnew htag ⟨hadv.withBindings _, hc₂.withBindings _⟩ hspan
    (.inr hchildren) (hvalues.imp fun _ _ => hadv₂.turns)

omit [Bindings σ] in
/-- A clone that shares all references is a copy, if references may be shared. -/
theorem ends_shallow (hg : g.WellTyped) (hD : g.Closed D) (hshares : shares)
    (hc : c.Copying g D) (hr : r ∈ D) (hnew : c.cloned? r = none) :
    Ends (shallow r p : Cloning σ Ref) c
      (fun s c' => c'.cloned? r = some s ∧ Copied g shares D c c') fun _ => False := by
  obtain ⟨o, ho, -⟩ := hD r hr
  have hlive := Graph.contains_of_object? ho
  have htag := Graph.tag_lt_of_contains (hc.extension.contains hlive)
  obtain ⟨copy, hspan, hallocate⟩ := exists_allocate hg ho hc.extension
    (Cloner.idsLeft_of_remaining hnew hlive hc.ids) p
  refine .after (run_fromGraph (Graph.object_eq_ok.2 (hc.extension.object? ho))) ?_
  refine .after hallocate ?_
  refine .after (run_changeGraph (Graph.setValues_eq (Cloner.contains_withImage htag))) (.pure ?_)
  exact copied_modify ho hc hnew htag ⟨.refl .., hc.withImage hr hnew htag hlive⟩ hspan
    (.inl hshares) (List.forall₂_same.2 fun v _ => .inr ⟨hshares, rfl⟩)

/-- Where nothing is bound under the name, an object is copied like others. -/
theorem Copies.dedup {kind : BindingKind} (hg : g.WellTyped) (hD : g.Closed D)
    (hclone : Copies g shares D n clone) (he : g.schema.entityAt? r.tag = some e)
    (huniform : ∀ name, Uniform σ shares g.model.policy ⟨chain, none, name⟩
      (g.schema.membersBaseFirst e))
    (hunbound : ∀ name (s : σ), bound? kind name s = none)
    (hc : c.Copying g D) (hr : r ∈ D) (hnew : c.cloned? r = none)
    (hn : remaining g.refs c.sources < n + 1) :
    Ends (Cloning.dedup clone chain kind r p) c
      (fun s c' => c'.cloned? r = some s ∧ Copied g shares D c c') fun _ => False := by
  have hgeneric := hclone.generic (p := p) hg hD he huniform hc hr hnew hn
  refine .after (run_fromGraph rfl) ?_
  split
  · exact hgeneric
  · refine .after (a := none) (congrArg (fun b => (Except.ok b, c)) (hunbound _ _)) ?_
    refine hgeneric.bind fun s c' ⟨hs, hadv, hc'⟩ => .after rfl (.pure ⟨hs, ?_⟩)
    exact ⟨hadv.withBindings _, hc'.withBindings _⟩

/-- An object that was not copied before is copied, in whatever way it is cloned. -/
theorem Copies.cloneWith (hg : g.WellTyped) (hD : g.Closed D)
    (hcopyable : ∀ e ∈ g.schema.entities, Copyable σ shares g.model e)
    (hclone : Copies g shares D n clone) :
    Copies g shares D (n + 1) (Cloning.cloneWith clone) := by
  intro c r p hc hr hn
  refine .after (t := c) rfl ?_
  cases hcloned : c.cloned? r with
  | some s => exact .pure ⟨hcloned, .refl .., hc⟩
  | none =>
    obtain ⟨o, ho, -⟩ := hD r hr
    obtain ⟨e, -, he, hentity, -⟩ := hg.object ho
    have hmodel : c.graph.model = g.model := hc.extension.model
    obtain ⟨hunbound, hconstant, huniform⟩ := hcopyable e (List.mem_of_getElem? he)
    refine .after (run_fromGraph (a := e) ?_) ?_
    · exact (congrArg (Model.entity · r.tag) hmodel).trans hentity
    refine .after (run_fromGraph (a := g.schema.chain e)
      (congrArg (fun m : Model => Except.ok (m.schema.chain e)) hmodel)) ?_
    refine .after (run_fromGraph (a := g.model.policy.entityCloneOf (g.schema.chain e))
      (congrArg (fun m : Model => Except.ok (m.policy.entityCloneOf (g.schema.chain e))) hmodel)) ?_
    -- One case for each way the policy has an entity cloned.
    generalize g.model.policy.entityCloneOf (g.schema.chain e) = kind at *
    cases kind with
    | generic => exact hclone.generic hg hD he huniform hc hr hcloned hn
    | dedupByName kind =>
      exact hclone.dedup hg hD he huniform (hunbound kind rfl) hc hr hcloned hn
    | custom kind =>
      cases kind with
      | constant => exact ends_shallow hg hD (hconstant rfl) hc hr hcloned
      | _ => exact hclone.generic hg hD he huniform hc hr hcloned hn

/-- Cloning copies all that is not deeper than it goes. -/
theorem copies_cloneUpTo (hg : g.WellTyped) (hD : g.Closed D)
    (hcopyable : ∀ e ∈ g.schema.entities, Copyable σ shares g.model e) (n : Nat) :
    Copies g shares D n (cloneUpTo n : Ref → Option Ref → Cloning σ Ref) := by
  induction n with
  | zero => exact fun _ _ _ _ _ hn => absurd hn (Nat.not_lt_zero _)
  | succ n ih => exact ih.cloneWith hg hD hcopyable

/-- Cloning with nothing cloned before, and with an id for each object, comes to an
    end, with every image finished. -/
theorem exists_cloneTree (hg : g.WellTyped) (hD : g.Closed D) (hids : g.IdsLeft g.size)
    (hcopyable : ∀ e ∈ g.schema.entities, Copyable σ shares g.model e) (hr : r ∈ D) (s : σ)
    (parent : Option Ref) : ∃ copy c', g.cloneTree s r parent = (.ok copy, c') ∧
      c'.cloned? r = some copy ∧ c'.Copying g D ∧
        ∀ a b, c'.cloned? a = some b → c'.Finished g shares a b := by
  have hdepth : remaining g.refs (Cloner.sources ⟨g, s, []⟩) < g.cloneDepth := by
    have hle : remaining g.refs (Cloner.sources ⟨g, s, []⟩) ≤ g.size :=
      Graph.length_refs (g := g) ▸ remaining_le_length
    refine Nat.lt_of_le_of_lt hle (Nat.lt_of_lt_of_le (Nat.lt_succ_self _) ?_)
    exact Nat.le_mul_of_pos_right _ (Nat.succ_pos _)
  obtain ⟨copy, c', hrun, hcopy, hadv, hc'⟩ :=
    (copies_cloneUpTo hg hD hcopyable _ _ r parent (.start D s hids) hr hdepth).exists_ok
  refine ⟨copy, c', hrun, hcopy, hc', fun a b hab => (hadv.finished a b hab).resolve_left ?_⟩
  exact fun h => by cases h

end

end Cloning

end ObjectModel
