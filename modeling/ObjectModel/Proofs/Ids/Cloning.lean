import ObjectModel.Proofs.Cloning.Making
import ObjectModel.Proofs.Ids.Issuing

/-!
# Ids of clones

Clones take over the headers of their sources, but for the ids: each gets the next one,
like any object that is made. So cloning hands out ids as it should, in whatever setting,
and whether it comes to an end or fails half-way (`Cloner.cloneObject_issued`). The
values of a clone are written last. They fit its members, as those of the source do:
references are put in the place of others, so that values remain of their kinds
(`Cloning.Gives`).
-/

namespace ObjectModel

namespace Cloning

variable {σ : Type} {α β : Type} {P : α → Prop} {Q : β → Prop} {x : Cloning σ α}
  {f : α → Cloning σ β}

/-! ## What is given -/

/-- If the computation comes to something, from whatever state, `P` holds of it. -/
def Gives (P : α → Prop) (x : Cloning σ α) : Prop := ∀ c a c', x.run c = (.ok a, c') → P a

theorem Gives.pure {a : α} (h : P a) : Gives P (pure a : Cloning σ α) := by
  intro c b c' hrun
  cases hrun
  exact h

theorem Gives.bind (hf : ∀ a, Gives Q (f a)) : Gives Q (x >>= f) := by
  intro c b c' hrun
  obtain ⟨a, c₁, -, hrun⟩ := exists_run_bind_ok hrun
  exact hf a c₁ b c' hrun

theorem Gives.mono {P' : α → Prop} (hx : Gives P x) (h : ∀ a, P a → P' a) : Gives P' x :=
  fun c a c' hrun => h a (hx c a c' hrun)

/-- A list is given what its elements are. -/
theorem Gives.mapM {F : α → β → Prop} {l : List α} (hf : ∀ a, Gives (F a) (f a)) :
    Gives (List.Forall₂ F l) (l.mapM f) := by
  induction l with
  | nil =>
    rw [List.mapM_nil]
    exact .pure .nil
  | cons a l ih =>
    rw [List.mapM_cons]
    intro c bs c' hrun
    obtain ⟨b, c₁, hb, hrun⟩ := exists_run_bind_ok hrun
    obtain ⟨bs', c₂, hbs', hrun⟩ := exists_run_bind_ok hrun
    cases hrun
    exact .cons (hf a c b c₁ hb) (ih c₁ bs' _ hbs')

/-- What a computation gives can be gone on with. -/
theorem Gives.ends {c : Cloner σ} {I E : Cloner σ → Prop} (hx : Gives P x)
    (h : Ends x c (fun _ => I) E) : Ends x c (fun a c' => P a ∧ I c') E := by
  unfold Ends at *
  split at h
  · rename_i a ha
    exact ⟨hx c a _ (run_eq_iff.2 ⟨ha, rfl⟩), h⟩
  · exact h

/-- A clone has the tag of its source. -/
theorem gives_allocate (r : Ref) (parent : Option Ref) (source : Header) :
    Gives (·.tag = r.tag) (allocate r parent source : Cloning σ Ref) := by
  intro c copy c' hrun
  obtain ⟨⟨s, h⟩, c₁, hcreate, hrun⟩ := exists_run_bind_ok hrun
  obtain ⟨_, -, rfl, -⟩ := Graph.createTag_eq_ok (congrArg Prod.fst hcreate)
  obtain ⟨_, c₂, -, hrun⟩ := exists_run_bind_ok hrun
  obtain ⟨_, c₃, -, hrun⟩ := exists_run_bind_ok hrun
  obtain ⟨_, c₄, -, hrun⟩ := exists_run_bind_ok hrun
  cases hrun
  rfl

/-! ## Kinds of values -/

/-- Replacing references leaves a value of its kind. -/
theorem gives_mapRefs (f : Ref → Cloning σ Ref) (v : Value) :
    Gives (·.kind = v.kind) (mapRefs f v) := by
  unfold mapRefs
  split
  · exact .bind fun _ => .pure rfl
  · exact .bind fun _ => .pure rfl
  · exact .pure rfl

variable [Bindings σ]

/-- Each policy for references leaves a value of its kind. -/
theorem gives_applyPolicy (deep : Ref → Cloning σ Ref) (members : List Member)
    (source : List Value) (policy : MemberClone) (v : Value) :
    Gives (·.kind = v.kind) (applyPolicy deep members source policy v) := by
  unfold applyPolicy
  split
  · exact gives_mapRefs _ v
  · exact .pure rfl
  · refine .bind fun unique => ?_
    split
    · exact gives_mapRefs _ v
    · exact .pure rfl
  · split
    · exact gives_mapRefs _ v
    · exact .pure rfl
  · exact gives_mapRefs _ v

/-- A value is of its kind after cloning, however its references are cloned. -/
theorem gives_cloneReferences (deep : Ref → Cloning σ Ref) (policy : PolicyTable) (how : Method)
    (members : List Member) (source : List Value) (m : Member) (v : Value) :
    Gives (·.kind = v.kind) (cloneReferences deep policy how members source m v) := by
  have hpolicy := gives_applyPolicy deep members source (policy.memberCloneOf how.chain m) v
  unfold cloneReferences
  split
  · split
    · exact gives_mapRefs _ v
    · exact hpolicy
  · split
    · exact gives_mapRefs _ v
    · exact hpolicy
  · exact gives_mapRefs _ v
  · exact hpolicy

/-- What takes the place of a value fits the members that the value fits. -/
theorem gives_cloneMember (deep : Ref → Cloning σ Ref) (policy : PolicyTable) (how : Method)
    (members : List Member) (source : List Value) (m : Member) (v : Value) :
    Gives (fun w => v.fits m = true → w.fits m = true) (if m.isReference then
      cloneReferences deep policy how members source m v else pure v) := by
  split
  · rename_i hm
    exact (gives_cloneReferences deep policy how members source m v).mono fun w hkind hv =>
      Value.fits_of_kind hm (hkind.trans (Value.kind_of_fits hv))
  · exact .pure id

/-- What is put in the place of values that fit, fits. -/
theorem forall₂_fits {members : List Member} {values copies : List Value}
    (hvalues : List.Forall₂ (fun m v => Value.fits m v = true) members values)
    (hcopies : List.Forall₂ (fun e w => Value.fits e.1 e.2 = true → Value.fits e.1 w = true)
      (members.zip values) copies) :
    List.Forall₂ (fun m v => Value.fits m v = true) members copies := by
  induction hvalues generalizing copies with
  | nil =>
    cases hcopies
    exact .nil
  | cons hv _ ih =>
    obtain _ | ⟨hw, hcopies⟩ := hcopies
    exact .cons (hw hv) (ih hcopies)

/-! ## Parts of cloning -/

/-- Cloning hands out ids as it should, in a graph that has grown out of `b`. -/
def Issues (b : Graph) (n : Nat) (x : Cloning σ α) : Prop :=
  Stays (b.Issued n) (b.Issued n) x

variable {n : Nat} {b : Graph} {r : Ref} {parent : Option Ref}

omit [Bindings σ]

/-- Reading hands out no ids. -/
theorem issues_fromGraph (f : Graph → Except GraphError α) :
    Issues b n (fromGraph f : Cloning σ α) :=
  keeps_fromGraph (fun _ => id) f

/-- A change to the graph is asked to hand out ids in turn, if any. -/
theorem issues_changeGraph {f : Graph → Except GraphError Graph}
    (hf : ∀ g h, b.Issued n g → f g = .ok h → b.Issued n h) :
    Issues b n (changeGraph f : Cloning σ Unit) := by
  intro c hc
  cases h : f c.graph with
  | error e => exact .of_run_error (run_changeGraph_error h) hc
  | ok g => exact .of_run (run_changeGraph h) (hf c.graph g hc h)

/-- A header keeps its id. -/
theorem issues_updateHeader {f : Header → Header} (hf : ∀ h, (f h).id = h.id) :
    Issues b n (changeGraph (·.updateHeader r f) : Cloning σ Unit) :=
  issues_changeGraph fun _ _ hg => hg.updateHeader hf

/-- Values that fit may be written. -/
theorem issues_setValues {l : Layout} {values : List Value} (hl : b.model.layout r.tag = .ok l)
    (hvalues : List.Forall₂ (fun m v => Value.fits m v = true) l.members values) :
    Issues b n (changeGraph (·.setValues r values) : Cloning σ Unit) := by
  refine issues_changeGraph fun g h hg hset => ?_
  obtain ⟨o, ho, hh⟩ := bind_eq_ok.1 hset
  obtain rfl := pure_eq_ok.1 hh
  refine hg.modify (hg.wellTyped.modify fun p e hp he _ => ?_) fun _ => rfl
  obtain ⟨e', l', he', -, hl', hmembers, -⟩ := hg.wellTyped.object hp
  obtain rfl := Option.some.inj (he.symm.trans he')
  rw [hg.layout_eq] at hl'
  obtain rfl := Except.ok.inj (hl.symm.trans hl')
  exact hmembers ▸ hvalues

/-- An object is made with the next id, and the header of its source apart from that. -/
theorem issues_allocate (source : Header) :
    Issues b n (allocate r parent source : Cloning σ Ref) := by
  intro c hc
  rcases Nat.lt_or_ge r.tag c.graph.stores.length with htag | htag
  · exact ends_allocate_of htag (fun _ => hc) fun l hl => hc.add hl rfl
  · -- Each layout has a place for objects, so none is made without one.
    cases hcreate : c.graph.createTag r.tag with
    | error e => exact .of_run_error (run_allocate_error hcreate) hc
    | ok made =>
      obtain ⟨l, hl, -, -⟩ := Graph.createTag_eq_ok hcreate
      exact absurd (hc.tag_lt hl) (Nat.not_lt.2 htag)

/-- A source is read, and a clone of it made, which has the same members. -/
theorem issues_source {f : Object → Ref → Cloning σ Ref}
    (hf : ∀ source copy l, copy.tag = r.tag → b.model.layout r.tag = .ok l →
      List.Forall₂ (fun m v => Value.fits m v = true) l.members source.values →
      Issues b n (f source copy)) :
    Issues b n (do
      let source ← fromGraph (·.object r)
      let copy ← allocate r parent source.header
      f source copy) := by
  intro c hc
  refine ends_read hc fun source hsource => ?_
  obtain ⟨e, l, -, -, hl, -, hfits⟩ := hc.wellTyped.object (Graph.object_eq_ok.1 hsource)
  refine ((gives_allocate r parent source.header).ends
    (issues_allocate source.header c hc)).bind fun copy c' ⟨htag, hc'⟩ => ?_
  exact hf source copy l htag (hc.layout_eq ▸ hl) hfits c' hc'

theorem issues_shallow : Issues b n (shallow r parent : Cloning σ Ref) := by
  refine issues_source fun source copy l htag hl hfits => ?_
  exact (issues_setValues (htag ▸ hl) hfits).bind fun _ => .pure copy

variable [Bindings σ] {clone : Ref → Option Ref → Cloning σ Ref}

/-- What takes the place of the values of a source fits as they do. -/
theorem ends_cloneMembers {deep : Ref → Cloning σ Ref} {c : Cloner σ}
    (hdeep : ∀ r, Issues b n (deep r)) (policy : PolicyTable) (how : Method)
    (members : List Member) (source : List Value)
    (hsource : List.Forall₂ (fun m v => Value.fits m v = true) members source)
    (hc : b.Issued n c.graph) :
    Ends ((members.zip source).mapM fun (m, v) => if m.isReference then
        cloneReferences deep policy how members source m v else pure v) c
      (fun values c' => List.Forall₂ (fun m v => Value.fits m v = true) members values ∧
        b.Issued n c'.graph) fun c' => b.Issued n c'.graph := by
  have hgives (e : Member × Value) := gives_cloneMember deep policy how members source e.1 e.2
  exact (Gives.ends (.mapM hgives) (keeps_cloneMembers (fun _ _ r _ => hdeep r) _ _ _ c hc)).mono
    (fun values c' ⟨hvalues, hc'⟩ => ⟨forall₂_fits hsource hvalues, hc'⟩) fun _ h => h

/-- An object is made first, then what is below it, each with the next id. -/
theorem issues_generic (hclone : ∀ r p, Issues b n (clone r p)) (chain : List Entity)
    (custom : Option CustomClone) : Issues b n (generic clone chain custom r parent) := by
  refine issues_source fun source copy l htag hl hfits => ?_
  refine (issues_fromGraph _).bind fun policy => ?_
  refine (issues_fromGraph _).bind fun name => ?_
  refine (stays_changeBindings _).bind fun _ => ?_
  intro c hc
  refine ends_read hc fun members hmembers => ?_
  obtain ⟨l', hl', rfl⟩ := map_eq_ok.1 hmembers
  -- The members are those of the layout that the copy was made by.
  rw [hc.layout_eq] at hl'
  obtain rfl := Except.ok.inj (hl.symm.trans hl')
  refine (ends_cloneMembers (hclone · _) policy _ l.members source.values hfits hc).bind
    fun values c ⟨hvalues, hc⟩ => ?_
  refine Keeps.bind (Keeps.mapM fun r _ => hclone r _) (fun children => ?_) c hc
  refine (stays_changeBindings _).bind fun _ => ?_
  refine (issues_updateHeader ?_).bind fun _ => ?_
  · exact fun _ => rfl
  exact (issues_setValues (htag ▸ hl) hvalues).bind fun _ => .pure copy

/-- What is found by name needs no id. Otherwise it gets one like others. -/
theorem issues_dedup (hclone : ∀ r p, Issues b n (clone r p)) (chain : List Entity)
    (kind : BindingKind) : Issues b n (dedup clone chain kind r parent) := by
  refine (issues_fromGraph _).bind fun name => ?_
  split
  · exact issues_generic hclone chain none
  · refine (keeps_fromBindings _).bind fun existing => ?_
    split
    · exact (stays_remember _ _).bind fun _ => .pure _
    · refine (issues_generic hclone chain none).bind fun copy => ?_
      exact (stays_changeBindings _).bind fun _ => .pure copy

/-- If what an object refers to gets its ids in turn, so does the object. -/
theorem issues_cloneWith (hclone : ∀ r p, Issues b n (clone r p)) :
    Issues b n (cloneWith clone r parent) := by
  refine Keeps.bind (fun c hc => hc) fun c => ?_
  split
  · exact .pure _
  · refine (issues_fromGraph _).bind fun e => ?_
    refine (issues_fromGraph _).bind fun chain => ?_
    refine (issues_fromGraph _).bind fun kind => ?_
    split
    · exact issues_generic hclone chain none
    · exact issues_dedup hclone chain _
    · exact issues_shallow
    · exact issues_generic hclone chain _

/-- Cloning to whatever depth hands out ids in turn. -/
theorem issues_cloneUpTo (b : Graph) (n : Nat) (depth : Nat) (r : Ref) (parent : Option Ref) :
    Issues b n (cloneUpTo depth r parent : Cloning σ Ref) := by
  induction depth generalizing r parent with
  | zero => exact fun c hc => hc
  | succ depth ih => exact issues_cloneWith ih

end Cloning

/-- Cloning hands out ids as it should, whether it comes to an end or not. -/
theorem Cloner.cloneObject_issued {σ : Type} [Bindings σ] {c : Cloner σ} {n : Nat} {b : Graph}
    (hc : b.Issued n c.graph) (r : Ref) (parent : Option Ref) :
    b.Issued n (c.cloneObject r parent).2.graph :=
  (Cloning.issues_cloneUpTo b n _ r parent c hc).state

end ObjectModel
