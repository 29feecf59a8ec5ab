import ObjectModel.Proofs.Cloning.Merging

/-!
# Nets on the way

Nets are reached through the members and children of an object that is cloned.
When this is done, all that have names and were cloned on the way have been told
of (`Cloning.Passes`), the scopes that were entered have been left
(`Cloning.Returns`), and the nets of a name are merged (`Cloning.Merging`).

This is shown here of objects that are cloned member by member, if it holds of
what they refer to (`Cloning.Merges.generic`), and of those that share it
(`Cloning.ends_shallow_merging`). Each becomes an object that there was not
before (`Cloning.Renews`), so that no net was reached in it as a scope.
-/

namespace ObjectModel

/-- A net of that name, which is found by name when it is cloned. -/
def Graph.IsNet (g : Graph) (name : String) (r : Ref) : Prop :=
  g.contains r = true ∧ g.model.IsNet r.tag ∧ g.name? r = some name

instance (g : Graph) (name : String) (r : Ref) : Decidable (g.IsNet name r) :=
  inferInstanceAs (Decidable (_ ∧ _))

namespace Cloning

/-- A net of `g` that has a name. -/
def Named (g : Graph) (r : Ref) : Prop := ∃ name, g.IsNet name r ∧ name ≠ ""

/-- Cloning has come from `g`, where it began in the scopes `init`, and the nets of
    that name are merged so far. -/
structure Merging (g : Graph) (init : List Ref) (name : String) (c : Cloner Watched) : Prop where
  extension : g.Extends c.graph
  names : ∀ v ∈ c.bindings.visits, g.contains v.net = true → g.name? v.net = some v.name
  merged : Merged init name c.graph c.cloned? c.bindings.elaboration c.bindings.visits

/-- No net of that name has become `s`. -/
def Spared (name : String) (s : Ref) (c : Cloner Watched) : Prop :=
  ∀ v ∈ c.bindings.visits, v.name = name → c.cloned? v.net ≠ some s

/-- From `c` to `c'`, the named nets of `g` that are cloned, but for those in
    `skip`, are visited, within those that are pending in `c`. Those of the name
    `name` become new objects, or what others of it had become. -/
structure Passes (g : Graph) (name : String) (skip : Set Ref) (c c' : Cloner Watched) :
    Prop where
  extension : c.graph.Extends c'.graph
  cloned : ∀ q s, c.cloned? q = some s → c'.cloned? q = some s
  pending : c'.bindings.pending = c.bindings.pending
  visits : ∃ new, c'.bindings.visits = c.bindings.visits ++ new ∧
    ∀ v ∈ new, c.bindings.pending <:+ v.within
  visited : ∀ q s, Named g q → q ∉ skip → c'.cloned? q = some s →
    (∃ s, c.cloned? q = some s) ∨ ∃ v ∈ c'.bindings.visits, v.net = q
  spared : ∀ s, c.graph.contains s = true → Spared name s c → Spared name s c'

/-- Besides, the scopes that were entered have been left. -/
def Returns (g : Graph) (name : String) (skip : Set Ref) (c c' : Cloner Watched) : Prop :=
  Passes g name skip c c' ∧ c'.bindings.scopes = c.bindings.scopes

/-! ## From state to state -/

variable {g : Graph} {init : List Ref} {name : String} {skip : Set Ref} {c c' c'' : Cloner Watched}
  {r s : Ref} {p : Option Ref}

/-- Where nothing is cloned, no net is passed. -/
theorem Passes.refl (g : Graph) (name : String) (skip : Set Ref) (c : Cloner Watched) :
    Passes g name skip c c where
  extension := .refl _
  cloned _ _ h := h
  pending := rfl
  visits := ⟨[], (List.append_nil _).symm, fun _ hv => absurd hv List.not_mem_nil⟩
  visited _ s _ _ hs := .inl ⟨s, hs⟩
  spared _ _ hs := hs

/-- The nets that two parts pass are told of in turn. -/
theorem Passes.trans (h : Passes g name skip c c') (h' : Passes g name skip c' c'') :
    Passes g name skip c c'' where
  extension := h.extension.trans h'.extension
  cloned q s hs := h'.cloned q s (h.cloned q s hs)
  pending := h'.pending.trans h.pending
  visits := by
    obtain ⟨new, hnew, hwithin⟩ := h.visits
    obtain ⟨new', hnew', hwithin'⟩ := h'.visits
    refine ⟨new ++ new', by rw [hnew', hnew, List.append_assoc], fun v hv => ?_⟩
    rcases List.mem_append.1 hv with hv | hv
    · exact hwithin v hv
    · exact h.pending ▸ hwithin' v hv
  visited q s hq hskip hs := by
    obtain ⟨new', hnew', -⟩ := h'.visits
    -- What was in the memo in between was there before, or was visited in the first part.
    rcases h'.visited q s hq hskip hs with ⟨t, ht⟩ | hv
    · refine (h.visited q t hq hskip ht).imp_right fun ⟨v, hv, hvq⟩ => ⟨v, ?_, hvq⟩
      rw [hnew']
      exact List.mem_append_left _ hv
    · exact .inr hv
  spared s hlive hs := h'.spared s (h.extension.contains hlive) (h.spared s hlive hs)

theorem Passes.mono {skip' : Set Ref} (h : Passes g name skip c c') (hsub : skip ⊆ skip') :
    Passes g name skip' c c' :=
  ⟨h.extension, h.cloned, h.pending, h.visits,
    fun q s hq hskip => h.visited q s hq fun hmem => hskip (hsub hmem), h.spared⟩

/-- What cannot be looked for need not be visited. -/
theorem Passes.of_not_named (h : Passes g name {r} c c') (hr : ¬ Named g r) :
    Passes g name skip c c' :=
  ⟨h.extension, h.cloned, h.pending, h.visits,
    fun q s hq _ => h.visited q s hq fun hmem => hr (Set.mem_singleton_iff.1 hmem ▸ hq), h.spared⟩

theorem Returns.refl (g : Graph) (name : String) (skip : Set Ref) (c : Cloner Watched) :
    Returns g name skip c c :=
  ⟨.refl g name skip c, rfl⟩

theorem Returns.trans (h : Returns g name skip c c') (h' : Returns g name skip c' c'') :
    Returns g name skip c c'' :=
  ⟨h.1.trans h'.1, h'.2.trans h.2⟩

/-- Only what is recorded, and what scopes there are, is changed. -/
theorem Passes.withElaboration (h : Passes g name skip c c') (e : Elaboration) :
    Passes g name skip c { c' with bindings := { c'.bindings with elaboration := e } } :=
  ⟨h.extension, h.cloned, h.pending, h.visits, h.visited, h.spared⟩

/-- A change to the elaboration must keep what is bound of the name. -/
theorem Merging.withElaboration {e : Elaboration} (hc : Merging g init name c)
    (he : ∀ l, Merged init name c.graph c.cloned? c.bindings.elaboration l →
      Merged init name c.graph c.cloned? e l) :
    Merging g init name { c with bindings := { c.bindings with elaboration := e } } :=
  ⟨hc.extension, hc.names, he _ hc.merged⟩

/-- What is written into a new object does not count. -/
theorem Passes.modify {w : Object → Object} (h : Passes g name skip c c')
    (hr : c.graph.contains r = false) :
    Passes g name skip c { c' with graph := c'.graph.modify r w } :=
  ⟨h.extension.modify hr, h.cloned, h.pending, h.visits, h.visited, h.spared⟩

theorem Merging.modify {w : Object → Object} (hc : Merging g init name c)
    (hr : g.contains r = false) : Merging g init name { c with graph := c.graph.modify r w } :=
  ⟨hc.extension.modify hr, hc.names,
    hc.merged.grows (fun _ hs => (Graph.contains_modify w).trans hs) fun _ _ hs => hs⟩

/-- An object is remembered to have become another. -/
theorem cloned?_remember {c : Cloner Watched} (hnew : c.cloned? r = none) {q t : Ref}
    (ht : c.cloned? q = some t) :
    Cloner.cloned? { c with memo := (r, s) :: c.memo } q = some t := by
  have hne : q ≠ r := by
    rintro rfl
    rw [hnew] at ht
    cases ht
  rw [Cloner.cloned?, List.lookup_cons, beq_false_of_ne hne]
  exact ht

theorem cloned?_remember_self {c : Cloner Watched} :
    Cloner.cloned? { c with memo := (r, s) :: c.memo } r = some s :=
  List.lookup_cons_self

/-- A clone that is remembered is passed, and may be left out. -/
theorem Passes.remember (hc : Merging g init name c) (hnew : c.cloned? r = none) :
    Passes g name {r} c { c with memo := (r, s) :: c.memo } where
  extension := .refl _
  cloned _ _ ht := cloned?_remember hnew ht
  pending := rfl
  visits := ⟨[], (List.append_nil _).symm, fun _ hv => absurd hv List.not_mem_nil⟩
  visited q t _ hq ht := by
    have hne : q ≠ r := hq
    rw [Cloner.cloned?, List.lookup_cons, beq_false_of_ne hne] at ht
    exact .inl ⟨t, ht⟩
  spared t _ ht v hv hname := by
    obtain ⟨-, u, hu, -⟩ := hc.merged.visited v hv hname
    rw [cloned?_remember hnew hu, ← hu]
    exact ht v hv hname

theorem Merging.remember (hc : Merging g init name c) (hnew : c.cloned? r = none) :
    Merging g init name { c with memo := (r, s) :: c.memo } :=
  ⟨hc.extension, hc.names,
    hc.merged.grows (fun _ hs => hs) fun _ _ ht => cloned?_remember hnew ht⟩

/-- An object is made for `r`. -/
theorem Merging.withImage {o : Object} (hc : Merging g init name c) (hnew : c.cloned? r = none)
    (htag : r.tag < c.graph.stores.length) :
    Merging g init name (c.withImage r o) ∧ Returns g name {r} c (c.withImage r o) := by
  have hremember := hc.remember (s := c.graph.fresh r.tag) hnew
  have hpasses : Passes g name {r} c { c with memo := (r, c.graph.fresh r.tag) :: c.memo } :=
    .remember hc hnew
  refine ⟨⟨hc.extension.add, hc.names, ?_⟩, ⟨(Graph.Extends.refl _).add, hpasses.cloned,
    rfl, hpasses.visits, hpasses.visited, hpasses.spared⟩, rfl⟩
  exact hremember.merged.grows (fun _ hs => (Graph.contains_add htag).2 (.inr hs)) fun _ _ ht => ht

/-! ## Scopes that are entered and left -/

section

variable {policy : PolicyTable} {how : Method} {copy : Ref} {scopes : List Ref}

/-- The scopes in which the members of an object are cloned. -/
theorem scopes_prepare (policy : PolicyTable) (how : Method) (copy : Ref) (s : Watched) :
    (how.prepare policy copy s).scopes =
      if how.isScope policy then copy :: s.scopes else s.scopes := by
  have hrecord : (if how.custom = some .taskFunc ∧ how.name ≠ "" then
      Bindings.recordTaskFunc s how.name copy else s).scopes = s.scopes := by
    split
    · exact Elaboration.scopes_record
    · rfl
  unfold Method.prepare
  dsimp only
  split
  · exact congrArg (copy :: ·) hrecord
  · exact hrecord

/-- They are left when this is done. -/
theorem scopes_conclude {s : Watched}
    (h : s.scopes = if how.isScope policy then copy :: scopes else scopes) :
    (how.conclude policy copy s).scopes = scopes := by
  unfold Method.conclude
  split
  · rename_i hscope
    rw [if_pos hscope] at h
    obtain ⟨⟨t, f⟩, rest, hrest, rfl, rfl⟩ := List.map_eq_cons_iff.1 h
    change (s.elaboration.leave t).scopes.map Prod.fst = _
    rw [Elaboration.leave, hrest]
    simp
  · rename_i hscope
    rwa [if_neg hscope] at h

/-- A scope may be entered that no net was reached in before. -/
theorem Merging.prepare (policy : PolicyTable) (how : Method) (hc : Merging g init name c)
    (hlive : c.graph.contains copy = true)
    (hnew : ∀ v ∈ c.bindings.visits, v.name = name → v.scopes ≠ copy :: c.bindings.scopes) :
    Merging g init name { c with bindings := how.prepare policy copy c.bindings } := by
  rw [prepare_elaboration]
  refine ⟨hc.extension, hc.names, ?_⟩
  -- A task or function is recorded before its scope
  -- is entered, and among other names than nets.
  have hbound : Merged init name c.graph c.cloned? (if how.custom = some .taskFunc ∧ how.name ≠ ""
      then Bindings.recordTaskFunc c.bindings.elaboration how.name copy
      else c.bindings.elaboration) c.bindings.visits := by
    split
    · exact hc.merged.record fun _ => rfl
    · exact hc.merged
  unfold Method.prepare
  dsimp only
  split
  · refine hbound.enter hlive fun v hv hname => ?_
    have hscopes := hnew v hv hname
    split
    · have hsame : (Bindings.recordTaskFunc c.bindings.elaboration how.name copy).scopes.map
          Prod.fst = c.bindings.scopes := Elaboration.scopes_record
      rwa [hsame]
    · exact hscopes
  · exact hbound

/-- The scope is left for those around it. -/
theorem Merging.conclude (hc : Merging g init name c)
    (hscopes : c.bindings.scopes = if how.isScope policy then copy :: scopes else scopes)
    (hinit : c.graph.Enters init scopes) :
    Merging g init name { c with bindings := how.conclude policy copy c.bindings } := by
  rw [conclude_elaboration]
  refine ⟨hc.extension, hc.names, ?_⟩
  unfold Method.conclude
  split
  · rename_i hscope
    rw [if_pos hscope] at hscopes
    refine hc.merged.leave copy ?_
    rw [List.map_tail]
    change c.graph.Enters init c.bindings.scopes.tail
    rw [hscopes]
    exact hinit
  · exact hc.merged

end

/-! ## Objects that are made -/

/-- The object `copy` was made for `r`, and for no net of that name. -/
structure Renews (g : Graph) (init : List Ref) (name : String) (r : Ref) (c : Cloner Watched)
    (copy : Ref) (c' : Cloner Watched) : Prop where
  fresh : c.graph.contains copy = false
  live : c'.graph.contains copy = true
  image : c'.cloned? r = some copy
  spared : Spared name copy c'
  returns : Returns g name {r} c c'
  merging : Merging g init name c'

section

variable {copy : Ref}

/-- An object is made that no net was reached in. -/
theorem ends_allocate_merging (source : Header) (hc : Merging g init name c)
    (hnew : c.cloned? r = none) (hr : c.graph.contains r = true) :
    Ends (allocate r p source) c
      (fun copy c' => Renews g init name r c copy c' ∧ c'.bindings = c.bindings)
      (Merging g init name) := by
  have htag := Graph.tag_lt_of_contains hr
  refine ends_allocate_of htag (fun _ => hc) fun l _ => ?_
  obtain ⟨hmerging, hreturns⟩ := hc.withImage hnew htag (o :=
    ⟨{ source with id := c.graph.lastId + 1, parent := p, children := [] }, l.defaults⟩)
  refine ⟨⟨Graph.contains_fresh, ?_, ?_, ?_, hreturns, hmerging⟩, rfl⟩
  · exact Cloner.contains_withImage htag
  · exact (Cloner.cloned?_withImage ..).trans (if_pos rfl)
  · intro v hv hname himage
    obtain ⟨-, s, hs, hlive⟩ := hc.merged.visited v hv hname
    obtain rfl := Option.some.inj ((hreturns.1.cloned _ s hs).symm.trans himage)
    exact Bool.eq_false_iff.1 Graph.contains_fresh hlive

/-- It is written into. -/
theorem Renews.modify {w : Object → Object} (h : Renews g init name r c copy c')
    (hc : Merging g init name c) :
    Renews g init name r c copy { c' with graph := c'.graph.modify copy w } where
  fresh := h.fresh
  live := (Graph.contains_modify w).trans h.live
  image := h.image
  spared := h.spared
  returns := ⟨h.returns.1.modify h.fresh, h.returns.2⟩
  merging := h.merging.modify <| Bool.eq_false_iff.2 fun hcopy =>
    Bool.eq_false_iff.1 h.fresh (hc.extension.contains hcopy)

/-- An object that shares what its source holds is one that no net was reached in. -/
theorem ends_shallow_merging (hc : Merging g init name c) (hnew : c.cloned? r = none) :
    Ends (shallow r p) c (Renews g init name r c) (Merging g init name) := by
  refine ends_read hc fun o hread => ?_
  have ho := Graph.object_eq_ok.1 hread
  refine (ends_allocate_merging _ hc hnew (Graph.contains_of_object? ho)).bind
    fun copy c₁ ⟨h, _⟩ => ?_
  exact .after (run_changeGraph (Graph.setValues_eq h.live)) (.pure (h.modify hc))

end

/-- Cloning goes on in `c'`, in the scopes of `c`. -/
def Resumes (g : Graph) (init : List Ref) (name : String) (c c' : Cloner Watched) : Prop :=
  Returns g name ∅ c c' ∧ Merging g init name c'

/-- Cloning by `clone` merges nets, and comes back to the scopes in which it begins. -/
def Merges (g : Graph) (init : List Ref) (name : String)
    (clone : Ref → Option Ref → Cloning Watched Ref) : Prop :=
  ∀ c r p, Merging g init name c → Ends (clone r p) c
    (fun s c' => c'.cloned? r = some s ∧ Resumes g init name c c')
    (Merging g init name)

variable {clone : Ref → Option Ref → Cloning Watched Ref}

/-- The members and children of an object can be cloned one after the other. -/
theorem Merges.keeps (hclone : Merges g init name clone) (c : Cloner Watched) (r : Ref)
    (p : Option Ref) :
    Keeps (Resumes g init name c) (Merging g init name) (clone r p) := by
  intro c' ⟨hreturns, hc'⟩
  exact (hclone c' r p hc').mono (fun _ _ h => ⟨hreturns.trans h.2.1, h.2.2⟩) fun _ h => h

/-- An object that was not cloned before is cloned member by member. -/
theorem Merges.generic (hclone : Merges g init name clone) (chain : List Entity)
    (custom : Option CustomClone) (hc : Merging g init name c) (hnew : c.cloned? r = none) :
    Ends (Cloning.generic clone chain custom r p) c (Renews g init name r c)
      (Merging g init name) := by
  refine ends_read hc fun o hread => ?_
  have ho := Graph.object_eq_ok.1 hread
  refine (ends_allocate_merging _ hc hnew (Graph.contains_of_object? ho)).bind
    fun copy c₁ ⟨h₁, hbindings⟩ => ?_
  refine .after (run_fromGraph rfl) (.after (run_fromGraph rfl) ?_)
  generalize c₁.graph.model.policy = policy
  generalize (⟨chain, custom, Option.getD _ ""⟩ : Method) = how
  refine .after rfl ?_
  -- The copy is entered if it is a scope, and no net was reached in it before.
  have hc₂ := h₁.merging.prepare policy how h₁.live
    (by rw [hbindings]; exact hc.merged.ne_cons h₁.fresh)
  have hpasses₂ : Passes g name {r} c
      { c₁ with bindings := how.prepare policy copy c₁.bindings } := by
    rw [prepare_elaboration]
    exact h₁.returns.1.withElaboration _
  have hspared₂ : Spared name copy
      { c₁ with bindings := how.prepare policy copy c₁.bindings } := by
    rw [prepare_elaboration]
    exact h₁.spared
  have hscopes₂ := scopes_prepare policy how copy c₁.bindings
  rw [hbindings] at hpasses₂ hspared₂ hscopes₂ hc₂ ⊢
  generalize how.prepare policy copy c.bindings = b at hpasses₂ hspared₂ hscopes₂ hc₂ ⊢
  have hkeeps := hclone.keeps { c₁ with bindings := b }
  have hresumes : Resumes g init name { c₁ with bindings := b } { c₁ with bindings := b } :=
    ⟨.refl g name ∅ _, hc₂⟩
  refine (keeps_fromGraph (fun _ h => h.2) _ _ hresumes).bind fun members c' hc' => ?_
  refine (keeps_cloneMembers (fun _ _ r _ => hkeeps r _) _ _ _ c' hc').bind
    fun values c' hc' => ?_
  refine (Keeps.mapM (fun r _ => hkeeps r _) c' hc').bind
    fun children c₃ ⟨⟨hpasses₃, hscopes₃⟩, hc₃⟩ => .after rfl ?_
  have hscopes₃ := hscopes₃.trans hscopes₂
  have hpasses := hpasses₂.trans (hpasses₃.mono (Set.empty_subset _))
  have h₄ : Renews g init name r c copy
      { c₃ with bindings := how.conclude policy copy c₃.bindings } := by
    refine ⟨h₁.fresh, hpasses₃.extension.contains h₁.live, hpasses₃.cloned r copy h₁.image,
      ?_, ⟨?_, scopes_conclude hscopes₃⟩, hc₃.conclude hscopes₃ ?_⟩
    · rw [conclude_elaboration]
      exact hpasses₃.spared copy h₁.live hspared₂
    · rw [conclude_elaboration]
      exact hpasses.withElaboration _
    · exact hc.merged.scopes.grows fun _ => hpasses.extension.contains
  refine .after (run_changeGraph (Graph.updateHeader_eq h₄.live)) ?_
  have h₅ := h₄.modify (w := fun o => { o with header := { o.header with children } }) hc
  refine .after (run_changeGraph (Graph.setValues_eq h₅.live)) (.pure ?_)
  exact h₅.modify hc

end Cloning

end ObjectModel
