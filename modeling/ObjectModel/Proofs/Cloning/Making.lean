import ObjectModel.Cloning.Cloner
import ObjectModel.Proofs.Graph.Making
import ObjectModel.Proofs.Graph.Network

/-!
# What cloning makes

Cloning makes objects and leaves all others alone, in whatever setting, and
whether it comes to an end or fails half-way. The objects that it makes are
placed under the parent that was asked for, and under one another.

Only two steps touch the graph: an object is made under a host, and a host is
written into. The hosts are objects that were made before; every object is one
while what it refers to is cloned. So what was made (`Cloning.Made`) is an
invariant of all parts of cloning, of which each is shown to keep it.

* `Cloning.clones_cloneUpTo`: cloning to whatever depth keeps it;
* `Cloner.cloneObject_makes`: what this comes to for a whole run.
-/

namespace ObjectModel

/-! ## Parts of cloning -/

namespace Cloning

variable {σ : Type}

theorem run_fromGraph {α : Type} {f : Graph → Except GraphError α} {c : Cloner σ} {a : α}
    (hf : f c.graph = .ok a) : (fromGraph f : Cloning σ α).run c = (.ok a, c) :=
  congrArg (·, c) hf

/-- What is read from the graph is gone on with, if it can be read. -/
theorem ends_read {α β : Type} {f : Graph → Except GraphError α} {x : α → Cloning σ β}
    {c : Cloner σ} {Q : β → Cloner σ → Prop} {E : Cloner σ → Prop} (hE : E c)
    (h : ∀ a, f c.graph = .ok a → Ends (x a) c Q E) : Ends (fromGraph f >>= x) c Q E := by
  cases hf : f c.graph with
  | ok a => exact .after (run_fromGraph hf) (h a hf)
  | error e => exact .of_run_error (run_bind_error (congrArg (·, c) hf)) hE

theorem run_changeGraph {f : Graph → Except GraphError Graph} {c : Cloner σ} {h : Graph}
    (hf : f c.graph = .ok h) :
    (changeGraph f : Cloning σ Unit).run c = (.ok (), { c with graph := h }) := by
  simp only [changeGraph, ExceptT.run, hf]

theorem run_changeGraph_error {f : Graph → Except GraphError Graph} {c : Cloner σ} {e : GraphError}
    (hf : f c.graph = .error e) : (changeGraph f : Cloning σ Unit).run c = (.error e, c) := by
  simp only [changeGraph, ExceptT.run, hf]

/-- An object is made, and the source is remembered to have become it. -/
theorem run_allocate {c : Cloner σ} {r : Ref} {parent : Option Ref} {source : Header} {l : Layout}
    (hcreate : c.graph.createTag r.tag = .ok (c.graph.fresh r.tag,
      c.graph.add r.tag ⟨{ id := c.graph.lastId + 1 }, l.defaults⟩))
    (htag : r.tag < c.graph.stores.length) :
    (allocate r parent source).run c = (.ok (c.graph.fresh r.tag),
      { c with
        graph := c.graph.add r.tag
          ⟨{ source with id := c.graph.lastId + 1, parent, children := [] }, l.defaults⟩
        memo := (r, c.graph.fresh r.tag) :: c.memo }) := by
  have hread : (fromGraph (·.createTag r.tag) : Cloning σ (Ref × Graph)).run c =
      (.ok (c.graph.fresh r.tag,
        c.graph.add r.tag ⟨{ id := c.graph.lastId + 1 }, l.defaults⟩), c) :=
    congrArg (·, c) hcreate
  refine (run_bind_ok hread).trans ?_
  refine (run_bind_ok (run_changeGraph (f := fun _ => pure _) rfl)).trans ?_
  refine (run_bind_ok rfl).trans ?_
  -- The header is written after the object is made, into the object that is last of its tag.
  have hupdate (f : Header → Header) : (c.graph.add r.tag
      ⟨{ id := c.graph.lastId + 1 }, l.defaults⟩).updateHeader (c.graph.fresh r.tag) f =
        .ok (c.graph.add r.tag ⟨f { id := c.graph.lastId + 1 }, l.defaults⟩) := by
    refine bind_eq_ok.2 ⟨_, Graph.object_eq_ok.2 (Graph.object?_add_fresh htag), ?_⟩
    rw [Graph.modify_add_fresh htag]
    rfl
  exact run_bind_ok (run_changeGraph (hupdate _))

/-- Where no object is made, nothing is remembered either. -/
theorem run_allocate_error {c : Cloner σ} {r : Ref} {parent : Option Ref} {source : Header}
    {e : GraphError} (hcreate : c.graph.createTag r.tag = .error e) :
    (allocate r parent source).run c = (.error e, c) :=
  run_bind_error (congrArg (·, c) hcreate)

/-- Without a place for it, the object cannot be found again. -/
theorem run_allocate_of_le {c : Cloner σ} {r : Ref} {parent : Option Ref} {source : Header}
    {o : Object} (hcreate : c.graph.createTag r.tag = .ok (c.graph.fresh r.tag,
      c.graph.add r.tag o))
    (htag : c.graph.stores.length ≤ r.tag) :
    (allocate r parent source).run c = (.error (.danglingReference (c.graph.fresh r.tag)),
      { c with
        graph := c.graph.add r.tag o
        memo := (r, c.graph.fresh r.tag) :: c.memo }) := by
  have hnone : (c.graph.add r.tag o).object? (c.graph.fresh r.tag) = none := by
    rw [Graph.object?_add_of_le htag]
    exact Graph.object?_fresh
  refine (run_bind_ok (congrArg (·, c) hcreate)).trans ?_
  refine (run_bind_ok (run_changeGraph (f := fun _ => pure _) rfl)).trans
    ((run_bind_ok rfl).trans (run_bind_error (run_changeGraph_error ?_)))
  exact Graph.updateHeader_eq_error (Graph.contains_eq_false.2 hnone)

/-- Where there is a place for it, an object is made, or it cannot be and nothing is
    done. -/
theorem ends_allocate_of {c : Cloner σ} {r : Ref} {parent : Option Ref} {source : Header}
    {Q : Ref → Cloner σ → Prop} {E : Cloner σ → Prop} (htag : r.tag < c.graph.stores.length)
    (hE : ¬ (∃ made, c.graph.createTag r.tag = .ok made) → E c)
    (hQ : ∀ l, c.graph.model.layout r.tag = .ok l → Q (c.graph.fresh r.tag) { c with
      graph := c.graph.add r.tag
        ⟨{ source with id := c.graph.lastId + 1, parent, children := [] }, l.defaults⟩
      memo := (r, c.graph.fresh r.tag) :: c.memo }) :
    Ends (allocate r parent source) c Q E := by
  cases hcreate : c.graph.createTag r.tag with
  | error e =>
    refine .of_run_error (run_allocate_error hcreate) (hE fun ⟨_, h⟩ => ?_)
    rw [hcreate] at h
    cases h
  | ok made =>
    obtain ⟨copy, h⟩ := made
    obtain ⟨l, hl, rfl, rfl⟩ := Graph.createTag_eq_ok hcreate
    exact .of_run (run_allocate hcreate htag) (hQ l hl)

section

variable {I E : Cloner σ → Prop} {α : Type}

/-- Reading keeps what it may fail with. -/
theorem keeps_fromGraph (hIE : ∀ c, I c → E c) (f : Graph → Except GraphError α) :
    Keeps I E (fromGraph f : Cloning σ α) := by
  intro c hc
  unfold Ends
  split
  · exact hc
  · exact hIE _ hc

/-- What cannot fail may be read from the graph at any time. -/
theorem keeps_fromGraph_pure (f : Graph → α) :
    Keeps I E (fromGraph fun g => pure (f g) : Cloning σ α) := fun _ hc => hc

theorem keeps_fromBindings (f : σ → α) : Keeps I E (fromBindings f) := fun _ hc => hc

theorem agrees_mapRefs {f k : Ref → Cloning σ Ref} {v : Value}
    (hf : ∀ r ∈ v.references, Agrees I E (f r) (k r)) : Agrees I E (mapRefs f v) (mapRefs k v) := by
  unfold mapRefs
  split
  · exact (hf _ List.mem_cons_self).bind fun _ => .pure _
  · exact (Agrees.mapM hf).bind fun _ => .pure _
  · exact .pure _

theorem keeps_mapRefs {f : Ref → Cloning σ Ref} {v : Value}
    (hf : ∀ r ∈ v.references, Keeps I E (f r)) : Keeps I E (mapRefs f v) :=
  (agrees_mapRefs fun r hr => .of_keeps (hf r hr)).keeps

variable [Bindings σ]

theorem keeps_rebind (key : String) (r : Ref) : Keeps I E (rebind key r : Cloning σ Ref) :=
  keeps_fromBindings _

theorem keeps_boundNet? (r : Ref) : Keeps I E (boundNet? r : Cloning σ (Option Ref)) := by
  refine (keeps_fromGraph_pure _).bind fun name => ?_
  split
  · split
    · exact .pure _
    · exact keeps_fromBindings _
  · exact .pure _

variable {deep deep' : Ref → Cloning σ Ref} {v : Value}

/-- Under each policy for references, computations agree that agree on the
    references of the value. -/
theorem agrees_applyPolicy (hdeep : ∀ r ∈ v.references, Agrees I E (deep r) (deep' r))
    (members : List Member) (source : List Value) (policy : MemberClone) :
    Agrees I E (applyPolicy deep members source policy v)
      (applyPolicy deep' members source policy v) := by
  unfold applyPolicy
  split
  · exact agrees_mapRefs hdeep
  · exact .pure v
  · refine (Agrees.of_keeps (keeps_fromBindings _)).bind fun unique => ?_
    split
    · exact agrees_mapRefs hdeep
    · exact .pure v
  · split
    · exact .of_keeps (keeps_mapRefs fun r _ => keeps_rebind _ r)
    · exact .pure v
  · refine .of_keeps (keeps_mapRefs fun r _ => (keeps_fromGraph_pure _).bind fun name => ?_)
    split
    · exact keeps_rebind _ _
    · exact .pure r

/-- Nothing but what a member refers to is cloned for it. -/
theorem agrees_cloneReferences (hdeep : ∀ r ∈ v.references, Agrees I E (deep r) (deep' r))
    (policy : PolicyTable) (how : Method) (members : List Member) (source : List Value)
    (m : Member) : Agrees I E (cloneReferences deep policy how members source m v)
      (cloneReferences deep' policy how members source m v) := by
  have hpolicy := agrees_applyPolicy hdeep members source (policy.memberCloneOf how.chain m)
  unfold cloneReferences
  split
  · split
    · exact .of_keeps (keeps_mapRefs fun r _ => keeps_fromBindings _)
    · exact hpolicy
  · split
    · exact .of_keeps (keeps_mapRefs fun r _ => keeps_rebind _ r)
    · exact hpolicy
  · refine agrees_mapRefs fun r hr => (Agrees.of_keeps (keeps_boundNet? r)).bind fun net => ?_
    split
    · exact .pure _
    · exact hdeep r hr
  · exact hpolicy

/-- All members are cloned if what they refer to is. -/
theorem agrees_cloneMembers {source : List Value}
    (hdeep : ∀ v ∈ source, ∀ r ∈ v.references, Agrees I E (deep r) (deep' r))
    (policy : PolicyTable) (how : Method) (members : List Member) :
    Agrees I E
      ((members.zip source).mapM fun (m, v) =>
        if m.isReference then cloneReferences deep policy how members source m v else pure v)
      ((members.zip source).mapM fun (m, v) =>
        if m.isReference then cloneReferences deep' policy how members source m v else pure v) := by
  refine Agrees.mapM fun (m, v) hmv => ?_
  dsimp only
  split
  · exact agrees_cloneReferences (hdeep v (List.of_mem_zip hmv).2) policy how members source m
  · exact .pure v

theorem keeps_cloneMembers {source : List Value}
    (hdeep : ∀ v ∈ source, ∀ r ∈ v.references, Keeps I E (deep r)) (policy : PolicyTable)
    (how : Method) (members : List Member) :
    Keeps I E ((members.zip source).mapM fun (m, v) =>
      if m.isReference then cloneReferences deep policy how members source m v else pure v) :=
  (agrees_cloneMembers (fun v hv r hr => .of_keeps (hdeep v hv r hr)) policy how members).keeps

end

/-- The graph is in `I` throughout, and in `E` should `x` fail. -/
def Stays (I E : Graph → Prop) {α : Type} (x : Cloning σ α) : Prop :=
  Keeps (fun c => I c.graph) (fun c => E c.graph) x

section

variable {I E : Graph → Prop}

theorem stays_changeBindings (f : σ → σ) : Stays I E (changeBindings f) := fun _ hc => hc

theorem stays_remember (r s : Ref) : Stays I E (remember r s : Cloning σ Unit) := fun _ hc => hc

end

/-! ## What is made on the way -/

section

variable (g : Graph) (parent : Option Ref)

/-- Objects were made, and those in `hosts` are among them. -/
def Made (hosts : List Ref) (h : Graph) : Prop := ∃ made, g.Makes parent made h ∧ hosts ⊆ made

/-- Objects can be made under `p`, when those in `hosts` have been made. -/
def Hosted (hosts : List Ref) (p : Option Ref) : Prop := p = parent ∨ ∃ s ∈ hosts, p = some s

end

variable {g : Graph} {parent p : Option Ref} {hosts : List Ref} {r : Ref}

/-- Making objects extends the graph. -/
theorem extends_of_made (c : Cloner σ) (hc : Made g parent hosts c.graph) : g.Extends c.graph :=
  let ⟨_, hm, _⟩ := hc
  hm.extension

theorem Made.mono {h : Graph} {hosts' : List Ref} (hh : Made g parent hosts h)
    (hsub : hosts' ⊆ hosts) : Made g parent hosts' h :=
  let ⟨made, hm, hhosts⟩ := hh
  ⟨made, hm, fun _ hs => hhosts (hsub hs)⟩

/-- Making an object gives one more host. -/
theorem ends_allocate {c : Cloner σ} {source : Header} (hp : Hosted parent hosts p)
    (hc : Made g parent hosts c.graph) :
    Ends (allocate r p source) c (fun copy c' => Made g parent (copy :: hosts) c'.graph)
      fun c' => g.Extends c'.graph := by
  obtain ⟨made, hm, hhosts⟩ := hc
  rcases Nat.lt_or_ge r.tag c.graph.stores.length with htag | htag
  · refine ends_allocate_of htag (fun _ => hm.extension) fun l _ => ⟨_, hm.add htag rfl ?_, ?_⟩
    · exact hp.imp_right fun ⟨s, hs, hps⟩ => ⟨s, hhosts hs, hps⟩
    · refine List.cons_subset.2 ⟨?_, fun s hs => List.mem_append_left _ (hhosts hs)⟩
      exact List.mem_append_right _ (List.mem_singleton_self _)
  · cases hcreate : c.graph.createTag r.tag with
    | error e => exact .of_run_error (run_allocate_error hcreate) hm.extension
    | ok made' =>
      obtain ⟨copy, h⟩ := made'
      obtain ⟨l, -, rfl, rfl⟩ := Graph.createTag_eq_ok hcreate
      exact .of_run_error (run_allocate_of_le hcreate htag) hm.extension.add

/-- Hosts can be written into. -/
theorem stays_modify {f : Graph → Except GraphError Graph} (hr : r ∈ hosts)
    (hf : ∀ h, (∃ e, f h = .error e) ∨ ∃ w, f h = .ok (h.modify r w) ∧
      ∀ o, (w o).header.id = o.header.id ∧ (w o).header.parent = o.header.parent) :
    Stays (Made g parent hosts) g.Extends (changeGraph f : Cloning σ Unit) := by
  rintro c ⟨made, hm, hhosts⟩
  rcases hf c.graph with ⟨e, he⟩ | ⟨w, hw, hkeeps⟩
  · exact .of_run_error (run_changeGraph_error he) hm.extension
  · exact .of_run (run_changeGraph hw) ⟨made, hm.modify (hhosts hr) hkeeps, hhosts⟩

/-- The children of a host may be written. -/
theorem stays_updateHeader {f : Header → Header} (hr : r ∈ hosts)
    (hf : ∀ h, (f h).id = h.id ∧ (f h).parent = h.parent) :
    Stays (Made g parent hosts) g.Extends
      (changeGraph (·.updateHeader r f) : Cloning σ Unit) :=
  stays_modify hr fun h => by
    rw [Graph.updateHeader]
    cases Graph.object h r with
    | error e => exact .inl ⟨e, rfl⟩
    | ok o => exact .inr ⟨_, rfl, fun o => hf o.header⟩

/-- The values of a host may be written. -/
theorem stays_setValues {values : List Value} (hr : r ∈ hosts) :
    Stays (Made g parent hosts) g.Extends
      (changeGraph (·.setValues r values) : Cloning σ Unit) :=
  stays_modify hr fun h => by
    rw [Graph.setValues]
    cases Graph.object h r with
    | error e => exact .inl ⟨e, rfl⟩
    | ok o => exact .inr ⟨_, rfl, fun _ => ⟨rfl, rfl⟩⟩

/-- Objects are cloned under hosts, with others made along with them. -/
def Clones (g : Graph) (parent : Option Ref) (clone : Ref → Option Ref → Cloning σ Ref) : Prop :=
  ∀ hosts r p, Hosted parent hosts p → Stays (Made g parent hosts) g.Extends (clone r p)

/-- One object is made under a host, and given the values of its source. -/
theorem stays_shallow (hp : Hosted parent hosts p) :
    Stays (Made g parent hosts) g.Extends (shallow r p : Cloning σ Ref) := by
  intro c hc
  refine (keeps_fromGraph extends_of_made _ c hc).bind fun source c hc => ?_
  refine (ends_allocate hp hc).bind fun copy c hc => ?_
  refine (stays_setValues List.mem_cons_self c hc).bind fun _ c hc => ?_
  exact .pure (hc.mono (List.subset_cons_self _ _))

variable [Bindings σ] {clone : Ref → Option Ref → Cloning σ Ref}

/-- An object is made, becomes a host for what is
    cloned below it, and is written into afterwards. -/
theorem stays_generic (hclone : Clones g parent clone) (chain : List Entity)
    (custom : Option CustomClone) (hp : Hosted parent hosts p) :
    Stays (Made g parent hosts) g.Extends (generic clone chain custom r p) := by
  intro c hc
  unfold generic
  refine (keeps_fromGraph extends_of_made _ c hc).bind fun source c hc => ?_
  refine (ends_allocate hp hc).bind fun copy c hc => ?_
  -- From now on, the copy is a host as well.
  suffices hrest : Stays (Made g parent (copy :: hosts)) g.Extends _ from
    (hrest c hc).mono (fun _ _ hc => hc.mono (List.subset_cons_self _ _)) fun _ hc => hc
  have hcopy : Hosted parent (copy :: hosts) (some copy) := .inr ⟨copy, List.mem_cons_self, rfl⟩
  refine (keeps_fromGraph extends_of_made _).bind fun policy => ?_
  refine (keeps_fromGraph extends_of_made _).bind fun name => ?_
  refine (stays_changeBindings _).bind fun _ => ?_
  refine (keeps_fromGraph extends_of_made _).bind fun members => ?_
  refine (keeps_cloneMembers (fun _ _ r _ => hclone _ r _ hcopy) _ _ _).bind fun values => ?_
  refine (Keeps.mapM fun r _ => hclone _ r _ hcopy).bind fun children => ?_
  refine (stays_changeBindings _).bind fun _ => ?_
  refine (stays_updateHeader List.mem_cons_self ?_).bind fun _ => ?_
  · exact fun _ => ⟨rfl, rfl⟩
  exact (stays_setValues List.mem_cons_self).bind fun _ => .pure copy

/-- What is found by name is not made. Otherwise the object is cloned as others are. -/
theorem stays_dedup (hclone : Clones g parent clone) (chain : List Entity) (kind : BindingKind)
    (hp : Hosted parent hosts p) :
    Stays (Made g parent hosts) g.Extends (dedup clone chain kind r p) := by
  refine (keeps_fromGraph extends_of_made _).bind fun name => ?_
  split
  · exact stays_generic hclone chain none hp
  · refine (keeps_fromBindings _).bind fun existing => ?_
    split
    · exact (stays_remember _ _).bind fun _ => .pure _
    · refine (stays_generic hclone chain none hp).bind fun copy => ?_
      exact (stays_changeBindings _).bind fun _ => .pure copy

/-- If what an object refers to is cloned so, the object is. -/
theorem Clones.cloneWith (hclone : Clones g parent clone) :
    Clones g parent (Cloning.cloneWith clone) := by
  intro hosts r p hp
  refine Keeps.bind (fun c hc => hc) fun c => ?_
  split
  · exact .pure _
  · refine (keeps_fromGraph extends_of_made _).bind fun e => ?_
    refine (keeps_fromGraph extends_of_made _).bind fun chain => ?_
    refine (keeps_fromGraph extends_of_made _).bind fun kind => ?_
    split
    · exact stays_generic hclone chain none hp
    · exact stays_dedup hclone chain _ hp
    · exact stays_shallow hp
    · exact stays_generic hclone chain _ hp

/-- Cloning to whatever depth makes objects under hosts only. -/
theorem clones_cloneUpTo (g : Graph) (parent : Option Ref) (n : Nat) :
    Clones g parent (cloneUpTo n : Ref → Option Ref → Cloning σ Ref) := by
  induction n with
  | zero => exact fun _ _ _ _ c hc => extends_of_made c hc
  | succ n ih => exact ih.cloneWith

end Cloning

/-- Cloning only makes objects. From any state of cloning, in any setting, and
    whether or not it comes to an end,

    * all objects stay as they are, and new ones come after those of their tags.

    If it comes to an end, there is the list of the new objects in the order in
    which they were made, which is that of their ids, and

    * each of them is under the parent that was asked for, or under one of them
      that was made before it;
    * so from each, owners lead to that parent without meeting any twice. -/
theorem Cloner.cloneObject_makes {σ : Type} [Bindings σ] (c : Cloner σ) (r : Ref)
    (parent : Option Ref) :
    (∀ s o, c.graph.object? s = some o →
      (c.cloneObject r parent).2.graph.object? s = some o) ∧
    List.Forall₂ (· <+: ·) c.graph.stores (c.cloneObject r parent).2.graph.stores ∧
    ∀ copy, (c.cloneObject r parent).1 = .ok copy → ∃ made : List Ref, made.Nodup ∧
      (∀ s, s ∈ made ↔ (c.cloneObject r parent).2.graph.contains s = true ∧
        c.graph.contains s = false) ∧
      (∀ i s, made[i]? = some s → ∃ o, (c.cloneObject r parent).2.graph.object? s = some o ∧
        o.header.id = c.graph.lastId + UInt32.ofNat (i + 1) ∧
        (o.header.parent = parent ∨ ∃ t ∈ made.take i, o.header.parent = some t)) ∧
      ∀ s ∈ made, ∃ path : List Ref, path.head? = some s ∧ path.Nodup ∧ (∀ t ∈ path, t ∈ made) ∧
        path.map (c.cloneObject r parent).2.graph.parent? = path.tail.map some ++ [parent] := by
  have hstart : Cloning.Made c.graph parent [] c.graph :=
    ⟨[], .nothing c.graph parent, List.nil_subset _⟩
  have hends : Ends (Cloning.cloneUpTo c.graph.cloneDepth r parent) c
      (fun _ c' => Cloning.Made c.graph parent [] c'.graph) fun c' => c.graph.Extends c'.graph :=
    Cloning.clones_cloneUpTo c.graph parent c.graph.cloneDepth [] r parent (.inl rfl) c hstart
  have hextends : c.graph.Extends (c.cloneObject r parent).2.graph :=
    Ends.state (I := fun c' => c.graph.Extends c'.graph)
      (hends.mono (fun _ => Cloning.extends_of_made) fun _ h => h)
  refine ⟨fun s o ho => hextends.object? ho, hextends.stores, fun copy hcopy => ?_⟩
  obtain ⟨made, hm, -⟩ := hends.of_ok hcopy
  exact ⟨made, hm.nodup, hm.mem, hm.placed, fun s hs => hm.exists_path hs⟩

end ObjectModel
