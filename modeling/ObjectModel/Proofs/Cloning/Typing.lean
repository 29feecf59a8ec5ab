import ObjectModel.Policy.Check
import ObjectModel.Proofs.Cloning.Recorded
import ObjectModel.Proofs.Comparison.Bisimulation
import ObjectModel.Proofs.Graph.Design

/-!
# The types of cloned references

If a typing is kept by all that cloning puts in the place of references, a graph
that goes by it still does after cloning, provided that all that is bound was
recorded by cloning (`Cloner.cloneObject_obeys`). Every part of cloning is shown
to put references to objects in the place of others, of tags that are allowed
for (`Cloning.Yields`), and to leave a state of the same kind.

So references name objects after cloning, and a graph remains sound if what the
slots declare is kept by replacements. Otherwise there may be references of tags
that come about by replacing (`Cloner.cloneObject_types`).
-/

namespace ObjectModel

namespace Cloning

/-- The graph is of the model and goes by the typing, and what is bound was
    recorded by cloning. -/
structure Typed (T : Typing) (m : Model) (c : Cloner Elaboration) : Prop where
  model : c.graph.model = m
  graph : c.graph.Obeys T
  recorded : c.Recorded

/-- There is an object `s`, of the tag of `r` or one that `Q` allows for. -/
def Yields (Q : Nat → Nat → Bool) (r s : Ref) (c : Cloner Elaboration) : Prop :=
  c.graph.contains s = true ∧ (s.tag = r.tag ∨ Q r.tag s.tag = true)

/-- The state in which a part of cloning ends that begins in `c`. -/
def Onward (T : Typing) (m : Model) (c c' : Cloner Elaboration) : Prop :=
  c.graph.RemainsIn c'.graph ∧ Typed T m c'

/-- `f` puts references to objects in the place of others, as `Q` allows for. -/
def Substitutes (T : Typing) (m : Model) (Q : Nat → Nat → Bool)
    (f : Ref → Cloning Elaboration Ref) : Prop :=
  ∀ c r, Typed T m c → c.graph.contains r = true →
    Ends (f r) c (fun s c' => Yields Q r s c' ∧ Onward T m c c') (Typed T m)

variable {T : Typing} {m : Model} {Q : Nat → Nat → Bool} {f deep : Ref → Cloning Elaboration Ref}
  {c c' : Cloner Elaboration} {v : Value} {r : Ref}

theorem Onward.refl (hc : Typed T m c) : Onward T m c c := ⟨.refl _, hc⟩

theorem lasting_yields : Lasting (fun c c' : Cloner Elaboration => c.graph.RemainsIn c'.graph)
    (Yields Q) :=
  fun _ s _ _ h hs => ⟨h.contains s hs.1, hs.2⟩

theorem related_self (hv : ∀ r ∈ v.references, c.graph.contains r = true) :
    v.Related (Yields Q · · c) v :=
  .refl fun r hr => ⟨hv r hr, .inl rfl⟩

/-- What is found is put in the place of a reference, if anything is. -/
theorem substitutes_lookup (look : Elaboration → Option Ref) {B : Nat → Bool}
    (hlook : ∀ c s, Typed T m c → look c.bindings = some s →
      c.graph.contains s = true ∧ B s.tag = true) :
    Substitutes T m (fun _ => B) fun r => fromBindings fun e => (look e).getD r := by
  intro c r hc hr
  refine .of_run (a := (look c.bindings).getD r) rfl ⟨?_, .refl hc⟩
  cases hs : look c.bindings with
  | none => exact ⟨hr, .inl rfl⟩
  | some s => exact (hlook c s hc hs).imp_right .inr

theorem substitutes_rebind (key : String) :
    Substitutes T m (fun _ => m.binds) (rebind key : Ref → Cloning Elaboration Ref) :=
  substitutes_lookup _ fun _ _ hc hs => hc.model ▸ hc.recorded.bindings.bindAny hs

/-- References are replaced one after the other, by objects that remain. -/
theorem Substitutes.mapRefs (hf : Substitutes T m Q f) (hc : Typed T m c)
    (hv : ∀ r ∈ v.references, c.graph.contains r = true) :
    Ends (Cloning.mapRefs f v) c (fun w c' => v.Related (Yields Q · · c') w ∧ Onward T m c c')
      (Typed T m) := by
  cases v with
  | ref target =>
    cases target with
    | none => exact .pure ⟨.none, .refl hc⟩
    | some r =>
      refine (hf c r hc (hv r List.mem_cons_self)).bind fun s c' ⟨hs, hc'⟩ => ?_
      exact .pure ⟨.some hs, hc'⟩
  | refs items =>
    cases items with
    | none => exact .pure ⟨.nil, .refl hc⟩
    | some l =>
      -- All items are there from the start, and cloning one takes none of the others away.
      have hall := Ends.mapM (l := l) (f := f) (E := Typed T m)
        (I := fun c => Typed T m c ∧ ∀ r ∈ l, c.graph.contains r = true)
        (fun c => .refl c.graph) (fun _ _ _ => .trans) (lasting_yields (Q := Q))
        (fun r hr c hc => ?_) ⟨hc, hv⟩
      · refine hall.bind fun copies c' ⟨hcopies, hremains, hc', _⟩ => ?_
        exact .pure ⟨hcopies, hremains, hc'⟩
      · refine (hf c r hc.1 (hc.2 r hr)).mono (fun s c' ⟨hs, hremains, hc'⟩ => ?_) fun _ h => h
        exact ⟨hs, hremains, hc', fun q hq => hremains.contains q (hc.2 q hq)⟩
  | _ => exact .pure ⟨rfl, .refl hc⟩

/-- References are replaced as the policy of the member has it. -/
theorem ends_applyPolicy (hdeep : Substitutes T m m.merges deep) (members : List Member)
    (source : List Value) (policy : MemberClone) (hc : Typed T m c)
    (hv : ∀ r ∈ v.references, c.graph.contains r = true) :
    Ends (applyPolicy deep members source policy v) c
      (fun w c' => v.Related (Yields (m.replacesBy policy) · · c') w ∧ Onward T m c c')
      (Typed T m) := by
  have hsame : Ends (pure v : Cloning Elaboration Value) c
      (fun w c' => v.Related (Yields (m.replacesBy policy) · · c') w ∧ Onward T m c c')
      (Typed T m) := .pure ⟨related_self hv, .refl hc⟩
  cases policy with
  | deep => exact hdeep.mapRefs hc hv
  | «alias» => exact hsame
  | uniquify =>
    refine .after (t := c) rfl ?_
    split
    · exact hdeep.mapRefs hc hv
    · exact hsame
  | rebind key key' =>
    cases key' with
    | referrer =>
      rw [applyPolicy]
      split
      · exact (substitutes_rebind _).mapRefs hc hv
      · exact hsame
    -- The key is read from each target, and one without it is kept.
    | target =>
      refine Substitutes.mapRefs (Q := fun _ => m.binds) (fun c r hc hr => ?_) hc hv
      refine .after (t := c) rfl ?_
      split
      · exact substitutes_rebind _ c r hc hr
      · exact .pure ⟨⟨hr, .inl rfl⟩, .refl hc⟩

/-- A net that takes the place of another was found in the table of nets. -/
theorem exists_boundNet? (r : Ref) (c : Cloner Elaboration) :
    ∃ net, (boundNet? r).run c = (.ok net, c) ∧
      ∀ s, net = some s → ∃ name, Bindings.bindNet c.bindings name = some s := by
  have hread : (fromGraph fun g => pure (g.name? r) : Cloning Elaboration (Option String)).run c =
    (.ok (c.graph.name? r), c) := rfl
  rw [boundNet?, run_bind_ok hread]
  rcases c.graph.name? r with _ | name
  · exact ⟨none, rfl, fun s hs => by cases hs⟩
  · by_cases hname : name = ""
    · exact ⟨none, by simp only [hname]; rfl, fun s hs => by cases hs⟩
    · exact ⟨Bindings.bindNet c.bindings name, by simp only [hname]; rfl, fun s hs => ⟨name, hs⟩⟩

/-- References in an object of the tag `k` are replaced as the model allows for. -/
theorem ends_cloneReferences {k : Nat} (hdeep : Substitutes T m m.merges deep) (name : String)
    (members : List Member) (source : List Value) (x : Member)
    (hconstant : m.cloneKind k ≠ .custom .constant) (hc : Typed T m c)
    (hv : ∀ r ∈ v.references, c.graph.contains r = true) :
    Ends (cloneReferences deep m.policy ⟨m.chainAt k, (m.cloneKind k).custom?, name⟩ members
        source x v) c
      (fun w c' => v.Related (Yields (m.replaces k x) · · c') w ∧ Onward T m c c')
      (Typed T m) := by
  have hpolicy := ends_applyPolicy hdeep members source (m.policy.memberCloneOf (m.chainAt k) x)
    hc hv
  -- The two definitions have the same branches, one for each method written by hand.
  unfold cloneReferences Model.replaces
  generalize m.cloneKind k = kind at hconstant ⊢
  rcases kind with _ | custom | _
  · exact hpolicy
  · rcases custom with _ | _ | _ | _ | _ | _
    · cases m.policy.skipsTraversal (m.chainAt k) x with
      | false => exact hpolicy
      | true =>
        refine Substitutes.mapRefs (substitutes_lookup (Bindings.bindTaskFunc · name)
          (B := fun t => m.cloneKind t == .custom .taskFunc) fun c s hc hs => ?_) hc hv
        obtain ⟨hlive, hkind⟩ := hc.recorded.bindings.bindTaskFunc hs
        exact ⟨hlive, by rw [← hc.model]; exact beq_iff_eq.2 hkind⟩
    · exact hpolicy
    · exact absurd rfl hconstant
    · exact hpolicy
    · cases x.hasTag .backReference with
      | false => exact hpolicy
      | true => exact (substitutes_rebind _).mapRefs hc hv
    · refine Substitutes.mapRefs (fun c r hc hr => ?_) hc hv
      obtain ⟨net, hnet, hbound⟩ := exists_boundNet? r c
      refine .after hnet ?_
      rcases net with _ | s
      · refine (hdeep c r hc hr).mono (fun s c' ⟨⟨hs, htag⟩, hc'⟩ => ⟨⟨hs, ?_⟩, hc'⟩) fun _ h => h
        exact htag.imp_right fun h => Bool.or_eq_true_iff.2 (.inr h)
      · obtain ⟨name, hname⟩ := hbound s rfl
        have hname : bound? .net name c.bindings = some s := hname
        obtain ⟨hlive, hkind⟩ := hc.recorded.bindings.bound? hname
        refine .pure ⟨⟨hlive, .inr (Bool.or_eq_true_iff.2 (.inl ?_))⟩, .refl hc⟩
        rw [← hc.model]
        exact beq_iff_eq.2 hkind
  · exact hpolicy

/-! ## Cloning objects -/

theorem Typed.withBindings {b : Elaboration} (hc : Typed T m c) (hb : b.Recorded c.graph) :
    Typed T m { c with bindings := b } :=
  ⟨hc.model, hc.graph, hb, hc.recorded.memo⟩

/-- An object may be changed if its slots go on to hold what they may. -/
theorem Typed.modify {w : Object → Object} (hc : Typed T m c)
    (hw : ∀ o l, c.graph.object? r = some o → c.graph.layout r = .ok l →
      List.Forall₂ (fun slot v => slot.Holds c.graph (T r.tag slot) v) l o.values →
      List.Forall₂ (fun slot v => slot.Holds c.graph (T r.tag slot) v) l (w o).values) :
    Onward T m c { c with graph := c.graph.modify r w } :=
  have hremains : c.graph.RemainsIn (c.graph.modify r w) :=
    ⟨rfl, fun _ hs => (Graph.contains_modify w).trans hs⟩
  ⟨hremains, hc.model, hc.graph.modify hw, hc.recorded.remains hremains⟩

theorem Onward.trans {c'' : Cloner Elaboration} (h : Onward T m c c') (h' : Onward T m c' c'') :
    Onward T m c c'' :=
  ⟨h.1.trans h'.1, h'.2⟩

/-- An object is made for `r`, and remembered. -/
theorem Typed.ends_allocate {o : Object} (hc : Typed T m c) (ho : c.graph.object? r = some o)
    (p : Option Ref) : Ends (allocate r p o.header) c (fun s c' => s.tag = r.tag ∧
      Onward T m c c' ∧ c'.graph.contains s = true) (Typed T m) := by
  have htag := Graph.tag_lt_of_contains (Graph.contains_of_object? ho)
  refine ends_allocate_of htag (fun _ => hc) fun l hl => ?_
  refine ⟨rfl, ?_, Cloner.contains_withImage htag⟩
  have hremains (copy : Object) : c.graph.RemainsIn (c.withImage r copy).graph :=
    ⟨rfl, fun s hs => (Graph.contains_add htag).2 (.inr hs)⟩
  refine ⟨hremains _, hc.model, hc.graph.add hl, ?_⟩
  exact (hc.recorded.remains (hremains _)).remember ⟨Cloner.contains_withImage htag, .inl rfl⟩

/-- Objects are cloned by `clone` to such as can take their places. -/
def ClonesTyped (T : Typing) (m : Model)
    (clone : Ref → Option Ref → Cloning Elaboration Ref) : Prop :=
  ∀ c r p, Typed T m c →
    Ends (clone r p) c (fun s c' => Yields m.merges r s c' ∧ Onward T m c c') (Typed T m)

variable {clone : Ref → Option Ref → Cloning Elaboration Ref} {p : Option Ref}

/-- What becomes of the references in slots is of a typing that allows for it. -/
theorem holds_of_related {k : Nat} {l : Layout} {values copies : List Value}
    (hT : ∀ slot ∈ l, ∀ t ∈ T k slot, ∀ t', m.replaces k slot.member t t' = true → t' ∈ T k slot)
    (hvalues : List.Forall₂ (fun slot v => slot.Holds c.graph (T k slot) v) l values)
    (hcopies : List.Forall₂ (fun (mv : Member × Value) w => w.fits mv.1 = true ∧
      mv.2.Related (Yields (m.replaces k mv.1) · · c') w) (l.members.zip values) copies) :
    List.Forall₂ (fun slot w => slot.Holds c'.graph (T k slot) w) l copies := by
  induction hvalues generalizing copies with
  | nil => cases hcopies; exact .nil
  | @cons slot v l values hv _ ih =>
    obtain ⟨hT, hTl⟩ := List.forall_mem_cons.1 hT
    rcases hcopies with _ | ⟨⟨hfits, hrelated⟩, hcopies⟩
    refine .cons ⟨hfits, fun s hs => ?_⟩ (ih hTl hcopies)
    obtain ⟨r, hr, hlive, htag⟩ := hrelated.exists_left hs
    refine ⟨hlive, ?_⟩
    rcases htag with htag | htag
    · exact htag ▸ (hv.2 r hr).2
    · exact hT r.tag (hv.2 r hr).2 s.tag htag

/-- Member by member, the references of an object are replaced. -/
theorem ClonesTyped.mapMembers {k : Nat} {l : Layout} {values source : List Value}
    (hclone : ClonesTyped T m clone) (name : String) (hconstant : m.cloneKind k ≠ .custom .constant)
    (hT : ∀ slot ∈ l, ∀ t ∈ T k slot, ∀ t', m.replaces k slot.member t t' = true → t' ∈ T k slot)
    (hvalues : List.Forall₂ (fun slot v => slot.Holds c.graph (T k slot) v) l values)
    (hc : Typed T m c) :
    Ends ((l.members.zip values).mapM fun (x, v) =>
        if x.isReference then cloneReferences (clone · p) m.policy
          ⟨m.chainAt k, (m.cloneKind k).custom?, name⟩ l.members source x v
        else pure v) c
      (fun copies c' => List.Forall₂ (fun slot w => slot.Holds c'.graph (T k slot) w) l copies ∧
        Onward T m c c') (Typed T m) := by
  have hdeep : Substitutes T m m.merges (clone · p) := fun c r hc _ => hclone c r p hc
  have hlasting : Lasting (fun c c' : Cloner Elaboration => c.graph.RemainsIn c'.graph)
      fun (mv : Member × Value) w c => w.fits mv.1 = true ∧
        mv.2.Related (Yields (m.replaces k mv.1) · · c) w :=
    fun _ _ _ _ h hw => ⟨hw.1, hw.2.imp fun r s => lasting_yields r s _ _ h⟩
  have hall := Ends.mapM (l := l.members.zip values) (E := Typed T m)
    (I := fun c' => Typed T m c' ∧ c.graph.RemainsIn c'.graph)
    (f := fun (x, v) => if x.isReference then cloneReferences (clone · p) m.policy
      ⟨m.chainAt k, (m.cloneKind k).custom?, name⟩ l.members source x v else pure v)
    (fun c => .refl c.graph) (fun _ _ _ => .trans) hlasting (fun mv hmv c₁ hc₁ => ?_)
    ⟨hc, .refl _⟩
  · refine hall.mono (fun copies c' h => ?_) fun _ h => h
    obtain ⟨hcopies, hremains, hc', -⟩ := h
    exact ⟨holds_of_related hT hvalues hcopies, hremains, hc'⟩
  · obtain ⟨x, v⟩ := mv
    -- The slot of the member holds the value.
    rw [Layout.members, List.zip_map_left] at hmv
    obtain ⟨⟨slot, v'⟩, hslot, heq⟩ := List.mem_map.1 hmv
    obtain ⟨rfl, rfl⟩ : slot.member = x ∧ v' = v := Prod.mk.inj heq
    obtain ⟨hfits, hrefs⟩ := List.forall₂_zip hvalues hslot
    have hv := fun r hr => hc₁.2.contains r (hrefs r hr).1
    dsimp only
    split
    · rename_i hx
      refine (ends_cloneReferences hdeep name l.members source _ hconstant hc₁.1 hv).mono
        (fun w c₂ h => ?_) fun _ h => h
      obtain ⟨hrelated, hremains, hc₂⟩ := h
      refine ⟨⟨Value.fits_of_kind hx ?_, hrelated⟩, hremains, hc₂, hc₁.2.trans hremains⟩
      rw [hrelated.kind_eq, Value.kind_of_fits hfits]
    · exact .pure ⟨⟨hfits, related_self hv⟩, .refl _, hc₁⟩

/-- Children are cloned one after the other. -/
theorem ClonesTyped.mapChildren (hclone : ClonesTyped T m clone) (children : List Ref)
    (hc : Typed T m c) : Ends (children.mapM (clone · p)) c (fun _ c' => Onward T m c c')
      (Typed T m) := by
  have hall := Ends.mapM (l := children) (f := (clone · p)) (E := Typed T m) (I := Typed T m)
    (fun c => .refl c.graph) (fun _ _ _ => .trans) (lasting_yields (Q := m.merges))
    (fun r _ c hc => hclone c r p hc) hc
  exact hall.mono (fun _ _ h => h.2) fun _ h => h

/-- Cloning an object member by member makes an object of its tag. -/
theorem ClonesTyped.generic (hclone : ClonesTyped T m clone) (hT : T.Stable m)
    (hconstant : m.cloneKind r.tag ≠ .custom .constant) (hc : Typed T m c) :
    Ends (Cloning.generic clone (m.chainAt r.tag) (m.cloneKind r.tag).custom? r p) c
      (fun s c' => (c'.graph.contains s = true ∧ s.tag = r.tag) ∧ Onward T m c c') (Typed T m) := by
  refine ends_read hc fun o hread => ?_
  have ho := Graph.object_eq_ok.1 hread
  obtain ⟨l, hl, hvalues⟩ := hc.graph.held r o ho
  have hl : m.layout r.tag = .ok l := hc.model ▸ hl
  refine (hc.ends_allocate ho p).bind fun s c₁ ⟨htag, ⟨hremains₁, hc₁⟩, hlive₁⟩ => ?_
  refine .after (run_fromGraph (a := m.policy)
    (congrArg (fun m : Model => Except.ok m.policy) hc₁.model)) ?_
  refine .after (run_fromGraph rfl) ?_
  generalize Option.getD _ "" = name
  refine .after rfl ?_
  -- What is bound on entering the object is its copy, if anything.
  have hc₂ := hc₁.withBindings (hc₁.recorded.bindings.prepare m.policy
    ⟨m.chainAt r.tag, (m.cloneKind r.tag).custom?, name⟩ s fun h =>
      ⟨hlive₁, by rw [hc₁.model, htag]; exact EntityClone.custom?_eq_some.1 h⟩)
  refine .after (run_fromGraph (a := l.members) ?_) ?_
  · exact map_eq_ok.2 ⟨l, (congrArg (Model.layout · r.tag) hc₁.model).trans hl, rfl⟩
  refine (hclone.mapMembers name hconstant (hT r.tag l hl)
    (hvalues.imp fun _ _ hv => hv.mono hremains₁.contains) hc₂).bind
      fun values c₃ ⟨hvalues, hon₃⟩ => ?_
  refine (hclone.mapChildren o.header.children hon₃.2).bind fun children c₄ hon₄ => .after rfl ?_
  have hlive₄ : c₄.graph.contains s = true := hon₄.1.contains s (hon₃.1.contains s hlive₁)
  have hc₄ := hon₄.2.withBindings (hon₄.2.recorded.bindings.conclude m.policy
    ⟨m.chainAt r.tag, (m.cloneKind r.tag).custom?, name⟩ s)
  refine .after (run_changeGraph (Graph.updateHeader_eq hlive₄)) (.after (run_changeGraph
    (Graph.setValues_eq ((Graph.contains_modify _).trans hlive₄))) (.pure ?_))
  rw [Graph.modify_modify]
  have hon := hc₄.modify (r := s)
    (w := fun o => { o with header.children := children, values }) fun o' l' _ hl' _ => ?_
  · exact ⟨⟨(Graph.contains_modify _).trans hlive₄, htag⟩,
      hremains₁.trans (hon₃.1.trans (hon₄.1.trans hon.1)), hon.2⟩
  · have hl' : m.layout s.tag = .ok l' := hon₄.2.model ▸ hl'
    obtain rfl := Except.ok.inj (hl'.symm.trans (htag ▸ hl))
    rw [htag]
    exact hvalues.imp fun _ _ hv => hv.mono hon₄.1.contains

/-- A clone that shares all references holds what the object does. -/
theorem ends_shallow_typed (hc : Typed T m c) :
    Ends (shallow r p : Cloning Elaboration Ref) c
      (fun s c' => (c'.graph.contains s = true ∧ s.tag = r.tag) ∧ Onward T m c c') (Typed T m) := by
  refine ends_read hc fun o hread => ?_
  have ho := Graph.object_eq_ok.1 hread
  obtain ⟨l, hl, hvalues⟩ := hc.graph.held r o ho
  refine (hc.ends_allocate ho p).bind fun s c₁ ⟨htag, hon₁, hlive₁⟩ => ?_
  refine .after (run_changeGraph (Graph.setValues_eq hlive₁)) (.pure ?_)
  have hon := hon₁.2.modify (r := s) (w := fun p => { p with values := o.values })
    fun o' l' _ hl' _ => ?_
  · exact ⟨⟨(Graph.contains_modify _).trans hlive₁, htag⟩, hon₁.trans hon⟩
  · have hl' : c.graph.model.layout s.tag = .ok l' :=
      (congrArg (Model.layout · s.tag) (hc.model.trans hon₁.2.model.symm)).trans hl'
    rw [htag] at hl' ⊢
    obtain rfl := Except.ok.inj (hl'.symm.trans hl)
    exact hvalues.imp fun _ _ hv => hv.mono hon₁.1.contains

/-- What is bound to the name is an object that may take the place. Otherwise a
    clone of the same entity does. -/
theorem ClonesTyped.dedup {kind : BindingKind} (hclone : ClonesTyped T m clone) (hT : T.Stable m)
    (hkind : m.cloneKind r.tag = .dedupByName kind) (hc : Typed T m c) :
    Ends (Cloning.dedup clone (m.chainAt r.tag) kind r p) c
      (fun s c' => Yields m.merges r s c' ∧ Onward T m c c') (Typed T m) := by
  have hgeneric := hclone.generic (r := r) (p := p) hT (by simp [hkind]) hc
  rw [hkind] at hgeneric
  refine .after (run_fromGraph rfl) ?_
  generalize Option.getD _ "" = name
  split
  · exact hgeneric.mono (fun s c' h => ⟨⟨h.1.1, .inl h.1.2⟩, h.2⟩) fun _ h => h
  · refine .after (t := c) (a := bound? kind name c.bindings) rfl ?_
    cases hbound : bound? kind name c.bindings with
    -- The clone that is found may have another tag, if that is deduplicated by the same table.
    | some s =>
      obtain ⟨hs, htag⟩ := hc.recorded.bindings.bound? hbound
      have hmerges : c.graph.model.merges r.tag s.tag = true := by
        rw [hc.model] at htag ⊢
        simp [Model.merges, htag, hkind, EntityClone.table?]
      have hc' := hc.recorded.remember ⟨hs, .inr hmerges⟩
      exact .after rfl (.pure ⟨⟨hs, .inr (hc.model ▸ hmerges)⟩, .refl _, hc.model, hc.graph, hc'⟩)
    | none =>
      refine hgeneric.bind fun s c' h => .after rfl (.pure ?_)
      obtain ⟨hs, hremains, hc'⟩ := h
      have hrecord := hc'.recorded.bindings.recordNamed name
        ⟨hs.1, by rw [hc'.model, hs.2, hkind]⟩
      exact ⟨⟨hs.1, .inl hs.2⟩, hremains, hc'.withBindings hrecord⟩

/-- In whatever way an object is cloned, the clone can take its place. -/
theorem ClonesTyped.cloneWith (hclone : ClonesTyped T m clone) (hT : T.Stable m) :
    ClonesTyped T m (Cloning.cloneWith clone) := by
  intro c r p hc
  have hmodel := hc.model
  subst hmodel
  have hplaced : ∀ (s : Ref) (c' : Cloner Elaboration),
      (c'.graph.contains s = true ∧ s.tag = r.tag) ∧ Onward T c.graph.model c c' →
        Yields c.graph.model.merges r s c' ∧ Onward T c.graph.model c c' :=
    fun _ _ ⟨hs, hon⟩ => ⟨⟨hs.1, .inl hs.2⟩, hon⟩
  refine ends_cloneWith (fun s hs => ⟨hc.recorded.memo r s hs, .refl hc⟩) (fun _ => hc)
    (fun _ _ hconstant => ?_) (fun _ _ hkind => hclone.dedup hT hkind hc) fun _ _ => ?_
  · exact (hclone.generic hT hconstant hc).mono hplaced fun _ h => h
  · exact (ends_shallow_typed hc).mono hplaced fun _ h => h

/-- Cloning to whatever depth keeps to a typing that replacing does not leave. -/
theorem clonesTyped_cloneUpTo (hT : T.Stable m) (n : Nat) : ClonesTyped T m (cloneUpTo n) := by
  induction n with
  | zero => exact fun _ _ _ hc => hc
  | succ n ih => exact ih.cloneWith hT

end Cloning

namespace Cloner

/-- Whether or not cloning succeeds, a graph that went by a typing still does, if
    the typing allows for replacements and all that is bound was recorded by
    cloning; and then it still is. -/
theorem cloneObject_obeys {T : Typing} (c : Cloner Elaboration) (hT : T.Stable c.graph.model)
    (hg : c.graph.Obeys T) (hc : c.Recorded) (r : Ref) (parent : Option Ref) :
    (c.cloneObject r parent).2.graph.model = c.graph.model ∧
      (c.cloneObject r parent).2.graph.Obeys T ∧ (c.cloneObject r parent).2.Recorded := by
  have hends := Cloning.clonesTyped_cloneUpTo hT c.graph.cloneDepth c r parent ⟨rfl, hg, hc⟩
  obtain ⟨hmodel, hgraph, hrecorded⟩ := Ends.state (hends.mono (fun _ _ h => h.2.2) fun _ h => h)
  exact ⟨hmodel, hgraph, hrecorded⟩

/-- What cloning makes of the types of references, in a sound graph where all that
    is bound was recorded by cloning, and whether or not it succeeds:

    * what is bound afterwards was recorded by cloning;
    * members hold references to objects only;
    * the tag of a reference comes from a tag that its slot takes by replacements;
    * if what slots declare allows for these, the graph is sound. -/
theorem cloneObject_types (c : Cloner Elaboration) (hg : c.graph.Sound) (hc : c.Recorded) (r : Ref)
    (parent : Option Ref) :
    (c.cloneObject r parent).2.Recorded ∧ (c.cloneObject r parent).2.graph.Live ∧
      (c.cloneObject r parent).2.graph.Obeys (.replaced c.graph.model) ∧
        (c.graph.model.Apt → (c.cloneObject r parent).2.graph.Sound) := by
  have hdeclared := Graph.sound_iff_obeys.1 hg
  have hreplaced : c.graph.Obeys (.replaced c.graph.model) :=
    hdeclared.weaken fun _ _ _ _ _ => Typing.declared_subset_replaced
  obtain ⟨-, hobeys, hrecorded⟩ :=
    cloneObject_obeys c Typing.stable_replaced hreplaced hc r parent
  refine ⟨hrecorded, hobeys.live, hobeys, fun hapt => Graph.sound_iff_obeys.2 ?_⟩
  exact (cloneObject_obeys c hapt hdeclared hc r parent).2.1

/-- A wire is merged with one of the same name, and the cell above is shared. -/
theorem cloneObject_types_cells :
    let policy := PolicyTable.empty.addAll [.entityClone "wire" (.dedupByName .net),
      .memberClone "cell" "up" .alias]
    let c : Cloner Elaboration := ⟨Design.graph policy [{ name := "a" }, { name := "a" }]
      [{ name := "a", wires := [0, 1], cells := [1] }, { up := some 0 }], {}, []⟩
    (c.cloneObject (Design.cell 0) none).1 = .ok (Design.cell 2) ∧
      (c.cloneObject (Design.cell 0) none).2.graph.Sound := by
  intro policy c
  have hsound : c.graph.Sound := Design.sound policy (by decide) (by decide)
  have hrecorded : c.Recorded := ⟨Elaboration.recorded_fresh _ false, fun _ _ h => by cases h⟩
  obtain ⟨-, -, -, happly⟩ := cloneObject_types c hsound hrecorded (Design.cell 0) none
  exact ⟨by decide +kernel, happly (by decide +kernel)⟩

/-- Cloning does not keep graphs sound, though nothing is bound before and the
    policy is not out of date: the cell above is replaced by a wire of its name. -/
theorem cloneTree_not_sound :
    ¬ ∀ (d : Declarations) (naming : Naming) (g : Graph) (r copy : Ref) (parent : Option Ref)
      (c : Cloner Elaboration), d.toSchema naming = .ok g.schema →
        g.model.policy.check g.schema = .ok () → g.Sound →
          g.cloneTree ({} : Elaboration) r parent = (.ok copy, c) → c.graph.Sound := by
  intro hkeeps
  let policy := PolicyTable.empty.addAll [.entityClone "wire" (.dedupByName .net)]
  let g := Design.graph policy [{ name := "a" }]
    [{ name := "a" }, { up := some 0 }, { wires := [0], cells := [1] }]
  have hg : g.Sound := Design.sound policy (by decide) (by decide)
  have hcopy : (g.cloneTree ({} : Elaboration) (Design.cell 2) none).1 = .ok (Design.cell 3) := by
    decide +kernel
  obtain ⟨c, hc⟩ : ∃ c, (g.cloneTree ({} : Elaboration) (Design.cell 2) none).2 = c := ⟨_, rfl⟩
  have hrun : g.cloneTree ({} : Elaboration) (Design.cell 2) none = (.ok (Design.cell 3), c) :=
    Prod.ext hcopy hc
  have hsound : c.graph.Sound := hkeeps Design.declarations .hardware g (Design.cell 2) _ none c
    Design.toSchema_declarations (by decide +kernel) hg hrun
  have hup : (c.graph.object? (Design.cell 4)).bind (·.values[1]?) =
      some (.ref (some (Design.wire 1))) := by
    rw [← hc]
    decide +kernel
  obtain ⟨o, ho, hup⟩ := Option.bind_eq_some_iff.1 hup
  have hl : c.graph.layout (Design.cell 4) = .ok Design.cellLayout := by
    rw [← hc]
    decide +kernel
  -- The member takes cells, and what it holds is a wire.
  have haccepts := (hsound.accepts ho hl).2 1 _ _ rfl hup
  exact absurd (haccepts.2 _ List.mem_cons_self).2 (by decide)

end Cloner

end ObjectModel
