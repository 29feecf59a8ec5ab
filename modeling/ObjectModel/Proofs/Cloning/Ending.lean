import Mathlib.Logic.Function.Iterate
import ObjectModel.Proofs.Cloning.Closing

/-!
# Where cloning ends

Cloning follows references and children, in a graph that grows meanwhile, and in a setting that
may know of new objects. Still it only ever goes on with objects that were there before, and
with each of them once: what is bound to a name takes the place of a reference, but is not
cloned in turn. So the number of objects that remain to be cloned (`Cloner.Within`) bounds both
how deep cloning goes and how many objects it makes.

That it goes no deeper means that nothing depends on what would be done there
(`Cloning.EndsWithin`). Cloning ends by itself, then, and the depth at which it would be stopped is
never reached (`Cloning.cloneTree_ends`).
-/

namespace ObjectModel

namespace Cloner

variable {σ : Type}

/-- Cloning has come from `g`, and by way of `h`. It has made no more objects than it has
    cloned of those in `g`, of which less than `n` remain, and has handed out no more ids. -/
structure Within (g h : Graph) (n : Nat) (c : Cloner σ) : Prop where
  base : g.Extends c.graph
  extension : h.Extends c.graph
  size : c.graph.size + remaining g.refs c.sources ≤ g.size + g.size
  ids : c.graph.lastId.toNat + remaining g.refs c.sources ≤ g.lastId.toNat + g.size
  depth : remaining g.refs c.sources < n

/-- Cloning has come from `g`, in which there were less ids left than there are objects, and
    has stopped for want of an id. -/
structure Exhausted (g : Graph) (c : Cloner σ) : Prop where
  size : c.graph.size ≤ g.size + g.size
  ids : ¬ g.IdsLeft g.size

variable {g h : Graph} {n : Nat} {c c' : Cloner σ} {r s : Ref} {o : Object}

theorem Within.withBindings (hc : c.Within g h n) (b : σ) :
    Within g h n { c with bindings := b } :=
  ⟨hc.base, hc.extension, hc.size, hc.ids, hc.depth⟩

/-- What has become of an object is remembered. -/
theorem Within.remember (hc : c.Within g h n) : Within g h n { c with memo := (r, s) :: c.memo } :=
  have hle : remaining g.refs (r :: c.sources) ≤ remaining g.refs c.sources :=
    remaining_le (List.subset_cons_self _ _)
  ⟨hc.base, hc.extension, Nat.le_trans (Nat.add_le_add_left hle _) hc.size,
    Nat.le_trans (Nat.add_le_add_left hle _) hc.ids, Nat.lt_of_le_of_lt hle hc.depth⟩

/-- An object is made for one that was not cloned before. -/
theorem Within.withImage (hc : c.Within g h (n + 1)) (hr : g.contains r = true)
    (hnew : c.cloned? r = none) :
    Within g (c.withImage r o).graph n (c.withImage r o) := by
  have hless := remaining_withImage_lt (o := o) hnew hr
  have htag := Graph.tag_lt_of_contains (hc.base.contains hr)
  refine ⟨hc.base.add, .refl _, ?_, ?_, Nat.lt_of_lt_of_le hless (Nat.le_of_lt_succ hc.depth)⟩
  · have hsize : (c.withImage r o).graph.size = c.graph.size + 1 := Graph.size_add htag
    have hbound := hc.size
    omega
  · -- The id that follows is higher by one, or is zero.
    have hid : (c.withImage r o).graph.lastId.toNat ≤ c.graph.lastId.toNat + 1 :=
      Graph.toNat_succ_le
    have hbound := hc.ids
    omega

/-- If no object can be made for one that was not cloned before, ids have come to an end. -/
theorem Within.exhausted (hc : c.Within g h (n + 1)) (hr : g.contains r = true)
    (hnew : c.cloned? r = none) (hleft : ¬ c.graph.IdsLeft 1) : c.Exhausted g where
  size := Nat.le_trans (Nat.le_add_right _ _) hc.size
  ids := by
    have hless := remaining_withImage_lt (o := ⟨{ id := 0 }, []⟩) hnew hr
    have hbound := hc.ids
    rw [Graph.IdsLeft] at hleft ⊢
    omega

/-- That object is written into when its parts have been cloned. -/
theorem Within.finish {f : Object → Object} (hc : c.Within g h (n + 1))
    (hc' : c'.Within g (c.withImage r o).graph n) :
    Within g h (n + 1) { c' with graph := c'.graph.modify (c.graph.fresh r.tag) f } where
  base := hc'.base.modify (Bool.eq_false_iff.2 fun hr => Graph.ne_fresh (hc.base.contains hr) rfl)
  extension := (hc.extension.add.trans hc'.extension).modify
    (Bool.eq_false_iff.2 fun hr => Graph.ne_fresh (hc.extension.contains hr) rfl)
  size := by
    rw [Graph.size_modify]
    exact hc'.size
  ids := hc'.ids
  depth := Nat.lt_succ_of_lt hc'.depth

end Cloner

namespace Cloning

variable {σ : Type} {g h : Graph} {n : Nat} {clone clone' : Ref → Option Ref → Cloning σ Ref}
  {c : Cloner σ} {r : Ref} {p : Option Ref} {chain : List Entity} {custom : Option CustomClone}

/-- As long as less than `n` objects remain to be cloned, `clone` and `clone'` do the same with
    each object, and come to an end with it, or to the end of ids. -/
def EndsWithin (g : Graph) (n : Nat) (clone clone' : Ref → Option Ref → Cloning σ Ref) : Prop :=
  ∀ h r p, g.contains r = true →
    Agrees (Cloner.Within g h n) (Cloner.Exhausted g) (clone r p) (clone' r p)

/-- An object is made for `r`, unless ids have come to an end. -/
theorem ends_allocate_within {o : Object} (hg : g.WellTyped) (ho : g.object? r = some o)
    (hc : c.Within g h (n + 1)) (hnew : c.cloned? r = none) :
    Ends (allocate r p o.header) c (fun s c' => s = c.graph.fresh r.tag ∧
      ∃ copy, c' = c.withImage r copy) (Cloner.Exhausted g) := by
  have hr := Graph.contains_of_object? ho
  have htag := Graph.tag_lt_of_contains (hc.base.contains hr)
  refine ends_allocate_of htag (fun hnone => hc.exhausted hr hnew fun hleft => hnone ?_)
    fun _ _ => ⟨rfl, _, rfl⟩
  obtain ⟨l, hcreate⟩ := hg.exists_createTag hr hc.base.model hleft
  exact ⟨_, hcreate⟩

/-- An object that shares what its source holds uses up itself only. -/
theorem ends_shallow_within (hg : g.WellTyped) (hr : g.contains r = true)
    (hc : c.Within g h (n + 1)) (hnew : c.cloned? r = none) :
    Ends (shallow r p) c (fun _ => Cloner.Within g h (n + 1)) (Cloner.Exhausted g) := by
  obtain ⟨o, ho⟩ := Graph.contains_iff.1 hr
  have htag := Graph.tag_lt_of_contains (hc.base.contains hr)
  refine .after (run_fromGraph (Graph.object_eq_ok.2 (hc.base.object? ho))) ?_
  refine (ends_allocate_within hg ho hc hnew).bind ?_
  rintro _ _ ⟨rfl, copy, rfl⟩
  refine .after (run_changeGraph (Graph.setValues_eq (Cloner.contains_withImage htag))) (.pure ?_)
  exact hc.finish (hc.withImage hr hnew)

variable [Bindings σ]

/-- An object is cloned with its parts, of which one remains less. -/
theorem EndsWithin.generic (hg : g.WellTyped) (hwhole : g.Whole)
    (hclone : EndsWithin g n clone clone') (hr : g.contains r = true)
    (hc : c.Within g h (n + 1)) (hnew : c.cloned? r = none) :
    EndsAs (Cloning.generic clone chain custom r p) (Cloning.generic clone' chain custom r p) c
      (fun _ => Cloner.Within g h (n + 1)) (Cloner.Exhausted g) := by
  obtain ⟨o, ho⟩ := Graph.contains_iff.1 hr
  obtain ⟨e, l, -, -, hl, hmembers, -⟩ := hg.object ho
  have htag := Graph.tag_lt_of_contains (hc.base.contains hr)
  have hmodel : c.graph.model = g.model := hc.base.model
  have hparts {s : Ref} (hs : s ∈ o.parts) := hwhole r o ho s hs
  refine .after (run_fromGraph (Graph.object_eq_ok.2 (hc.base.object? ho))) ?_
  refine (EndsAs.refl (ends_allocate_within hg ho hc hnew)).bind ?_
  rintro _ _ ⟨rfl, copy, rfl⟩
  have hmade := hc.withImage (o := copy) hr hnew
  refine .after (run_fromGraph rfl) (.after (run_fromGraph rfl) (.after rfl ?_))
  generalize (Method.prepare _ _ _ _ : σ) = b
  refine .after (run_fromGraph (a := g.schema.membersBaseFirst e) ?_) ?_
  · exact map_eq_ok.2 ⟨l, (congrArg (Model.layout · r.tag) hmodel).trans hl, hmembers⟩
  -- The parts are cloned by way of the graph that has the new object.
  have hpart {s : Ref} (hs : s ∈ o.parts) := hclone (c.withImage r copy).graph s
    (some (c.graph.fresh r.tag)) (hparts hs)
  refine (agrees_cloneMembers (fun v hv s hs => hpart (Object.mem_parts.2 (.inr ⟨v, hv, hs⟩)))
    _ _ _ _ (hmade.withBindings b)).bind fun values c₁ hc₁ => ?_
  refine (Agrees.mapM (fun s hs => hpart (Object.mem_parts.2 (.inl hs))) c₁ hc₁).bind
    fun children c₂ hc₂ => .refl (.after rfl ?_)
  have hlive := hc₂.extension.contains (Cloner.contains_withImage htag)
  refine .after (run_changeGraph (Graph.updateHeader_eq hlive)) ?_
  refine .after (run_changeGraph (Graph.setValues_eq ((Graph.contains_modify _).trans hlive)))
    (.pure ?_)
  rw [Graph.modify_modify]
  exact hc.finish (hc₂.withBindings _)

/-- What is bound to a name costs nothing. Otherwise the object is cloned in full. -/
theorem EndsWithin.dedup (hg : g.WellTyped) (hwhole : g.Whole)
    (hclone : EndsWithin g n clone clone') (kind : BindingKind) (hr : g.contains r = true)
    (hc : c.Within g h (n + 1)) (hnew : c.cloned? r = none) :
    EndsAs (Cloning.dedup clone chain kind r p) (Cloning.dedup clone' chain kind r p) c
      (fun _ => Cloner.Within g h (n + 1)) (Cloner.Exhausted g) := by
  have hgeneric : EndsAs (Cloning.generic clone chain none r p)
      (Cloning.generic clone' chain none r p) c (fun _ => Cloner.Within g h (n + 1))
      (Cloner.Exhausted g) := hclone.generic hg hwhole hr hc hnew
  refine .after (run_fromGraph rfl) ?_
  split
  · exact hgeneric
  · refine .after rfl ?_
    split
    · exact .refl (.after rfl (.pure hc.remember))
    · exact hgeneric.bind fun copy c' hc' => .refl (.after rfl (.pure (hc'.withBindings _)))

/-- One step more allows for one object more that remains. -/
theorem EndsWithin.cloneWith (hg : g.WellTyped) (hwhole : g.Whole)
    (hclone : EndsWithin g n clone clone') :
    EndsWithin g (n + 1) (Cloning.cloneWith clone) (Cloning.cloneWith clone') := by
  intro h r p hr c hc
  obtain ⟨o, ho⟩ := Graph.contains_iff.1 hr
  obtain ⟨e, -, -, hentity, -⟩ := hg.object ho
  refine endsAs_cloneWith (fun _ _ => hc) (fun _ e' he' => ?_)
    (fun hnew _ _ => hclone.generic hg hwhole hr hc hnew)
    (fun hnew kind _ => hclone.dedup hg hwhole kind hr hc hnew)
    fun hnew _ => ends_shallow_within hg hr hc hnew
  have hentity' : c.graph.entity r = .ok e :=
    (congrArg (Model.entity · r.tag) hc.base.model).trans hentity
  rw [hentity'] at he'
  cases he'

/-- Cloning goes no deeper than there are objects that remain to be cloned. -/
theorem endsWithin_iterate (hg : g.WellTyped) (hwhole : g.Whole) (n : Nat)
    (deeper deeper' : Ref → Option Ref → Cloning σ Ref) :
    EndsWithin g n (Cloning.cloneWith^[n] deeper) (Cloning.cloneWith^[n] deeper') := by
  induction n with
  | zero => exact fun _ _ _ _ _ hc => absurd hc.depth (Nat.not_lt_zero _)
  | succ n ih =>
    rw [Function.iterate_succ_apply', Function.iterate_succ_apply']
    exact ih.cloneWith hg hwhole

/-- Where there is no object, nothing is cloned. -/
theorem endsAs_dangling (hr : c.graph.contains r = false) (hnew : c.cloned? r = none) :
    EndsAs (Cloning.cloneWith clone r p) (Cloning.cloneWith clone' r p) c (fun _ _ => False)
      fun c' => c' = c := by
  obtain ⟨e, he⟩ : ∃ e, c.graph.object r = .error e := by
    cases ho : c.graph.object r with
    | error e => exact ⟨e, rfl⟩
    | ok o =>
      rw [Graph.contains_of_object? (Graph.object_eq_ok.1 ho)] at hr
      cases hr
  have hread : (fromGraph (·.object r) : Cloning σ Object).run c = (.error e, c) :=
    congrArg (·, c) he
  have hgeneric (chain : List Entity) (custom : Option CustomClone) :
      EndsAs (Cloning.generic clone chain custom r p) (Cloning.generic clone' chain custom r p) c
        (fun _ _ => False) fun c' => c' = c :=
    .of_run_error (run_bind_error hread) (run_bind_error hread) rfl
  -- Each way of cloning comes to reading the object, which fails before anything is written.
  refine endsAs_cloneWith (fun s hs => ?_) (fun _ _ _ => rfl) (fun _ _ _ => hgeneric _ _)
    (fun _ kind _ => ?_) fun _ _ => .of_run_error (run_bind_error hread) rfl
  · rw [hnew] at hs
    cases hs
  · -- Without a name, it is as if the object were not looked up.
    have hname : c.graph.name? r = none := by
      by_contra hname
      obtain ⟨name, hname⟩ := Option.ne_none_iff_exists'.1 hname
      rw [Graph.contains_of_name? hname] at hr
      cases hr
    refine .after (run_fromGraph rfl) ?_
    rw [hname, Option.getD_none, if_pos rfl, if_pos rfl]
    exact hgeneric _ _

/-- Cloning to a depth is cloning in steps. -/
theorem cloneUpTo_add (m n : Nat) :
    (cloneUpTo (m + n) : Ref → Option Ref → Cloning σ Ref) =
      Cloning.cloneWith^[m] (cloneUpTo n) := by
  induction m with
  | zero => rw [Nat.zero_add, Function.iterate_zero_apply]
  | succ m ih =>
    rw [Nat.succ_add, Function.iterate_succ_apply', ← ih]
    rfl

end Cloning

/-- Nothing that was there before has been cloned, and all of it remains. -/
theorem Cloner.Within.start {σ : Type} (g : Graph) (s : σ) :
    Cloner.Within g g (g.size + 1) ⟨g, s, []⟩ :=
  have hle : remaining g.refs [] ≤ g.size := Graph.length_refs (g := g) ▸ remaining_le_length
  ⟨.refl g, .refl g, Nat.add_le_add_left hle _, Nat.add_le_add_left hle _, Nat.lt_succ_of_le hle⟩

/-- Cloning comes to an end, and makes at most as many objects as there were. In a well-typed
    graph in which parts of objects are objects, with nothing cloned before, and in whatever
    setting,

    * it goes no deeper than there are objects, so that it does not matter what would be done
      there;
    * if there is an id for each object, it comes to a clone if and only if it is an object that
      is to be cloned;
    * the graph has at most twice the size then. -/
theorem Cloning.cloneTree_ends {σ : Type} [Bindings σ] {g : Graph} (hg : g.WellTyped)
    (hwhole : g.Whole) (s : σ) (r : Ref) (parent : Option Ref) :
    (∀ deeper, ((Cloning.cloneWith^[g.size + 1] deeper) r parent).run ⟨g, s, []⟩ =
      g.cloneTree s r parent) ∧
    (g.IdsLeft g.size →
      ((∃ copy, (g.cloneTree s r parent).1 = .ok copy) ↔ g.contains r = true)) ∧
    (g.cloneTree s r parent).2.graph.size ≤ g.size + g.size := by
  -- The depth at which cloning would be stopped is beyond that.
  obtain ⟨k, hk⟩ : ∃ k, g.cloneDepth = g.size + 1 + k := Nat.exists_eq_add_of_le
    (Nat.le_mul_of_pos_right _ (Nat.succ_pos _))
  have htree : g.cloneTree s r parent =
      ((Cloning.cloneWith^[g.size + 1] (cloneUpTo k)) r parent).run ⟨g, s, []⟩ := by
    rw [← cloneUpTo_add, ← hk]
    rfl
  rw [htree]
  cases hr : g.contains r with
  | true =>
    have hends (deeper : Ref → Option Ref → Cloning σ Ref) :=
      endsWithin_iterate hg hwhole (g.size + 1) (cloneUpTo k) deeper g r parent hr _ (.start g s)
    refine ⟨fun deeper => (hends deeper).1, fun hids => ?_, ?_⟩
    · -- Ids do not come to an end if there were enough of them.
      obtain ⟨copy, c', hrun, -⟩ := ((hends (cloneUpTo k)).2.mono (fun _ _ h => h)
        fun _ hnone => (hnone.ids hids).elim).exists_ok
      rw [hrun]
      exact iff_of_true ⟨copy, rfl⟩ rfl
    · exact ((hends (cloneUpTo k)).2.mono
        (fun _ _ hc' => Nat.le_trans (Nat.le_add_right _ _) hc'.size) fun _ hnone =>
          hnone.size).state
  | false =>
    have hends (deeper : Ref → Option Ref → Cloning σ Ref) : EndsAs
        ((Cloning.cloneWith^[g.size + 1] (cloneUpTo k)) r parent)
        ((Cloning.cloneWith^[g.size + 1] deeper) r parent) ⟨g, s, []⟩ (fun _ _ => False)
        fun c' => c' = ⟨g, s, []⟩ := by
      rw [Function.iterate_succ_apply', Function.iterate_succ_apply']
      exact endsAs_dangling hr rfl
    have hfails := (hends (cloneUpTo k)).2
    have hstate : (((Cloning.cloneWith^[g.size + 1] (cloneUpTo k)) r parent).run
        ⟨g, s, []⟩).2 = ⟨g, s, []⟩ :=
      (hfails.mono (fun _ _ h => h.elim) fun _ h => h).state
    refine ⟨fun deeper => (hends deeper).1, fun _ => ?_, ?_⟩
    · exact iff_of_false (fun ⟨_, hok⟩ => hfails.of_ok hok) Bool.false_ne_true
    · rw [hstate]
      exact Nat.le_add_right _ _

/-- Two nodes that refer to each other, and a third one, for which the first is taken since it
    is bound to its name. -/
theorem Cloning.cloneTree_ends_bound :
    let policy : PolicyTable := { entityClone := .ofList [("node", .dedupByName .net)] }
    let g := Network.graph policy
      [{ next := some 1, children := [1] }, { next := some 0, right := some [1, 2] },
        { name := "net", next := some 1 }]
    let s : Elaboration := Bindings.recordNet {} "net" (Network.ref 0)
    g.Whole ∧
      (∀ deeper, ((Cloning.cloneWith^[4] deeper) (Network.ref 0) none).run ⟨g, s, []⟩ =
        g.cloneTree s (Network.ref 0) none) ∧
      (∃ copy, (g.cloneTree s (Network.ref 0) none).1 = .ok copy) ∧
      (g.cloneTree s (Network.ref 0) none).2.graph.size ≤ 6 := by
  intro policy g s
  have hwhole : g.Whole := Network.whole (by decide)
  have hthree : g.size = 3 := rfl
  have hg : g.WellTyped := Network.wellTyped _ _
  obtain ⟨hdeeper, hok, hsize⟩ := Cloning.cloneTree_ends hg hwhole s (Network.ref 0) none
  rw [hthree] at hdeeper hsize
  exact ⟨hwhole, hdeeper, (hok (by decide)).2 (by decide), hsize⟩

end ObjectModel
