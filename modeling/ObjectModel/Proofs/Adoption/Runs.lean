import ObjectModel.Proofs.Adoption.Adopting

/-!
# Adoption along runs

Objects are made, adopted, released and written into, one operation after the
other (`Graph.perform`). Adopted objects are kept in three places: each knows its
owner, the owner its children, and lists of the owner some of them. These agree
in the empty graph and after each operation (`Graph.Adopted`), as long as no
other operation writes into the lists. So they agree after all runs
(`Graph.adopted_run`).
-/

namespace ObjectModel

/-- The lists in which objects of `e` file children. -/
def Model.buckets (m : Model) (e : Entity) : List String := (m.filings e).map Prod.snd

theorem Model.mem_buckets {m : Model} {e : Entity} {bucket : String} :
    bucket ∈ m.buckets e ↔ ∃ child, (child, bucket) ∈ m.filings e := by
  rw [buckets, List.mem_map]
  constructor
  · rintro ⟨⟨child, _⟩, hentry, rfl⟩
    exact ⟨child, hentry⟩
  · exact fun ⟨child, hentry⟩ => ⟨_, hentry, rfl⟩

/-- An operation on a graph. -/
inductive Operation
  | create (entity : String)
  | createTag (tag : Nat)
  | attach (parent child : Ref)
  | detach (parent child : Ref)
  | set (r : Ref) (member : String) (v : Value)
  | push (r : Ref) (member : String) (item : Ref)
deriving DecidableEq, Repr

namespace Graph

/-- The graph after an operation. One that fails at once changes nothing. -/
def perform (g : Graph) : Operation → Graph
  | .create entity => ((g.create entity).map Prod.snd).toOption.getD g
  | .createTag tag => ((g.createTag tag).map Prod.snd).toOption.getD g
  | .attach parent child => ((attachChild parent child).run g).2
  | .detach parent child => ((detachChild parent child).run g).2
  | .set r member v => (g.set r member v).toOption.getD g
  | .push r member item => (g.push r member item).toOption.getD g

/-- Objects that are adopted or released exist, as do their owners, and no list of
    children is written into. -/
def Allows (g : Graph) : Operation → Prop
  | .create _ | .createTag _ => True
  | .attach parent child | .detach parent child =>
    g.contains parent = true ∧ g.contains child = true
  | .set r member _ | .push r member _ =>
    ∀ e ∈ g.model.schema.entityAt? r.tag, member ∉ g.model.buckets e

/-- Each operation is allowed when its turn comes. -/
def AllowsAll (g : Graph) : List Operation → Prop
  | [] => True
  | op :: ops => g.Allows op ∧ (g.perform op).AllowsAll ops

instance (g : Graph) : DecidablePred g.Allows
  | .create _ | .createTag _ => inferInstanceAs (Decidable True)
  | .attach _ _ | .detach _ _ => inferInstanceAs (Decidable (_ ∧ _))
  | .set r member _ | .push r member _ =>
    inferInstanceAs (Decidable (∀ e ∈ g.model.schema.entityAt? r.tag, member ∉ g.model.buckets e))

instance decidableAllowsAll (g : Graph) : DecidablePred g.AllowsAll
  | [] => inferInstanceAs (Decidable True)
  | op :: ops =>
    have := decidableAllowsAll (g.perform op) ops
    inferInstanceAs (Decidable (g.Allows op ∧ (g.perform op).AllowsAll ops))

/-- Owners and children agree, and no child is listed twice. The lists of an
    object hold the children that are to be filed in them, in the order in which
    they were adopted. -/
structure Adopted (g : Graph) : Prop where
  sound : g.Sound
  children : ∀ p c, c ∈ g.childrenOf p ↔ g.parent? c = some p
  nodup : ∀ p, (g.childrenOf p).Nodup
  filed : ∀ p e, g.contains p = true → g.model.schema.entityAt? p.tag = some e →
    ∀ bucket ∈ g.model.buckets e, g.elements p bucket =
      .ok ((g.childrenOf p).filter fun c => g.model.files e bucket c.tag)

variable {g h : Graph} {p c r : Ref}

/-- All that objects hold and all their children are objects. -/
theorem Adopted.whole (hg : g.Adopted) : g.Whole := by
  intro r o ho s hs
  rcases Object.mem_parts.1 hs with hs | ⟨v, hv, hs⟩
  · exact contains_of_parent? ((hg.children r s).1 (childrenOf_eq ho ▸ hs))
  · exact hg.sound.live r o ho v hv s hs

/-- In an empty graph nobody owns anything. -/
theorem Adopted.empty {m : Model} (hm : m.Built) : (empty m).Adopted where
  sound := .empty hm
  children p c := by
    rw [childrenOf, parent?, object?_empty, object?_empty]
    simp
  nodup p := by
    rw [childrenOf, object?_empty]
    exact .nil
  filed p e hp := by
    rw [contains, object?_empty] at hp
    cases hp

/-! ## Releasing and adopting -/

theorem filter_filter_ne (f : Ref → Bool) (l : List Ref) (c : Ref) :
    (l.filter (· != c)).filter f = if f c then (l.filter f).filter (· != c) else l.filter f := by
  split
  · rw [List.filter_filter, List.filter_filter]
    exact List.filter_congr fun d _ => Bool.and_comm _ _
  · rename_i hc
    rw [List.filter_filter]
    refine List.filter_congr fun d _ => ?_
    by_cases hd : d = c
    · subst hd
      simpa using hc
    · simp [hd]

theorem filter_append_singleton (f : Ref → Bool) (l : List Ref) (c : Ref) :
    (l ++ [c]).filter f = if f c then l.filter f ++ [c] else l.filter f := by
  rw [List.filter_append]
  cases hc : f c <;> simp [hc]

/-- After a release, owner, children and lists agree without the child. -/
theorem Adopted.releases (hg : g.Adopted) (hh : g.Releases p c h) : h.Adopted where
  sound := hh.sound
  children q d := by
    rw [hh.children, hh.parent]
    -- Only the link between `c` and `p` is given up.
    by_cases hq : q = p
    · subst hq
      rw [if_pos rfl, List.mem_filter, hg.children, bne_iff_ne]
      by_cases hd : d = c
      · subst hd
        by_cases hparent : g.parent? d = some q <;> simp [hparent]
      · simp [hd]
    · rw [if_neg hq, hg.children]
      by_cases hd : d = c
      · subst hd
        by_cases hparent : g.parent? d = some p
        · simp [hparent, Ne.symm hq]
        · simp [hparent]
      · simp [hd]
  nodup q := by
    rw [hh.children]
    split
    · exact (hg.nodup p).filter _
    · exact hg.nodup q
  filed q e hq he bucket hbucket := by
    rw [hh.model] at he hbucket ⊢
    have hitems := hg.filed q e (hh.contains q ▸ hq) he bucket hbucket
    rw [hh.children]
    split
    · rename_i hqp
      subst hqp
      obtain ⟨child, hentry⟩ := Model.mem_buckets.1 hbucket
      rw [hh.elements e he child bucket hentry _ hitems, filter_filter_ne]
    · rename_i hqp
      rw [hh.elements_of_ne q hqp, hitems]

/-- After an adoption, they agree with it. -/
theorem Adopted.adopts (hg : g.Adopted) (hfree : ∀ q, g.parent? c = some q → q = p)
    (hh : g.Adopts p c h) : h.Adopted where
  sound := hh.sound
  children q d := by
    rw [hh.children, hh.parent]
    by_cases hmem : c ∈ g.childrenOf p
    · -- To adopt a child again changes nothing.
      rw [if_neg fun h => h.2 hmem, hg.children]
      split
      · rename_i hd
        rw [hd, (hg.children p c).1 hmem]
      · rfl
    · -- The child was not adopted at all.
      have hnone (q : Ref) : g.parent? c ≠ some q := fun hq =>
        hmem ((hg.children p c).2 (hfree q hq ▸ hq))
      by_cases hq : q = p
      · subst hq
        rw [if_pos ⟨rfl, hmem⟩, List.mem_append, List.mem_singleton, hg.children]
        by_cases hd : d = c <;> simp [hd]
      · rw [if_neg fun h => hq h.1, hg.children]
        by_cases hd : d = c
        · simp [hd, hnone q, Ne.symm hq]
        · rw [if_neg hd]
  nodup q := by
    rw [hh.children]
    split
    · rename_i hnew
      refine List.nodup_append.2 ⟨hg.nodup p, List.nodup_singleton c, fun a ha b hb => ?_⟩
      rintro rfl
      exact hnew.2 (List.mem_singleton.1 hb ▸ ha)
    · exact hg.nodup q
  filed q e hq he bucket hbucket := by
    rw [hh.model] at he hbucket ⊢
    have hitems := hg.filed q e (hh.contains q ▸ hq) he bucket hbucket
    by_cases hqp : q = p
    · subst hqp
      obtain ⟨child, hentry⟩ := Model.mem_buckets.1 hbucket
      rw [hh.elements e he child bucket hentry _ hitems, hh.children]
      -- The child is new in the lists if it is new among the children.
      by_cases hmem : c ∈ g.childrenOf q
      · rw [if_neg fun h => h.2 (List.mem_filter.2 ⟨hmem, h.1⟩), if_neg fun h => h.2 hmem]
      · have hnew : c ∉ (g.childrenOf q).filter fun c => g.model.files e bucket c.tag :=
          fun h => hmem (List.mem_filter.1 h).1
        simp only [hmem, hnew, not_false_eq_true, and_true, if_true, filter_append_singleton]
    · rw [hh.elements_of_ne q hqp, hitems, hh.children, if_neg fun h => hqp h.1]

/-- Adoption succeeds and keeps the agreement, also
    if the child is taken from another owner. -/
theorem Adopted.attach (hg : g.Adopted) (hn : g.model.Distinct) (hcollects : g.model.Collects)
    (hp : g.contains p = true) (hc : g.contains c = true) :
    ∃ h, (attachChild p c).run g = (.ok (), h) ∧ h.Adopted ∧ h.model = g.model := by
  by_cases howned : ∃ q, g.parent? c = some q ∧ q ≠ p
  · -- Another object owns the child, and so has it among its children.
    obtain ⟨q, hq, hne⟩ := howned
    have hlive := contains_of_mem_childrenOf ((hg.children q c).2 hq)
    obtain ⟨g₁, h, hrun, hreleases, hadopts⟩ :=
      exists_attachChild_of_owned hg.sound hn hcollects hp hc hlive hq hne
    refine ⟨h, hrun, (hg.releases hreleases).adopts ?_ hadopts,
      hadopts.model.trans hreleases.model⟩
    -- The child has left its owner.
    intro q' hq'
    rw [hreleases.parent, if_pos ⟨rfl, hq⟩] at hq'
    cases hq'
  · have hfree (q : Ref) (hq : g.parent? c = some q) : q = p :=
      by_contra fun hne => howned ⟨q, hq, hne⟩
    obtain ⟨h, hrun, hadopts⟩ := exists_attachChild_of_free hg.sound hn hcollects hp hc hfree
    exact ⟨h, hrun, hg.adopts hfree hadopts, hadopts.model⟩

/-- A release succeeds and keeps the agreement. -/
theorem Adopted.detach (hg : g.Adopted) (hn : g.model.Distinct) (hcollects : g.model.Collects)
    (hp : g.contains p = true) (hc : g.contains c = true) :
    ∃ h, (detachChild p c).run g = (.ok ((g.childrenOf p).contains c), h) ∧ h.Adopted ∧
      h.model = g.model := by
  obtain ⟨h, hrun, hreleases⟩ := exists_detachChild hg.sound hn hcollects hp hc
  exact ⟨h, hrun, hg.releases hreleases, hreleases.model⟩

/-! ## Making and writing -/

/-- A new object has neither owner nor children, and is in no list. -/
theorem Adopted.add (hg : g.Adopted) (hn : g.model.Distinct) (hcollects : g.model.Collects)
    {tag : Nat} {l : Layout} (hl : g.model.layout tag = .ok l) {id : UInt32} :
    (g.add tag ⟨{ id }, l.defaults⟩).Adopted := by
  have htag := (Graph.sound_iff_obeys.1 hg.sound).tag_lt hl
  refine ⟨hg.sound.add hl, fun p c => ?_, fun p => ?_, fun q e hq he bucket hbucket => ?_⟩
  · rw [childrenOf_add htag, parent?_add htag, hg.children]
  · rw [childrenOf_add htag]
    exact hg.nodup p
  · rw [childrenOf_add htag]
    rcases (contains_add htag).1 hq with rfl | hq
    · -- The lists of the new object are not made yet.
      obtain ⟨child, hentry⟩ := Model.mem_buckets.1 hbucket
      obtain ⟨i, slot, hi, hslot, -, hmany, -⟩ :=
        hcollects.exists_slot hg.sound.built hn he hl hentry
      have hvalue : l.defaults[i]? = some (.refs none) := by
        rw [Layout.defaults, List.getElem?_map, hslot, Option.map_some,
          Value.default_of_isMany hmany]
      rw [elements_eq (object?_add_fresh htag) hl hi hvalue, childrenOf, object?_fresh]
      rfl
    · have hvalues : (g.add tag ⟨{ id }, l.defaults⟩).object? q = g.object? q := by
        rw [object?_add htag, if_neg (ne_fresh hq)]
      rw [elements_congr model_add (congrArg _ hvalues)]
      exact hg.filed q e hq he bucket hbucket

theorem Adopted.createTag (hg : g.Adopted) (hn : g.model.Distinct) (hcollects : g.model.Collects)
    {tag : Nat} (hcreate : g.createTag tag = .ok (r, h)) : h.Adopted ∧ h.model = g.model := by
  obtain ⟨l, hl, -, rfl⟩ := createTag_eq_ok hcreate
  exact ⟨hg.add hn hcollects hl, model_add⟩

theorem Adopted.create (hg : g.Adopted) (hn : g.model.Distinct) (hcollects : g.model.Collects)
    {entity : String} (hcreate : g.create entity = .ok (r, h)) : h.Adopted ∧ h.model = g.model := by
  rw [Graph.create] at hcreate
  split at hcreate
  · exact hg.createTag hn hcollects hcreate
  · cases hcreate

/-- What is written into other members does not show in the lists of children. -/
theorem Adopted.writes (hg : g.Adopted) {member : String} (hwrites : g.Writes r member h)
    (hmember : ∀ e ∈ g.model.schema.entityAt? r.tag, member ∉ g.model.buckets e) :
    h.Adopted ∧ h.model = g.model := by
  have hmodel := hwrites.model
  refine ⟨⟨hg.sound.writes hwrites, fun p c => ?_, fun p => ?_,
    fun q e hq he bucket hbucket => ?_⟩, hmodel⟩
  · rw [hwrites.childrenOf, hwrites.parent?, hg.children]
  · rw [hwrites.childrenOf]
    exact hg.nodup p
  · rw [hmodel] at he hbucket ⊢
    rw [hwrites.childrenOf, ← hg.filed q e (hwrites.contains q ▸ hq) he bucket hbucket]
    by_cases hqr : q = r
    · subst hqr
      exact elements_congr_get hmodel (hwrites.get_of_ne fun h => hmember e he (h ▸ hbucket))
    · exact elements_congr hmodel (by rw [hwrites.object?_of_ne hqr])

/-! ## Runs -/

/-- An operation keeps owners, children and lists in agreement, unless it writes
    into the lists of an owner. -/
theorem Adopted.step (hg : g.Adopted) (hn : g.model.Distinct) (hcollects : g.model.Collects)
    {op : Operation} (hallows : g.Allows op) :
    (g.perform op).Adopted ∧ (g.perform op).model = g.model := by
  -- What fails leaves the graph as it is, apart from adoption, which does not fail.
  cases op with
  | create entity =>
    rw [Graph.perform]
    cases hcreate : g.create entity with
    | error e => exact ⟨hg, rfl⟩
    | ok made => exact hg.create hn hcollects hcreate
  | createTag tag =>
    rw [Graph.perform]
    cases hcreate : g.createTag tag with
    | error e => exact ⟨hg, rfl⟩
    | ok made => exact hg.createTag hn hcollects hcreate
  | attach parent child =>
    obtain ⟨h, hrun, hh⟩ := hg.attach hn hcollects hallows.1 hallows.2
    rw [Graph.perform, hrun]
    exact hh
  | detach parent child =>
    obtain ⟨h, hrun, hh⟩ := hg.detach hn hcollects hallows.1 hallows.2
    rw [Graph.perform, hrun]
    exact hh
  | set r member v =>
    rw [Graph.perform]
    cases hset : g.set r member v with
    | error e => exact ⟨hg, rfl⟩
    | ok h => exact hg.writes (writes_of_set hset) hallows
  | push r member item =>
    rw [Graph.perform]
    cases hpush : g.push r member item with
    | error e => exact ⟨hg, rfl⟩
    | ok h => exact hg.writes (hg.sound.writes_of_push hpush) hallows

/-- Owners, children and lists agree after a run of such operations. -/
theorem Adopted.run (hg : g.Adopted) (hn : g.model.Distinct) (hcollects : g.model.Collects)
    {ops : List Operation} (hallows : g.AllowsAll ops) :
    (ops.foldl perform g).Adopted ∧ (ops.foldl perform g).model = g.model := by
  -- That the model stays has to be known along with it: the policy is asked in each step.
  induction ops generalizing g with
  | nil => exact ⟨hg, rfl⟩
  | cons op ops ih =>
    obtain ⟨hstep, hmodel⟩ := hg.step hn hcollects hallows.1
    obtain ⟨hrun, hmodel'⟩ := ih hstep (hmodel ▸ hn) (hmodel ▸ hcollects) hallows.2
    exact ⟨hrun, hmodel'.trans hmodel⟩

/-- After all runs from the empty graph, the children of an object are those that
    it owns, each once. The lists in which it files children hold those that are
    to be filed there, in the same order. -/
theorem adopted_run {m : Model} (hm : m.Built) (hn : m.Distinct) (hcollects : m.Collects)
    (ops : List Operation) (hallows : (Graph.empty m).AllowsAll ops) :
    let g := ops.foldl perform (Graph.empty m)
    (∀ p c, c ∈ g.childrenOf p ↔ g.parent? c = some p) ∧
      (∀ p, (g.childrenOf p).Nodup) ∧
      ∀ p, g.contains p = true → ∃ e, m.schema.entityAt? p.tag = some e ∧
        ∀ bucket ∈ m.buckets e,
          g.elements p bucket = .ok ((g.childrenOf p).filter fun c => m.files e bucket c.tag) := by
  intro g
  obtain ⟨hg, hmodel⟩ := (Adopted.empty hm).run hn hcollects hallows
  have hmodel : g.model = m := hmodel
  refine ⟨hg.children, hg.nodup, fun p hp => ?_⟩
  obtain ⟨o, ho⟩ := contains_iff.1 hp
  obtain ⟨l, hl, -⟩ := hg.sound.accepted p o ho
  obtain ⟨e, he, -⟩ := hg.sound.built.layout_eq hl
  have hfiled := hg.filed p e hp he
  rw [hmodel] at he hfiled
  exact ⟨e, he, hfiled⟩

/-- Three nodes, which file their children in both of their lists. One of them is
    adopted by another, then written into, and adopted by the third. This one
    adopts itself as well, and releases the child. -/
theorem adopted_run_nodes :
    let m := Network.model (PolicyTable.empty.addAll [.collector "node" "node" "left",
      .collector "node" "node" "right"])
    let ops : List Operation := [.create "node", .create "node", .createTag 0,
      .attach (Network.ref 0) (Network.ref 1), .attach (Network.ref 0) (Network.ref 2),
      .set (Network.ref 1) "name" (.text "b"), .attach (Network.ref 2) (Network.ref 1),
      .attach (Network.ref 2) (Network.ref 2), .detach (Network.ref 2) (Network.ref 1)]
    let g := ops.foldl perform (Graph.empty m)
    (∀ p c, c ∈ g.childrenOf p ↔ g.parent? c = some p) ∧
      (∀ p, (g.childrenOf p).Nodup) ∧
      ∀ p, g.contains p = true → ∃ e, m.schema.entityAt? p.tag = some e ∧
        ∀ bucket ∈ m.buckets e,
          g.elements p bucket = .ok ((g.childrenOf p).filter fun c => m.files e bucket c.tag) := by
  intro m ops
  have hcollects : m.Collects := Network.collects (by decide +kernel)
  exact adopted_run (Network.built _) (by decide +kernel) hcollects ops (by decide +kernel)

end Graph

end ObjectModel
