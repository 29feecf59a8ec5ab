import ObjectModel.Proofs.Adoption.Filing

/-!
# Adopting and releasing

What it comes to in a sound graph that a child is released or adopted, as far as
parents, children and lists are concerned (`Graph.Releases`, `Graph.Adopts`).
Both succeed if there are such objects: `Graph.exists_detachChild` and, for an
object that is not adopted by another, `Graph.exists_adopts`.
-/

namespace ObjectModel

namespace Header

/-- The header without `c` among the children. -/
def releasing (c : Ref) (h : Header) : Header :=
  { h with children := h.children.filter (· != c) }

/-- The header with `c` among the children, last if it is new. -/
def adopting (c : Ref) (h : Header) : Header :=
  if c ∈ h.children then h else { h with children := h.children ++ [c] }

/-- The header without `p` for an owner. -/
def leaving (p : Ref) (h : Header) : Header :=
  if h.parent = some p then { h with parent := none } else h

/-- The header with `p` for an owner. -/
def under (p : Ref) (h : Header) : Header := { h with parent := some p }

variable {p c : Ref} {h : Header}

theorem children_adopting : (h.adopting c).children =
    if c ∈ h.children then h.children else h.children ++ [c] := by
  rw [adopting]
  split <;> rfl

theorem parent_adopting : (h.adopting c).parent = h.parent := by
  rw [adopting]
  split <;> rfl

theorem children_leaving : (h.leaving p).children = h.children := by
  rw [leaving]
  split <;> rfl

theorem parent_leaving : (h.leaving p).parent = if h.parent = some p then none else h.parent := by
  rw [leaving]
  split <;> rfl

end Header

namespace Graph

variable {g h : Graph} {p c q r : Ref} {o : Object} {l : Layout} {bucket : String} {i : Nat}

/-! ## Changes to headers -/

/-- The graph with `f` applied to the header of an object. -/
def mapHeader (g : Graph) (r : Ref) (f : Header → Header) : Graph :=
  g.modify r fun o => { o with header := f o.header }

section

variable {f : Header → Header} {names : List String} {k : Value → Value}

theorem contains_mapHeader : (g.mapHeader r f).contains q = g.contains q := contains_modify _

theorem contains_mapSlots : (g.mapSlots r l names k).contains q = g.contains q := contains_modify _

theorem Sound.mapHeader (hg : g.Sound) : (g.mapHeader r f).Sound := hg.modify fun _ _ _ _ h => h

theorem childrenOf_mapSlots : (g.mapSlots r l names k).childrenOf q = g.childrenOf q :=
  childrenOf_modify_of_eq fun _ => rfl

theorem parent?_mapSlots : (g.mapSlots r l names k).parent? q = g.parent? q :=
  parent?_modify_of_eq fun _ => rfl

theorem childrenOf_releasing (hr : g.contains r = true) :
    (g.mapHeader r (·.releasing c)).childrenOf q =
      if q = r then (g.childrenOf r).filter (· != c) else g.childrenOf q :=
  childrenOf_modify (k := (·.filter (· != c))) hr fun _ => rfl

theorem parent?_releasing : (g.mapHeader r (·.releasing c)).parent? q = g.parent? q :=
  parent?_modify_of_eq fun _ => rfl

theorem childrenOf_adopting (hr : g.contains r = true) :
    (g.mapHeader r (·.adopting c)).childrenOf q = if q = r then
      if c ∈ g.childrenOf r then g.childrenOf r else g.childrenOf r ++ [c] else g.childrenOf q :=
  childrenOf_modify (k := fun l => if c ∈ l then l else l ++ [c]) hr
    fun _ => Header.children_adopting

theorem parent?_adopting : (g.mapHeader r (·.adopting c)).parent? q = g.parent? q :=
  parent?_modify_of_eq fun _ => Header.parent_adopting

theorem childrenOf_leaving : (g.mapHeader r (·.leaving p)).childrenOf q = g.childrenOf q :=
  childrenOf_modify_of_eq fun _ => Header.children_leaving

theorem parent?_leaving (hr : g.contains r = true) :
    (g.mapHeader r (·.leaving p)).parent? q =
      if q = r then if g.parent? r = some p then none else g.parent? r else g.parent? q :=
  parent?_modify (k := fun x => if x = some p then none else x) hr fun _ => Header.parent_leaving

theorem childrenOf_under : (g.mapHeader r (·.under p)).childrenOf q = g.childrenOf q :=
  childrenOf_modify_of_eq fun _ => rfl

theorem parent?_under (hr : g.contains r = true) :
    (g.mapHeader r (·.under p)).parent? q = if q = r then some p else g.parent? q :=
  parent?_modify (k := fun _ => some p) hr fun _ => rfl

end

/-! ## Elements of lists -/

/-- The elements of a list are read from its value. -/
theorem elements_congr_get (hmodel : h.model = g.model)
    (hget : h.get q bucket = g.get q bucket) : h.elements q bucket = g.elements q bucket := by
  rw [elements, elements, list, list, hget]
  cases g.get q bucket with
  | error e => rfl
  | ok v => cases v <;> simp [wrongKind, hmodel, bind, Except.bind]

/-- What an object holds is read from its values. -/
theorem get_congr (hmodel : h.model = g.model)
    (hvalues : (h.object? q).map (·.values) = (g.object? q).map (·.values)) :
    h.get q bucket = g.get q bucket := by
  have hslotOf : h.slotOf q bucket = g.slotOf q bucket := by
    rw [slotOf, slotOf, layout, layout, hmodel]
  rw [get, get, hslotOf, object, object]
  cases ho : h.object? q with
  | none =>
    rw [ho, Option.map_none, eq_comm, Option.map_eq_none_iff] at hvalues
    rw [hvalues]
  | some o =>
    rw [ho, Option.map_some, eq_comm, Option.map_eq_some_iff] at hvalues
    obtain ⟨o', ho', hvalues⟩ := hvalues
    simp only [ho', hvalues, pure_bind]

theorem elements_congr (hmodel : h.model = g.model)
    (hvalues : (h.object? q).map (·.values) = (g.object? q).map (·.values)) :
    h.elements q bucket = g.elements q bucket :=
  elements_congr_get hmodel (get_congr hmodel hvalues)

/-- The elements of a list are found in its slot,
    and there are none in a slot that is empty. -/
theorem elements_eq (ho : g.object? r = some o) (hl : g.layout r = .ok l)
    (hi : l.slotOf? bucket = some i) {items : Option (List Ref)}
    (hitems : o.values[i]? = some (.refs items)) : g.elements r bucket = .ok (items.getD []) := by
  have hget : g.get r bucket = .ok (.refs items) := by
    rw [get_eq ho hl hi, List.getD_eq_getElem?_getD, hitems, Option.getD_some]
  exact map_eq_ok.2 ⟨items, bind_eq_ok.2 ⟨_, hget, rfl⟩, rfl⟩

theorem get_mapHeader {f : Header → Header} :
    (g.mapHeader r f).get q bucket = g.get q bucket := by
  refine get_congr rfl ?_
  rw [mapHeader, object?_modify]
  split
  · rw [Option.map_map]
    rfl
  · rfl

theorem elements_mapHeader {f : Header → Header} :
    (g.mapHeader r f).elements q bucket = g.elements q bucket :=
  elements_congr_get rfl get_mapHeader

theorem elements_mapSlots_of_ne {names : List String} {f : Value → Value} (hq : q ≠ p) :
    (g.mapSlots p l names f).elements q bucket = g.elements q bucket :=
  elements_congr rfl (by rw [mapSlots, object?_modify_of_ne _ hq])

/-- Lists change as their values do. -/
theorem elements_mapSlots {names : List String} {f : Value → Value} {k : List Ref → List Ref}
    {items : Option (List Ref)}
    (hf : ∀ items, ∃ items', f (.refs items) = .refs items' ∧ items'.getD [] = k (items.getD []))
    (ho : g.object? p = some o) (hl : g.layout p = .ok l) (hi : l.slotOf? bucket = some i)
    (hitems : o.values[i]? = some (.refs items)) : (g.mapSlots p l names f).elements p bucket =
      .ok (if bucket ∈ names then k (items.getD []) else items.getD []) := by
  have ho' : (g.mapSlots p l names f).object? p =
      some ⟨o.header, l.mapSlots names f o.values⟩ := by
    rw [mapSlots, object?_modify_self, ho]
    rfl
  have hvalue : (l.mapSlots names f o.values)[i]? =
      o.values[i]?.map fun v => if names.any (l.slotOf? · == some i) then f v else v :=
    Layout.getElem?_mapSlots
  rw [hitems, Option.map_some] at hvalue
  -- No other name has the same slot.
  have hnames : names.any (l.slotOf? · == some i) = true ↔ bucket ∈ names := by
    rw [List.any_eq_true]
    constructor
    · rintro ⟨name, hname, hsame⟩
      exact slotOf?_inj (eq_of_beq hsame) hi ▸ hname
    · exact fun hmem => ⟨bucket, hmem, by rw [hi, beq_self_eq_true]⟩
  split
  · rename_i hmem
    obtain ⟨items', hf, hk⟩ := hf items
    rw [if_pos (hnames.2 hmem), hf] at hvalue
    rw [elements_eq ho' hl hi hvalue, hk]
  · rename_i hmem
    rw [if_neg (fun h => hmem (hnames.1 h))] at hvalue
    rw [elements_eq ho' hl hi hvalue]

/-! ## Releasing -/

/-- From `g` to `h`, the child `c` is released from `p`. -/
structure Releases (g : Graph) (p c : Ref) (h : Graph) : Prop where
  sound : h.Sound
  model : h.model = g.model
  contains : ∀ q, h.contains q = g.contains q
  children : ∀ q, h.childrenOf q =
    if q = p then (g.childrenOf p).filter (· != c) else g.childrenOf q
  parent : ∀ q, h.parent? q = if q = c ∧ g.parent? c = some p then none else g.parent? q
  elements_of_ne : ∀ q, q ≠ p → ∀ bucket, h.elements q bucket = g.elements q bucket
  elements : ∀ e, g.schema.entityAt? p.tag = some e →
    ∀ child bucket, (child, bucket) ∈ g.model.filings e →
      ∀ items, g.elements p bucket = .ok items → h.elements p bucket =
        .ok (if g.model.files e bucket c.tag then items.filter (· != c) else items)

/-- From `g` to `h`, the child `c` is adopted by `p`. -/
structure Adopts (g : Graph) (p c : Ref) (h : Graph) : Prop where
  sound : h.Sound
  model : h.model = g.model
  contains : ∀ q, h.contains q = g.contains q
  children : ∀ q, h.childrenOf q =
    if q = p ∧ c ∉ g.childrenOf p then g.childrenOf p ++ [c] else g.childrenOf q
  parent : ∀ q, h.parent? q = if q = c then some p else g.parent? q
  elements_of_ne : ∀ q, q ≠ p → ∀ bucket, h.elements q bucket = g.elements q bucket
  elements : ∀ e, g.schema.entityAt? p.tag = some e →
    ∀ child bucket, (child, bucket) ∈ g.model.filings e →
      ∀ items, g.elements p bucket = .ok items → h.elements p bucket =
        .ok (if g.model.files e bucket c.tag ∧ c ∉ items then items ++ [c] else items)

section

variable (hg : g.Sound) (hn : g.model.Distinct) (hcollects : g.model.Collects)

include hg hn hcollects

/-- What there is to know of a collector: its entity, and the lists in which a
    child is filed. -/
theorem Sound.exists_buckets (hp : g.contains p = true) (c : Ref) :
    ∃ e l buckets, g.schema.entityAt? p.tag = some e ∧ g.layout p = .ok l ∧
      g.bucketsFor p c = .ok buckets ∧ (∀ bucket ∈ buckets, l.Lists bucket c.tag) ∧
        ∀ bucket, bucket ∈ buckets ↔ g.model.files e bucket c.tag = true := by
  obtain ⟨o, ho⟩ := contains_iff.1 hp
  obtain ⟨l, hl, -⟩ := hg.accepted p o ho
  obtain ⟨e, he, -⟩ := hg.built.layout_eq hl
  obtain ⟨buckets, hbuckets, hmem⟩ :=
    hcollects.filesInLists.bucketsFor hg.built he hl (c := c) rfl rfl
  refine ⟨e, l, buckets, he, hl, hbuckets, fun b hb => ?_, hmem⟩
  exact hcollects.lists hg.built hn he hl ((hmem b).1 hb)

/-- The elements of a bucket, after a change of some lists. -/
theorem Sound.elements_mapSlots {e : Entity} {child : String} {names : List String}
    {f : Value → Value} {k : List Ref → List Ref} {items : List Ref}
    (hf : ∀ items, ∃ items', f (.refs items) = .refs items' ∧ items'.getD [] = k (items.getD []))
    (hp : g.contains p = true) (he : g.schema.entityAt? p.tag = some e) (hl : g.layout p = .ok l)
    (hentry : (child, bucket) ∈ g.model.filings e) (hitems : g.elements p bucket = .ok items) :
    (g.mapSlots p l names f).elements p bucket =
      .ok (if bucket ∈ names then k items else items) := by
  obtain ⟨o, ho⟩ := contains_iff.1 hp
  obtain ⟨i, slot, hi, hslot, -, hmany, -⟩ := hcollects.exists_slot hg.built hn he hl hentry
  obtain ⟨items', hitems'⟩ := hg.exists_items ho hl hslot hmany
  obtain rfl := Except.ok.inj ((elements_eq ho hl hi hitems').symm.trans hitems)
  exact Graph.elements_mapSlots hf ho hl hi hitems'

/-- An object can always be released. It is then in none of the lists that it was
    filed in, and without an owner if this was the one. -/
theorem exists_detachChild (hp : g.contains p = true) (hc : g.contains c = true) :
    ∃ h, (detachChild p c).run g = (.ok ((g.childrenOf p).contains c), h) ∧ g.Releases p c h := by
  obtain ⟨e, l, buckets, he, hl, hbuckets, hlists, hmem⟩ := hg.exists_buckets hn hcollects hp c
  obtain ⟨o, ho⟩ := contains_iff.1 hp
  obtain ⟨o', ho'⟩ := contains_iff.1 hc
  -- The child is taken out of the children of `p`, and then out of its lists.
  have hsound₁ : (g.mapHeader p (·.releasing c)).Sound := hg.mapHeader
  have hp₁ : (g.mapHeader p (·.releasing c)).contains p = true := contains_mapHeader.trans hp
  obtain ⟨hrun, hsound₂⟩ := run_forM_unfile hsound₁ hp₁ hl hlists
  have hc₂ : ((g.mapHeader p (·.releasing c)).mapSlots p l buckets (·.without c)).contains c =
      true := contains_mapSlots.trans (contains_mapHeader.trans hc)
  refine ⟨((g.mapHeader p (·.releasing c)).mapSlots p l buckets (·.without c)).mapHeader c
    (·.leaving p), ?_, hsound₂.mapHeader, rfl, fun q => ?_, fun q => ?_, fun q => ?_,
    fun q hq b => ?_, fun e' he' child b hentry items hitems => ?_⟩
  · refine (run_bind_ok (run_read (header_eq ho'))).trans ?_
    refine (run_bind_ok (run_read hbuckets)).trans ?_
    refine (run_bind_ok (run_read (header_eq ho))).trans ?_
    refine (run_bind_ok (run_apply (updateHeader_eq hp))).trans ((run_bind_ok hrun).trans ?_)
    rw [childrenOf_eq ho]
    exact run_bind_ok (run_apply (updateHeader_eq hc₂))
  · rw [contains_mapHeader, contains_mapSlots, contains_mapHeader]
  · rw [childrenOf_leaving, childrenOf_mapSlots, childrenOf_releasing hp]
  · rw [parent?_leaving hc₂, parent?_mapSlots, parent?_mapSlots, parent?_releasing,
      parent?_releasing]
    by_cases hq : q = c
    · subst hq
      simp
    · simp [hq]
  · rw [elements_mapHeader, elements_mapSlots_of_ne hq, elements_mapHeader]
  · obtain rfl := Option.some.inj (he.symm.trans he')
    rw [elements_mapHeader, hsound₁.elements_mapSlots (k := (·.filter (· != c))) hn hcollects
      (fun items => ⟨_, rfl, by cases items <;> rfl⟩) hp₁ he hl hentry
      (elements_mapHeader.trans hitems), if_congr (hmem b) rfl rfl]

/-! ## Adopting -/

omit hg hn hcollects in
/-- Which lists take a child depends on the model only. -/
theorem bucketsFor_congr (hmodel : h.model = g.model) : h.bucketsFor p c = g.bucketsFor p c := by
  simp only [bucketsFor, entity, members, layout, schema, hmodel]

/-- The steps by which a child is adopted, when it has left its former owner. -/
theorem exists_adopts {buckets : List String} (hp : g.contains p = true)
    (hc : g.contains c = true) (hbuckets : g.bucketsFor p c = .ok buckets) :
    ∃ h, (do
        Update.apply (·.updateHeader c (·.under p))
        Update.apply (·.updateHeader p (·.adopting c))
        buckets.forM (file p c) : Update Unit).run g = (.ok (), h) ∧ g.Adopts p c h := by
  obtain ⟨e, l, buckets', he, hl, hbuckets', hlists, hmem⟩ := hg.exists_buckets hn hcollects hp c
  obtain rfl := Except.ok.inj (hbuckets.symm.trans hbuckets')
  have hp₁ : (g.mapHeader c (·.under p)).contains p = true := contains_mapHeader.trans hp
  have hsound₂ : ((g.mapHeader c (·.under p)).mapHeader p (·.adopting c)).Sound :=
    hg.mapHeader.mapHeader
  have hp₂ : ((g.mapHeader c (·.under p)).mapHeader p (·.adopting c)).contains p = true :=
    contains_mapHeader.trans hp₁
  have hc₂ : ((g.mapHeader c (·.under p)).mapHeader p (·.adopting c)).contains c = true :=
    contains_mapHeader.trans (contains_mapHeader.trans hc)
  -- Both headers are written before a list is, so the lists
  -- are filed in a graph that is sound and has both ends.
  obtain ⟨hrun, hsound⟩ := run_forM_file hsound₂ hp₂ hl hlists hc₂
  refine ⟨_, ?_, hsound, rfl, fun q => ?_, fun q => ?_, fun q => ?_, fun q hq b => ?_,
    fun e' he' child b hentry items hitems => ?_⟩
  · refine (run_bind_ok (run_apply (updateHeader_eq hc))).trans ?_
    exact (run_bind_ok (run_apply (updateHeader_eq hp₁))).trans hrun
  · rw [contains_mapSlots, contains_mapHeader, contains_mapHeader]
  · rw [childrenOf_mapSlots, childrenOf_adopting hp₁, childrenOf_under, childrenOf_under]
    by_cases hq : q = p
    · subst hq
      by_cases hmem : c ∈ g.childrenOf q <;> simp [hmem]
    · simp [hq]
  · rw [parent?_mapSlots, parent?_adopting, parent?_under hc]
  · rw [elements_mapSlots_of_ne hq, elements_mapHeader, elements_mapHeader]
  · -- Only a list that takes the child gets longer, and only if the child was not in it.
    obtain rfl := Option.some.inj (he.symm.trans he')
    have hincluding (items : Option (List Ref)) : ∃ items',
        (Value.refs items).including c = .refs items' ∧
          items'.getD [] = if c ∈ items.getD [] then items.getD [] else items.getD [] ++ [c] :=
      ⟨_, rfl, by split <;> rfl⟩
    rw [hsound₂.elements_mapSlots (k := fun l => if c ∈ l then l else l ++ [c]) hn hcollects
      hincluding hp₂ he hl hentry (elements_mapHeader.trans (elements_mapHeader.trans hitems)),
      if_congr (hmem b) rfl rfl]
    by_cases hfiles : g.model.files e b c.tag <;> by_cases hmem : c ∈ items <;> simp [hfiles, hmem]

/-- A child that has no other owner is adopted at once. -/
theorem exists_attachChild_of_free (hp : g.contains p = true) (hc : g.contains c = true)
    (hfree : ∀ q, g.parent? c = some q → q = p) :
    ∃ h, (attachChild p c).run g = (.ok (), h) ∧ g.Adopts p c h := by
  obtain ⟨-, -, buckets, -, -, hbuckets, -⟩ := hg.exists_buckets hn hcollects hp c
  obtain ⟨o, ho⟩ := contains_iff.1 hc
  obtain ⟨h, hrun, hadopts⟩ := exists_adopts hg hn hcollects hp hc hbuckets
  refine ⟨h, ?_, hadopts⟩
  refine (run_bind_ok (run_read (header_eq ho))).trans ?_
  refine (run_bind_ok (run_read hbuckets)).trans ?_
  rw [parent?_eq ho] at hfree
  cases hformer : o.header.parent with
  | none => exact hrun
  | some q =>
    obtain rfl := hfree q hformer
    dsimp only
    rw [if_neg (not_not.2 rfl)]
    exact hrun

/-- A child that has another owner is released by it, and then adopted. -/
theorem exists_attachChild_of_owned (hp : g.contains p = true) (hc : g.contains c = true)
    (hq : g.contains q = true) (howned : g.parent? c = some q) (hne : q ≠ p) :
    ∃ g₁ h, (attachChild p c).run g = (.ok (), h) ∧ g.Releases q c g₁ ∧ g₁.Adopts p c h := by
  obtain ⟨-, -, buckets, -, -, hbuckets, -⟩ := hg.exists_buckets hn hcollects hp c
  obtain ⟨o, ho⟩ := contains_iff.1 hc
  obtain ⟨g₁, hdetach, hreleases⟩ := exists_detachChild hg hn hcollects hq hc
  have hmodel := hreleases.model
  obtain ⟨h, hrun, hadopts⟩ := exists_adopts hreleases.sound (hmodel ▸ hn) (hmodel ▸ hcollects)
    ((hreleases.contains p).trans hp) ((hreleases.contains c).trans hc)
    ((bucketsFor_congr hmodel).trans hbuckets)
  refine ⟨g₁, h, ?_, hreleases, hadopts⟩
  refine (run_bind_ok (run_read (header_eq ho))).trans ?_
  refine (run_bind_ok (run_read hbuckets)).trans ?_
  rw [parent?_eq ho] at howned
  rw [howned]
  dsimp only
  rw [if_pos hne]
  exact (run_bind_ok hdetach).trans hrun

end

end Graph

end ObjectModel
