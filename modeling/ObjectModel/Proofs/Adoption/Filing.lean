import ObjectModel.Graph.Adoption
import ObjectModel.Proofs.Graph.Network
import ObjectModel.Proofs.Graph.Soundness

/-!
# Filing

A collector files the children that it adopts in its lists. Which lists take
objects of which entity is what the policy says along the chain of the collector
(`Model.filings`, `Model.files`). Under a policy that collects, these lists take
all the objects that are to be filed in them (`Model.Collects`), so that filing
does not fail.

To file an object, or to take it out, is to change the values in some slots of
the collector (`Layout.mapSlots`), each by one function that may as well be
applied twice (`Value.including`, `Value.without`). So what a loop over several
lists comes to is a single change (`Graph.run_forM_slots`).
-/

namespace ObjectModel

/-! ## Where children are filed -/

namespace Model

variable (m : Model)

/-- The children that objects of `e` file, with their buckets. -/
def filings (e : Entity) : List (String × String) :=
  (m.schema.levels e).flatMap fun level => m.policy.bucketsOf level.name

/-- Objects of `e` file children of the tag in the bucket. -/
def files (e : Entity) (bucket : String) (tag : Nat) : Bool :=
  (m.filings e).any fun entry =>
    entry.2 == bucket && (m.schema.entity? entry.1).any (m.schema.isA tag)

/-- Each bucket is a list among the members of the entity, which takes all
    objects that are to be filed in it. -/
def Collects : Prop :=
  ∀ e ∈ m.schema.entities, ∀ child bucket, (child, bucket) ∈ m.filings e →
    ∃ member ∈ m.schema.membersBaseFirst e, member.name = bucket ∧ member.isMany = true ∧
      ∃ tags, m.resolution.targetTags member = .ok tags ∧
        ∀ d, m.schema.entity? child = some d → ∀ tag, m.schema.isA tag d = true → tag ∈ tags

/-- Each bucket is a list among the members of the entity. -/
def FilesInLists : Prop :=
  ∀ e ∈ m.schema.entities, ∀ child bucket, (child, bucket) ∈ m.filings e →
    ∃ member ∈ m.schema.membersBaseFirst e, member.name = bucket ∧ member.isMany = true

/-- The members of an entity have different names. -/
def Distinct : Prop :=
  ∀ e ∈ m.schema.entities, ((m.schema.membersBaseFirst e).map (·.name)).Nodup

instance : Decidable m.Distinct := inferInstanceAs (Decidable (∀ e ∈ m.schema.entities, _))

end Model

/-- The list `bucket` takes objects of the tag. -/
def Layout.Lists (l : Layout) (bucket : String) (tag : Nat) : Prop :=
  ∃ i slot, l.slotOf? bucket = some i ∧ l[i]? = some slot ∧ slot.member.isMany = true ∧
    slot.targets.contains tag = true

section

variable {m : Model} {e : Entity} {l : Layout} {bucket : String} {tag : Nat}

/-- A list takes an entity along with those that are derived from it. -/
theorem Model.files_eq_true : m.files e bucket tag = true ↔
    ∃ child, (child, bucket) ∈ m.filings e ∧
      ∃ d, m.schema.entity? child = some d ∧ m.schema.isA tag d = true := by
  simp only [files, List.any_eq_true, Bool.and_eq_true, beq_iff_eq, Option.any_eq_true,
    Prod.exists]
  constructor
  · rintro ⟨child, _, hentry, rfl, d, hd, hisA⟩
    exact ⟨child, hentry, d, hd, hisA⟩
  · rintro ⟨child, hentry, d, hd, hisA⟩
    exact ⟨child, bucket, hentry, rfl, d, hd, hisA⟩

/-- The lists in which a child is filed are all the buckets that take it. -/
theorem Model.FilesInLists.bucketsFor (hm : m.Built) (hlists : m.FilesInLists)
    (he : m.schema.entityAt? tag = some e) (hl : m.layout tag = .ok l) {g : Graph} {p c : Ref}
    (hmodel : g.model = m) (hp : p.tag = tag) : ∃ buckets, g.bucketsFor p c = .ok buckets ∧
      ∀ b, b ∈ buckets ↔ m.files e b c.tag = true := by
  subst hmodel hp
  obtain ⟨e', he', -, hof⟩ := hm.layout_eq hl
  obtain rfl := Option.some.inj (he.symm.trans he')
  have hentity : g.entity p = .ok e := Model.entity_eq_ok.2 he
  have hmembers : g.members p = .ok (g.schema.membersBaseFirst e) :=
    map_eq_ok.2 ⟨l, hl, Layout.members_ofMembers hof⟩
  let entries := (g.model.filings e).filter fun entry =>
    (g.schema.entity? entry.1).any (g.schema.isA c.tag)
  have hmem (b : String) : b ∈ entries.map (·.2) ↔ g.model.files e b c.tag = true := by
    rw [Model.files_eq_true]
    simp only [entries, List.mem_map, List.mem_filter, Option.any_eq_true, Prod.exists]
    constructor
    · rintro ⟨child, _, ⟨hentry, d, hd, hisA⟩, rfl⟩
      exact ⟨child, hentry, d, hd, hisA⟩
    · rintro ⟨child, hentry, d, hd, hisA⟩
      exact ⟨child, b, ⟨hentry, d, hd, hisA⟩, rfl⟩
  rw [Graph.bucketsFor, hentity, hmembers]
  change ∃ buckets, (if entries.isEmpty = true then _ else _) = _ ∧ _
  split
  · rename_i hempty
    refine ⟨[], rfl, fun b => ?_⟩
    rw [← hmem, List.isEmpty_iff.1 hempty, List.map_nil]
  · refine ⟨_, rfl, fun b => ?_⟩
    rw [List.mem_eraseDups, List.mem_filter]
    refine Iff.trans ⟨And.left, fun hb => ⟨hb, ?_⟩⟩ (hmem b)
    -- All buckets are lists, so none of them is left out.
    have hfiles := (hmem b).1 hb
    obtain ⟨child, hentry, -⟩ := Model.files_eq_true.1 hfiles
    obtain ⟨member, hmember, hname, hmany⟩ := hlists e (List.mem_of_getElem? he) child b hentry
    exact List.any_eq_true.2 ⟨member, hmember, by rw [hname, hmany, beq_self_eq_true]; rfl⟩

theorem Model.Collects.filesInLists (hcollects : m.Collects) : m.FilesInLists := by
  intro e he child bucket hentry
  obtain ⟨member, hmember, hname, hmany, -⟩ := hcollects e he child bucket hentry
  exact ⟨member, hmember, hname, hmany⟩

variable (hm : m.Built) (hn : m.Distinct) (hcollects : m.Collects)
  (he : m.schema.entityAt? tag = some e) (hl : m.layout tag = .ok l)

include hm hn hcollects he hl

/-- A bucket has a slot, which is a list. -/
theorem Model.Collects.exists_slot {child : String} (hentry : (child, bucket) ∈ m.filings e) :
    ∃ i slot, l.slotOf? bucket = some i ∧ l[i]? = some slot ∧ slot.member.name = bucket ∧
      slot.member.isMany = true ∧ ∀ d, m.schema.entity? child = some d →
        ∀ t, m.schema.isA t d = true → slot.targets.contains t = true := by
  obtain ⟨e', he', hconcrete, hof⟩ := hm.layout_eq hl
  obtain rfl := Option.some.inj (he.symm.trans he')
  have hmembers := Layout.members_ofMembers hof
  have hmem : e ∈ m.schema.entities := List.mem_of_getElem? he
  obtain ⟨member, hmember, hname, hmany, tags, htags, htake⟩ := hcollects e hmem _ _ hentry
  obtain ⟨i, hi⟩ := List.mem_iff_getElem?.1 (hmembers ▸ hmember)
  obtain ⟨slot, hslot, rfl⟩ : ∃ slot, l[i]? = some slot ∧ slot.member = member := by
    rw [Layout.members, List.getElem?_map, Option.map_eq_some_iff] at hi
    exact hi
  have hslotOf : l.slotOf? slot.member.name = some i :=
    (Layout.slotOf?_eq_some (hmembers ▸ hn e hmem) (hmembers ▸ hmember)).2 hi
  have htargets := hm.targetTags_eq hl (List.mem_of_getElem? hslot)
  obtain rfl := Except.ok.inj (htags.symm.trans htargets)
  refine ⟨i, slot, hname ▸ hslotOf, hslot, hname, hmany, fun d hd t ht => ?_⟩
  exact List.contains_iff_mem.2 (htake d hd t ht)

theorem Model.Collects.lists {t : Nat} (hfiles : m.files e bucket t = true) : l.Lists bucket t := by
  obtain ⟨child, hentry, d, hd, hisA⟩ := Model.files_eq_true.1 hfiles
  obtain ⟨i, slot, hi, hslot, -, hmany, htake⟩ := hcollects.exists_slot hm hn he hl hentry
  exact ⟨i, slot, hi, hslot, hmany, htake d hd t hisA⟩

end

/-- Nodes may file nodes in both of their lists. -/
theorem Network.collects {policy : PolicyTable} (hpolicy : ∀ entry ∈ policy.bucketsOf "node",
    entry = ("node", "left") ∨ entry = ("node", "right")) : (Network.model policy).Collects := by
  intro e he child bucket hentry
  obtain rfl : e = Network.entity := List.mem_singleton.1 he
  have hfilings : (Network.model policy).filings Network.entity = policy.bucketsOf "node" :=
    List.append_nil _
  have htake (d : Entity) (hd : (Network.model policy).schema.entity? "node" = some d) (tag : Nat)
      (htag : (Network.model policy).schema.isA tag d = true) : tag ∈ [0] := by
    obtain rfl : Network.entity = d := Option.some.inj hd
    exact List.contains_iff_mem.1 htag
  rcases hpolicy _ (hfilings ▸ hentry) with h | h
  · cases h
    exact ⟨Network.entity.members[2], List.getElem_mem _, rfl, rfl, [0], rfl, htake⟩
  · cases h
    exact ⟨Network.entity.members[3], List.getElem_mem _, rfl, rfl, [0], rfl, htake⟩

/-! ## Changing lists -/

/-- The list without an object. -/
def Value.without (c : Ref) : Value → Value
  | .refs items => .refs (items.map (·.filter (· != c)))
  | v => v

/-- The list with an object, which comes last if it is new. -/
def Value.including (c : Ref) : Value → Value
  | .refs items => .refs (if c ∈ items.getD [] then items else some (items.getD [] ++ [c]))
  | v => v

/-- The values with `f` applied to those of some members. -/
def Layout.mapSlots (l : Layout) (names : List String) (f : Value → Value) (values : List Value) :
    List Value :=
  values.mapIdx fun i v => if names.any (l.slotOf? · == some i) then f v else v

section

variable {g : Graph} {c : Ref} {l : Layout} {names : List String} {f : Value → Value}
  {values : List Value} {v : Value} {slot : Slot} {bucket : String} {i : Nat}

theorem Value.without_without : (v.without c).without c = v.without c := by
  cases v with
  | refs items => cases items <;> simp [without, List.filter_filter]
  | _ => rfl

theorem Value.including_including : (v.including c).including c = v.including c := by
  cases v with
  | refs items => by_cases h : c ∈ items.getD [] <;> simp [including, h]
  | _ => rfl

/-- What is left in a list is still accepted. -/
theorem Slot.Accepts.without (hv : slot.Accepts g v) : slot.Accepts g (v.without c) := by
  cases v with
  | refs items =>
    refine hv.refs fun s hs => .inl ?_
    cases items with
    | none => exact hs
    | some l => exact List.mem_of_mem_filter hs
  | _ => exact hv

/-- A list accepts another element of a tag that it takes. -/
theorem Slot.Accepts.including (hc : g.contains c = true)
    (htarget : slot.targets.contains c.tag = true) (hv : slot.Accepts g v) :
    slot.Accepts g (v.including c) := by
  cases v with
  | refs items =>
    refine hv.refs fun s hs => ?_
    split at hs
    · exact .inl hs
    · rcases List.mem_append.1 (show s ∈ items.getD [] ++ [c] from hs) with hs | hs
      · exact .inl hs
      · exact .inr (List.mem_singleton.1 hs ▸ ⟨hc, htarget⟩)
  | _ => exact hv

/-- Only the named slots change. -/
theorem Layout.getElem?_mapSlots : (l.mapSlots names f values)[i]? =
    values[i]?.map fun v => if names.any (l.slotOf? · == some i) then f v else v := by
  rw [mapSlots, List.getElem?_mapIdx]

theorem Layout.mapSlots_nil : l.mapSlots [] f values = values :=
  List.ext_getElem? fun i => by rw [getElem?_mapSlots]; simp

/-- A change to one slot sets its value. -/
theorem Layout.mapSlots_singleton (hi : l.slotOf? bucket = some i) (hv : values[i]? = some v) :
    l.mapSlots [bucket] f values = values.set i (f v) := by
  refine List.ext_getElem? fun j => ?_
  rw [getElem?_mapSlots, List.getElem?_set]
  by_cases hij : i = j
  · subst hij
    obtain ⟨hlt, rfl⟩ := List.getElem?_eq_some_iff.1 hv
    simp [hi, hlt]
  · simp [hi, hij]

/-- What can be applied twice to no further effect can be applied to several
    members one after the other. -/
theorem Layout.mapSlots_mapSlots {names' : List String} (hf : ∀ v, f (f v) = f v) :
    l.mapSlots names' f (l.mapSlots names f values) = l.mapSlots (names ++ names') f values := by
  refine List.ext_getElem? fun i => ?_
  rw [getElem?_mapSlots, getElem?_mapSlots, getElem?_mapSlots, Option.map_map]
  refine congrArg (Option.map · _) (funext fun v => ?_)
  rw [Function.comp_apply, List.any_append]
  cases names.any (l.slotOf? · == some i) <;> cases names'.any (l.slotOf? · == some i) <;>
    simp [hf]

/-- Values are accepted after a change that each of the slots accepts. -/
theorem Layout.Accepts.mapSlots (hl : l.Accepts g values)
    (hf : ∀ bucket ∈ names, ∀ i slot v, l.slotOf? bucket = some i → l[i]? = some slot →
      slot.Accepts g v → slot.Accepts g (f v)) : l.Accepts g (l.mapSlots names f values) := by
  refine ⟨List.length_mapIdx.trans hl.1, fun i slot w hslot hw => ?_⟩
  rw [getElem?_mapSlots, Option.map_eq_some_iff] at hw
  obtain ⟨v, hv, rfl⟩ := hw
  have haccepts := hl.2 i slot v hslot hv
  split
  · rename_i hnamed
    obtain ⟨bucket, hbucket, hi⟩ := List.any_eq_true.1 hnamed
    exact hf bucket hbucket i slot v (eq_of_beq hi) hslot haccepts
  · exact haccepts

end

/-! ## Filing and taking out -/

namespace Graph

variable {g h : Graph} {p c : Ref} {l : Layout} {bucket : String} {buckets : List String}
  {f : Value → Value}

theorem run_apply {f : Graph → Except GraphError Graph} (hf : f g = .ok h) :
    (Update.apply f).run g = (.ok (), h) := by
  simp only [Update.apply, ExceptT.run, hf]

theorem run_read {α : Type} {f : Graph → Except GraphError α} {a : α} (hf : f g = .ok a) :
    (Update.read f).run g = (.ok a, g) :=
  congrArg (·, g) hf

theorem set_eq_self {α : Type} {l : List α} {i : Nat} {a : α} (h : l[i]? = some a) :
    l.set i a = l := by
  obtain ⟨hlt, rfl⟩ := List.getElem?_eq_some_iff.1 h
  exact List.set_getElem_self hlt

/-- The graph with `f` applied to the values of some members of an object. -/
def mapSlots (g : Graph) (r : Ref) (l : Layout) (names : List String) (f : Value → Value) : Graph :=
  g.modify r fun o => { o with values := l.mapSlots names f o.values }

section

variable {o : Object} {i : Nat} {v : Value} (ho : g.object? p = some o)
  (hi : l.slotOf? bucket = some i) (hv : o.values[i]? = some v)

include ho hi hv

theorem mapSlots_singleton : g.mapSlots p l [bucket] f =
    g.modify p fun q => { q with values := o.values.set i (f v) } := by
  refine modify_congr fun q hq => ?_
  obtain rfl := Option.some.inj (ho.symm.trans hq)
  rw [Layout.mapSlots_singleton hi hv]

theorem mapSlots_eq_self (hf : f v = v) : g.mapSlots p l [bucket] f = g := by
  refine modify_eq_self fun q hq => ?_
  obtain rfl := Option.some.inj (ho.symm.trans hq)
  rw [Layout.mapSlots_singleton hi hv, hf, set_eq_self hv]

end

/-- The slot of a list holds a list. -/
theorem Sound.exists_list (hg : g.Sound) (hp : g.contains p = true) (hl : g.layout p = .ok l)
    (hlists : l.Lists bucket c.tag) : ∃ o i slot items, g.object? p = some o ∧
      l.slotOf? bucket = some i ∧ l[i]? = some slot ∧ slot.member.isMany = true ∧
        slot.targets.contains c.tag = true ∧ o.values[i]? = some (.refs items) ∧
          g.get p bucket = .ok (.refs items) := by
  obtain ⟨o, ho⟩ := contains_iff.1 hp
  obtain ⟨i, slot, hi, hslot, hmany, htarget⟩ := hlists
  obtain ⟨items, hitems⟩ := hg.exists_items ho hl hslot hmany
  refine ⟨o, i, slot, items, ho, hi, hslot, hmany, htarget, hitems, ?_⟩
  rw [get_eq ho hl hi, List.getD_eq_getElem?_getD, hitems, Option.getD_some]

/-- Taking a child out of a list is to write the list without it, which changes
    nothing if it is not there. -/
theorem run_unfile (hg : g.Sound) (hp : g.contains p = true) (hl : g.layout p = .ok l)
    (hlists : l.Lists bucket c.tag) :
    (unfile p c bucket).run g = (.ok (), g.mapSlots p l [bucket] (·.without c)) := by
  obtain ⟨o, i, slot, items, ho, hi, hslot, -, -, hitems, hget⟩ := hg.exists_list hp hl hlists
  -- Where the object is not in the list, the list stays.
  have hstays := mapSlots_eq_self (p := p) (f := (·.without c)) ho hi hitems
  refine (run_bind_ok (run_read hget)).trans ?_
  cases items with
  | none => exact Prod.ext rfl (hstays rfl).symm
  | some items =>
    dsimp only
    split
    · refine run_apply ((set_eq_ok ho hl hi hslot).2 ⟨?_, ?_⟩)
      · exact Slot.Accepts.without ((hg.accepts ho hl).2 i slot _ hslot hitems)
      · rw [mapSlots_singleton ho hi hitems]
        rfl
    · rename_i hlength
      have hfilter : items.filter (· != c) = items :=
        List.filter_eq_self.2 (List.length_filter_eq_length_iff.1 (not_not.1 hlength))
      exact Prod.ext rfl (hstays (congrArg (fun l => Value.refs (some l)) hfilter)).symm

/-- Filing a child in a list is to write the list with
    it, which changes nothing if it is there already. -/
theorem run_file (hg : g.Sound) (hp : g.contains p = true) (hc : g.contains c = true)
    (hl : g.layout p = .ok l) (hlists : l.Lists bucket c.tag) :
    (file p c bucket).run g = (.ok (), g.mapSlots p l [bucket] (·.including c)) := by
  obtain ⟨o, i, slot, items, ho, hi, hslot, hmany, htarget, hitems, hget⟩ :=
    hg.exists_list hp hl hlists
  have helements : g.elements p bucket = .ok (items.getD []) :=
    map_eq_ok.2 ⟨items, bind_eq_ok.2 ⟨_, hget, rfl⟩, rfl⟩
  refine (run_bind_ok (run_read helements)).trans ?_
  split
  · rename_i hnew
    refine run_apply ((push_eq_ok ho hl hi hslot hitems).2 ⟨⟨hmany, hc, htarget⟩, ?_⟩)
    rw [mapSlots_singleton ho hi hitems, Value.including, if_neg hnew]
  · rename_i hmem
    refine Prod.ext rfl (mapSlots_eq_self ho hi hitems ?_).symm
    rw [Value.including, if_pos (not_not.1 hmem)]

/-- A loop over lists comes to a single change, if each step changes its list by
    a function that may as well be applied twice. -/
theorem run_forM_slots {step : String → Update Unit} (hf : ∀ v, f (f v) = f v)
    (hstep : ∀ h : Graph, h.Sound → h.model = g.model → (∀ s, h.contains s = g.contains s) →
      ∀ bucket ∈ buckets, (step bucket).run h = (.ok (), h.mapSlots p l [bucket] f) ∧
        (h.mapSlots p l [bucket] f).Sound) (hg : g.Sound) :
    (buckets.forM step).run g = (.ok (), g.mapSlots p l buckets f) ∧
      (g.mapSlots p l buckets f).Sound := by
  induction buckets generalizing g with
  | nil =>
    have hnil : g.mapSlots p l [] f = g :=
      modify_eq_self fun o _ => by rw [Layout.mapSlots_nil]
    rw [hnil]
    exact ⟨rfl, hg⟩
  | cons bucket buckets ih =>
    obtain ⟨hrun, hsound⟩ := hstep g hg rfl (fun _ => rfl) bucket List.mem_cons_self
    have hcontains (s : Ref) : (g.mapSlots p l [bucket] f).contains s = g.contains s :=
      contains_modify _
    obtain ⟨hrest, hrestSound⟩ := ih (g := g.mapSlots p l [bucket] f)
      (fun h hh hmodel hsame b hb => hstep h hh hmodel
        (fun s => (hsame s).trans (hcontains s)) b (List.mem_cons_of_mem _ hb)) hsound
    -- A list that is met twice is the same after the second time.
    have hmap : (g.mapSlots p l [bucket] f).mapSlots p l buckets f =
        g.mapSlots p l (bucket :: buckets) f := by
      rw [mapSlots, mapSlots, modify_modify]
      exact modify_congr fun o _ => by rw [Layout.mapSlots_mapSlots hf]; rfl
    rw [hmap] at hrest hrestSound
    exact ⟨(run_bind_ok hrun).trans hrest, hrestSound⟩

variable (hg : g.Sound) (hp : g.contains p = true) (hl : g.layout p = .ok l)
  (hlists : ∀ bucket ∈ buckets, l.Lists bucket c.tag)

include hg hp hl hlists

/-- A child is taken out of several lists as by one change. -/
theorem run_forM_unfile :
    (buckets.forM (unfile p c)).run g = (.ok (), g.mapSlots p l buckets (·.without c)) ∧
      (g.mapSlots p l buckets (·.without c)).Sound := by
  refine run_forM_slots (fun _ => Value.without_without) (fun h hh hmodel hsame b hb => ?_) hg
  have hl' : h.layout p = .ok l := (congrArg (Model.layout · p.tag) hmodel).trans hl
  refine ⟨run_unfile hh ((hsame p).trans hp) hl' (hlists b hb), ?_⟩
  refine hh.modify fun o l' _ hl'' haccepts => ?_
  obtain rfl := Except.ok.inj (hl'.symm.trans hl'')
  exact haccepts.mapSlots fun _ _ _ _ _ _ _ hv => hv.without

/-- A child is filed in several lists as by one change. -/
theorem run_forM_file (hc : g.contains c = true) :
    (buckets.forM (file p c)).run g = (.ok (), g.mapSlots p l buckets (·.including c)) ∧
      (g.mapSlots p l buckets (·.including c)).Sound := by
  refine run_forM_slots (fun _ => Value.including_including) (fun h hh hmodel hsame b hb => ?_) hg
  have hl' : h.layout p = .ok l := (congrArg (Model.layout · p.tag) hmodel).trans hl
  have hc' := (hsame c).trans hc
  refine ⟨run_file hh ((hsame p).trans hp) hc' hl' (hlists b hb), ?_⟩
  refine hh.modify fun o l' _ hl'' haccepts => ?_
  obtain rfl := Except.ok.inj (hl'.symm.trans hl'')
  refine haccepts.mapSlots fun b' hb' i slot v hi hslot hv => ?_
  obtain ⟨j, slot', hj, hslot', -, htarget⟩ := hlists b' (List.mem_singleton.1 hb' ▸ hb)
  obtain rfl := Option.some.inj (hi.symm.trans hj)
  obtain rfl := Option.some.inj (hslot.symm.trans hslot')
  exact hv.including hc' htarget

end Graph

end ObjectModel
