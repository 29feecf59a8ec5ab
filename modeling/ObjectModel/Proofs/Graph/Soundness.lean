import ObjectModel.Proofs.Graph.Holding

/-!
# Sound graphs

A graph is sound if every slot accepts what it holds: a value that fits the
member and refers to objects that the member takes (`Slot.Accepts`). The empty
graph is sound, and remains so whatever is done to it by the operations on
objects and members (`Graph.Sound.createTag`, `Graph.Sound.writes`). A sound
graph is well typed, and its references name objects.

In turn, the operations succeed on what slots accept: `Graph.set_eq_ok` and
`Graph.push_eq_ok` say what they come to.
-/

namespace ObjectModel

/-- The slot accepts a value in `g`: it fits the member, and refers to objects
    that the member takes. -/
def Slot.Accepts (g : Graph) (slot : Slot) (v : Value) : Prop :=
  v.fits slot.member = true ∧
    ∀ s ∈ v.references, g.contains s = true ∧ slot.targets.contains s.tag = true

/-- There is a value for each slot, and it is accepted. -/
def Layout.Accepts (g : Graph) (l : Layout) (values : List Value) : Prop :=
  values.length = l.length ∧
    ∀ (i : Nat) (slot : Slot) (v : Value), l[i]? = some slot → values[i]? = some v →
      slot.Accepts g v

section

variable {g h : Graph} {l : Layout} {slot : Slot} {v : Value} {values : List Value} {i : Nat}

theorem Slot.Accepts.mono (hv : slot.Accepts g v)
    (hcontains : ∀ s, g.contains s = true → h.contains s = true) : slot.Accepts h v :=
  ⟨hv.1, fun s hs => ⟨hcontains s (hv.2 s hs).1, (hv.2 s hs).2⟩⟩

theorem Layout.Accepts.mono (hl : l.Accepts g values)
    (hcontains : ∀ s, g.contains s = true → h.contains s = true) : l.Accepts h values :=
  ⟨hl.1, fun i slot v hslot hv => (hl.2 i slot v hslot hv).mono hcontains⟩

/-- Each value is accepted by its slot. -/
theorem Layout.accepts_iff : l.Accepts g values ↔ List.Forall₂ (Slot.Accepts g) l values := by
  rw [List.forall₂_iff_get, Accepts, eq_comm]
  refine and_congr_right fun hlength => ⟨fun h i hi hi' => ?_, fun h i slot v hslot hv => ?_⟩
  · exact h i _ _ (List.getElem?_eq_getElem hi) (List.getElem?_eq_getElem hi')
  · obtain ⟨hi, rfl⟩ := List.getElem?_eq_some_iff.1 hslot
    obtain ⟨hi', rfl⟩ := List.getElem?_eq_some_iff.1 hv
    exact h i hi hi'

/-- Setting one element keeps a relation that holds of it. -/
theorem forall₂_set {α β : Type} {R : α → β → Prop} {as : List α} {bs : List β} {i : Nat} {b : β}
    (h : List.Forall₂ R as bs) (hb : ∀ a, as[i]? = some a → R a b) :
    List.Forall₂ R as (bs.set i b) := by
  induction h generalizing i with
  | nil => exact .nil
  | @cons a _ as bs ha hl ih =>
    cases i with
    | zero => exact .cons (hb a rfl) hl
    | succ i => exact .cons ha (ih hb)

theorem Layout.Accepts.set (hl : l.Accepts g values) (hslot : l[i]? = some slot)
    (hv : slot.Accepts g v) : l.Accepts g (values.set i v) := by
  rw [accepts_iff] at hl ⊢
  exact forall₂_set hl fun slot' hslot' => Option.some.inj (hslot.symm.trans hslot') ▸ hv

/-- Lists fit the same members, whatever they hold. -/
theorem Value.fits_refs {m : Member} {items items' : Option (List Ref)}
    (h : (Value.refs items).fits m = true) : (Value.refs items').fits m = true := by
  obtain ⟨name, content, relation, tags⟩ := m
  rcases content with kind | ⟨_, card⟩ | ⟨_, card⟩
  · cases kind <;> exact absurd h Bool.false_ne_true
  · cases card
    · exact absurd h Bool.false_ne_true
    · rfl
  · cases card
    · exact absurd h Bool.false_ne_true
    · rfl

/-- A slot that accepts a list accepts another, of elements that it takes. -/
theorem Slot.Accepts.refs {items items' : Option (List Ref)} (hv : slot.Accepts g (.refs items))
    (helements : ∀ s ∈ items'.getD [], s ∈ items.getD [] ∨
      g.contains s = true ∧ slot.targets.contains s.tag = true) :
    slot.Accepts g (.refs items') := by
  refine ⟨Value.fits_refs hv.1, fun s hs => ?_⟩
  rw [Value.references_refs] at hs
  exact (helements s hs).elim (fun h => hv.2 s (by rwa [Value.references_refs])) id

end

namespace Graph

/-- The graph goes by the layouts of its schema, and there is a place for the
    objects of each entity. All that objects hold is accepted. -/
structure Sound (g : Graph) : Prop where
  built : g.model.Built
  stores : g.stores.length = g.model.layouts.length
  accepted : ∀ r o, g.object? r = some o → ∃ l, g.layout r = .ok l ∧ l.Accepts g o.values

variable {g h : Graph} {r : Ref} {o : Object} {l : Layout} {slot : Slot} {member : String}
  {v : Value} {i : Nat}

/-- Each slot of an object accepts its value. -/
theorem Sound.accepts (hg : g.Sound) (ho : g.object? r = some o) (hl : g.layout r = .ok l) :
    l.Accepts g o.values := by
  obtain ⟨l', hl', haccepts⟩ := hg.accepted r o ho
  obtain rfl := Except.ok.inj (hl.symm.trans hl')
  exact haccepts

/-- In sound graphs, slots hold what the layouts declare. -/
theorem sound_iff_obeys : g.Sound ↔ g.Obeys .declared :=
  ⟨fun hg => ⟨hg.built, hg.stores, fun r o ho =>
      (hg.accepted r o ho).imp fun _ hl => hl.imp_right Layout.accepts_iff.1⟩,
    fun hg => ⟨hg.built, hg.stores, fun r o ho =>
      (hg.held r o ho).imp fun _ hl => hl.imp_right Layout.accepts_iff.2⟩⟩

theorem Sound.wellTyped (hg : g.Sound) : g.WellTyped := (sound_iff_obeys.1 hg).wellTyped

theorem Sound.live (hg : g.Sound) : g.Live := (sound_iff_obeys.1 hg).live

/-! ## What keeps graphs sound -/

theorem object?_empty {m : Model} : (empty m).object? r = none := by
  rw [object?, empty, List.getElem?_map]
  cases m.layouts[r.tag]? <;> rfl

/-- In an empty graph there is nothing to accept. -/
theorem Sound.empty {m : Model} (hm : m.Built) : (empty m).Sound where
  built := hm
  stores := List.length_map _
  accepted r o ho := by
    rw [object?_empty] at ho
    cases ho

/-- An object may be changed to values that its slots accept. -/
theorem Sound.modify (hg : g.Sound) {f : Object → Object}
    (hf : ∀ o l, g.object? r = some o → g.layout r = .ok l → l.Accepts g o.values →
      l.Accepts g (f o).values) : (g.modify r f).Sound :=
  sound_iff_obeys.2 ((sound_iff_obeys.1 hg).modify fun o l ho hl hvalues =>
    Layout.accepts_iff.1 (hf o l ho hl (Layout.accepts_iff.2 hvalues)))

/-- A new object holds default values, which all slots accept. -/
theorem Sound.add (hg : g.Sound) {tag : Nat} {header : Header} (hl : g.model.layout tag = .ok l) :
    (g.add tag ⟨header, l.defaults⟩).Sound :=
  sound_iff_obeys.2 ((sound_iff_obeys.1 hg).add hl)

/-- Making an object keeps a graph sound. -/
theorem Sound.createTag (hg : g.Sound) {tag : Nat} (hcreate : g.createTag tag = .ok (r, h)) :
    h.Sound := by
  obtain ⟨l, hl, -, rfl⟩ := createTag_eq_ok hcreate
  exact hg.add hl

/-! ## Members -/

theorem slotOf_eq_ok : g.slotOf r member = .ok i ↔
    ∃ l, g.layout r = .ok l ∧ l.slotOf? member = some i := by
  rw [slotOf, bind_eq_ok]
  refine exists_congr fun l => and_congr_right fun _ => ?_
  cases l.slotOf? member <;> simp

/-- The slot of a member is that of its name. -/
theorem exists_slot (hi : l.slotOf? member = some i) :
    ∃ slot, l[i]? = some slot ∧ slot.member.name = member :=
  let ⟨slot, hslot, hname⟩ := lastIndex?_eq_some hi
  ⟨slot, hslot, eq_of_beq hname⟩

/-- Members of different names have different slots. -/
theorem slotOf?_inj {name : String} (hi : l.slotOf? member = some i)
    (hi' : l.slotOf? name = some i) : member = name := by
  obtain ⟨slot, hslot, rfl⟩ := exists_slot hi
  obtain ⟨slot', hslot', rfl⟩ := exists_slot hi'
  obtain rfl := Option.some.inj (hslot.symm.trans hslot')
  rfl

/-- What is read of a member stands in its slot. -/
theorem get_eq_ok : g.get r member = .ok v ↔ ∃ o l i, g.object? r = some o ∧
    g.layout r = .ok l ∧ l.slotOf? member = some i ∧ o.values.getD i default = v := by
  constructor
  · intro hget
    obtain ⟨i, hslotOf, hget⟩ := bind_eq_ok.1 hget
    obtain ⟨l, hl, hi⟩ := slotOf_eq_ok.1 hslotOf
    obtain ⟨o, ho, hget⟩ := bind_eq_ok.1 hget
    exact ⟨o, l, i, object_eq_ok.1 ho, hl, hi, pure_eq_ok.1 hget⟩
  · rintro ⟨o, l, i, ho, hl, hi, rfl⟩
    exact bind_eq_ok.2 ⟨i, slotOf_eq_ok.2 ⟨l, hl, hi⟩, bind_eq_ok.2 ⟨o, object_eq_ok.2 ho, rfl⟩⟩

theorem get_eq (ho : g.object? r = some o) (hl : g.layout r = .ok l)
    (hi : l.slotOf? member = some i) : g.get r member = .ok (o.values.getD i default) :=
  get_eq_ok.2 ⟨o, l, i, ho, hl, hi, rfl⟩

/-- What a slot holds does not show in other members. -/
theorem get_modify_of_ne {name : String} (ho : g.object? r = some o) (hl : g.layout r = .ok l)
    (hi : l.slotOf? member = some i) (hne : name ≠ member) :
    (g.modify r fun p => { p with values := o.values.set i v }).get r name = g.get r name := by
  rcases hslot : g.slotOf r name with e | j
  · have hslot' : (g.modify r fun p => { p with values := o.values.set i v }).slotOf r name =
        .error e := hslot
    rw [get, get, hslot, hslot']
    rfl
  · obtain ⟨l', hl', hj⟩ := slotOf_eq_ok.1 hslot
    obtain rfl := Except.ok.inj (hl.symm.trans hl')
    have hij : i ≠ j := fun hij => hne (slotOf?_inj hj (hij ▸ hi))
    have ho' : (g.modify r fun p => { p with values := o.values.set i v }).object? r =
        some { o with values := o.values.set i v } := by
      rw [object?_modify_self, ho]
      rfl
    rw [get_eq ho' hl hj, get_eq ho hl hj, List.getD_eq_getElem?_getD,
      List.getD_eq_getElem?_getD, List.getElem?_set_ne hij]

/-- A target is let through if it is there, and of a tag that the slot takes. -/
theorem checkTarget_eq_ok {target : Ref} : g.checkTarget r slot target = .ok () ↔
    g.contains target = true ∧ slot.targets.contains target.tag = true := by
  rw [checkTarget]
  cases g.contains target <;> cases slot.targets.contains target.tag <;>
    simp

/-- A value is written where a slot accepts it. -/
theorem set_eq_ok (ho : g.object? r = some o) (hl : g.layout r = .ok l)
    (hi : l.slotOf? member = some i) (hslot : l[i]? = some slot) :
    g.set r member v = .ok h ↔
      slot.Accepts g v ∧ g.modify r (fun p => { p with values := o.values.set i v }) = h := by
  have hobject : g.object r = .ok o := object_eq_ok.2 ho
  have hchecks : v.references.forM (g.checkTarget r slot) = .ok () ↔
      ∀ s ∈ v.references, g.contains s = true ∧ slot.targets.contains s.tag = true :=
    forM_eq_ok.trans (forall₂_congr fun _ _ => checkTarget_eq_ok)
  rw [set, slotOf_eq_ok.2 ⟨l, hl, hi⟩, hl, hobject]
  simp only [bind, Except.bind, hslot, Value.mismatch?, setValues_eq (contains_of_object? ho)]
  rw [Slot.Accepts, ← hchecks]
  cases v.fits slot.member <;> cases v.references.forM (g.checkTarget r slot) <;>
    simp

/-- A reference is written to the end of a list if the list accepts it. -/
theorem push_eq_ok {item : Ref} {items : Option (List Ref)} (ho : g.object? r = some o)
    (hl : g.layout r = .ok l) (hi : l.slotOf? member = some i) (hslot : l[i]? = some slot)
    (hv : o.values[i]? = some (.refs items)) : g.push r member item = .ok h ↔
      (slot.member.isMany = true ∧ g.contains item = true ∧
        slot.targets.contains item.tag = true) ∧
      g.modify r (fun p =>
        { p with values := o.values.set i (.refs (some (items.getD [] ++ [item]))) }) = h := by
  have hobject : g.object r = .ok o := object_eq_ok.2 ho
  rw [push, slotOf_eq_ok.2 ⟨l, hl, hi⟩, hl, hobject]
  simp only [bind, Except.bind, hslot, hv, setValues_eq (contains_of_object? ho)]
  rw [← checkTarget_eq_ok (r := r)]
  cases slot.member.isMany <;> cases g.checkTarget r slot item <;>
    simp

/-- `h` is `g` with another value in a member of `r`, one that is accepted. -/
def Writes (g : Graph) (r : Ref) (member : String) (h : Graph) : Prop :=
  ∃ o l i slot v, g.object? r = some o ∧ g.layout r = .ok l ∧ l.slotOf? member = some i ∧
    l[i]? = some slot ∧ slot.Accepts g v ∧
      g.modify r (fun p => { p with values := o.values.set i v }) = h

/-- A value that was set has been accepted by its slot. -/
theorem writes_of_set (hset : g.set r member v = .ok h) : g.Writes r member h := by
  obtain ⟨i, hslotOf, hrest⟩ := bind_eq_ok.1 hset
  obtain ⟨l, hl, hi⟩ := slotOf_eq_ok.1 hslotOf
  obtain ⟨slot, hslot, -⟩ := exists_slot hi
  cases ho : g.object? r with
  | some o =>
    obtain ⟨haccepts, hmodify⟩ := (set_eq_ok ho hl hi hslot).1 hset
    exact ⟨o, l, i, slot, v, ho, hl, hi, hslot, haccepts, hmodify⟩
  | none =>
    -- Without an object, there is nothing to write into.
    have hobject : g.object r = .error (.danglingReference r) := object_eq_error ho
    rw [set, hslotOf, hl, hobject] at hset
    simp only [bind, Except.bind, hslot] at hset
    cases hm : Value.mismatch? slot.member v <;>
      cases hf : v.references.forM (g.checkTarget r slot) <;>
        simp [hm, hf] at hset

/-- What an object holds in a slot fits its member. -/
theorem WellTyped.exists_value (hg : g.WellTyped) (ho : g.object? r = some o)
    (hl : g.layout r = .ok l) (hslot : l[i]? = some slot) :
    ∃ v, o.values[i]? = some v ∧ v.fits slot.member = true := by
  obtain ⟨e, l', -, -, hl', -, hfits⟩ := hg.object ho
  obtain rfl := Except.ok.inj (hl.symm.trans hl')
  obtain ⟨hi, rfl⟩ := List.getElem?_eq_some_iff.1 hslot
  have hmember : i < l.members.length := by rwa [Layout.members, List.length_map]
  have hvalue : i < o.values.length := hfits.length_eq ▸ hmember
  refine ⟨_, List.getElem?_eq_getElem hvalue, ?_⟩
  simpa [Layout.members] using hfits.get hmember hvalue

/-- The value of a list is a list. -/
theorem WellTyped.exists_items (hg : g.WellTyped) (ho : g.object? r = some o)
    (hl : g.layout r = .ok l) (hslot : l[i]? = some slot) (hmany : slot.member.isMany = true) :
    ∃ items, o.values[i]? = some (.refs items) := by
  obtain ⟨v, hv, hfits⟩ := hg.exists_value ho hl hslot
  obtain ⟨items, rfl⟩ := Value.exists_refs_of_fits hmany hfits
  exact ⟨items, hv⟩

/-- In a list member there is a list. -/
theorem Sound.exists_items (hg : g.Sound) (ho : g.object? r = some o) (hl : g.layout r = .ok l)
    (hslot : l[i]? = some slot) (hmany : slot.member.isMany = true) :
    ∃ items, o.values[i]? = some (.refs items) :=
  hg.wellTyped.exists_items ho hl hslot hmany

/-- What is written to the end of a list is accepted by the list. -/
theorem WellTyped.exists_of_push {item : Ref} (hg : g.WellTyped)
    (hpush : g.push r member item = .ok h) : ∃ o l i slot items, g.object? r = some o ∧
      g.layout r = .ok l ∧ l.slotOf? member = some i ∧ l[i]? = some slot ∧
      o.values[i]? = some (.refs items) ∧
      (g.contains item = true ∧ slot.targets.contains item.tag = true) ∧
      g.modify r (fun p =>
        { p with values := o.values.set i (.refs (some (items.getD [] ++ [item]))) }) = h := by
  obtain ⟨i, hslotOf, -⟩ := bind_eq_ok.1 hpush
  obtain ⟨l, hl, hi⟩ := slotOf_eq_ok.1 hslotOf
  obtain ⟨slot, hslot, -⟩ := exists_slot hi
  cases ho : g.object? r with
  | some o =>
    have hmany : slot.member.isMany = true := by
      by_contra hsingle
      rw [push, hslotOf, hl] at hpush
      simp [bind, Except.bind, hslot, hsingle] at hpush
    obtain ⟨items, hv⟩ := hg.exists_items ho hl hslot hmany
    obtain ⟨⟨-, hitem⟩, hmodify⟩ := (push_eq_ok ho hl hi hslot hv).1 hpush
    exact ⟨o, l, i, slot, items, rfl, hl, hi, hslot, hv, hitem, hmodify⟩
  -- Every way to push to an object that is not there ends in an error.
  | none =>
    have hobject : g.object r = .error (.danglingReference r) := object_eq_error ho
    rw [push, hslotOf, hl, hobject] at hpush
    simp only [bind, Except.bind, hslot] at hpush
    cases hm : slot.member.isMany <;> cases hf : g.checkTarget r slot item <;>
      simp [hm, hf] at hpush

/-- A list with one element more has been accepted, as all that was in it was before. -/
theorem Sound.writes_of_push {item : Ref} (hg : g.Sound) (hpush : g.push r member item = .ok h) :
    g.Writes r member h := by
  obtain ⟨o, l, i, slot, items, ho, hl, hi, hslot, hv, hitem, hmodify⟩ :=
    hg.wellTyped.exists_of_push hpush
  refine ⟨o, l, i, slot, _, ho, hl, hi, hslot, ?_, hmodify⟩
  refine ((hg.accepts ho hl).2 i slot _ hslot hv).refs fun s hs => ?_
  have hs : s ∈ items.getD [] ++ [item] := hs
  rcases List.mem_append.1 hs with hs | hs
  · exact .inl hs
  · exact .inr (List.mem_singleton.1 hs ▸ hitem)

/-! Nothing else changes. -/

section

variable (hwrites : g.Writes r member h)

include hwrites

theorem Writes.model : h.model = g.model := by
  obtain ⟨o, l, i, slot, v, -, -, -, -, -, rfl⟩ := hwrites
  rfl

theorem Writes.contains (s : Ref) : h.contains s = g.contains s := by
  obtain ⟨o, l, i, slot, v, -, -, -, -, -, rfl⟩ := hwrites
  exact contains_modify _

theorem Writes.parent? (s : Ref) : h.parent? s = g.parent? s := by
  obtain ⟨o, l, i, slot, v, -, -, -, -, -, rfl⟩ := hwrites
  exact parent?_modify_of_eq fun _ => rfl

theorem Writes.childrenOf (s : Ref) : h.childrenOf s = g.childrenOf s := by
  obtain ⟨o, l, i, slot, v, -, -, -, -, -, rfl⟩ := hwrites
  exact childrenOf_modify_of_eq fun _ => rfl

theorem Writes.object?_of_ne {s : Ref} (hne : s ≠ r) : h.object? s = g.object? s := by
  obtain ⟨o, l, i, slot, v, -, -, -, -, -, rfl⟩ := hwrites
  exact object?_modify_of_ne _ hne

/-- What is written into a member does not show in others. -/
theorem Writes.get_of_ne {name : String} (hne : name ≠ member) : h.get r name = g.get r name := by
  obtain ⟨o, l, i, slot, v, ho, hl, hi, -, -, rfl⟩ := hwrites
  exact get_modify_of_ne ho hl hi hne

end

/-- What is written into members keeps a graph sound. -/
theorem Sound.writes (hg : g.Sound) (hwrites : g.Writes r member h) : h.Sound := by
  obtain ⟨o, l, i, slot, v, ho, hl, hi, hslot, hv, rfl⟩ := hwrites
  refine hg.modify fun p l' hp hl' haccepts => ?_
  obtain rfl := Option.some.inj (ho.symm.trans hp)
  obtain rfl := Except.ok.inj (hl.symm.trans hl')
  exact haccepts.set hslot hv

end Graph

end ObjectModel
