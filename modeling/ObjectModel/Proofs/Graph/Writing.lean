import Mathlib.Algebra.Ring.Int.Defs
import ObjectModel.Proofs.Adoption.Lists
import ObjectModel.Proofs.Graph.Admitting
import ObjectModel.Proofs.Graph.Design

/-!
# Writing members

A value is written into a member of an object, or a reference to the end of a
list. Either succeeds exactly if the object has the member, and the member takes
what is written (`Graph.SetsOneSlot.succeeds`). Then one slot of the object has
changed, and nothing else (`Graph.Rewrites`); if it fails, nothing has.

What a member takes is told by the kind of its values, by the width of integers
(`Value.fits_iff`), and for references by the target tags of the member
(`Graph.MayRefer`).
-/

namespace ObjectModel

/-! ## Kinds and widths -/

/-- The bits that an integer of the kind may take. -/
def ScalarKind.bits : ScalarKind → Nat
  | int16 | uint16 => 16
  | int32 | uint32 => 32
  | _ => 64

/-- The bits that an integer in the member may take. -/
def Member.bits (m : Member) : Nat :=
  match m.content with
  | .scalar kind => kind.bits
  | _ => 64

/-- An integer takes no more bits, with its sign if it has one. -/
def Value.Within (bits : Nat) : Value → Prop
  | int n => -2 ^ (bits - 1) ≤ n.toInt ∧ n.toInt < 2 ^ (bits - 1)
  | uint n => n.toNat < 2 ^ bits
  | _ => True

/-- A value fits if it is of the kind of the member, and within its width. -/
theorem Value.fits_iff {m : Member} {v : Value} :
    v.fits m = true ↔ v.kind = m.valueKind ∧ v.Within m.bits := by
  obtain ⟨name, content, relation, tags⟩ := m
  rcases content with kind | ⟨_, card⟩ | ⟨_, card⟩
  · cases kind <;> cases v <;>
      simp [fits, Value.kind, Member.valueKind, Within, Member.bits, ScalarKind.bits]
    -- At the full width, the bounds are those of all integers that can be kept.
    case scalar.int64.int n => exact ⟨n.le_toInt, n.toInt_lt⟩
    case scalar.uint64.uint n => exact n.toNat_lt
  · cases card <;> cases v <;> simp [fits, Value.kind, Member.valueKind, Within]
  · cases card <;> cases v <;> simp [fits, Value.kind, Member.valueKind, Within]

namespace Graph

variable {g h : Graph} {r s : Ref} {o : Object} {l : Layout} {slot : Slot} {i : Nat}
  {member : String} {m : Member} {v : Value}

/-! ## Members of objects -/

/-- The object `r` has the member `m` of that name, in its slot `i`. -/
def HasMember (g : Graph) (r : Ref) (name : String) (i : Nat) (m : Member) : Prop :=
  g.contains r = true ∧ ∃ e, g.schema.entityAt? r.tag = some e ∧
    (g.schema.membersBaseFirst e)[i]? = some m ∧ m.name = name

/-- The member may refer to `s`: this is an object, with a target tag of the member. -/
def MayRefer (g : Graph) (m : Member) (s : Ref) : Prop :=
  g.contains s = true ∧ ∃ tags, g.model.resolution.targetTags m = .ok tags ∧ s.tag ∈ tags

/-- The members of objects are those of their layouts. -/
theorem WellTyped.hasMember_iff (hg : g.WellTyped) (hn : g.model.Distinct) :
    g.HasMember r member i m ↔ ∃ o l slot, g.object? r = some o ∧ g.layout r = .ok l ∧
      l.slotOf? member = some i ∧ l[i]? = some slot ∧ slot.member = m := by
  constructor
  · rintro ⟨hr, e, he, hm, rfl⟩
    obtain ⟨o, ho⟩ := contains_iff.1 hr
    obtain ⟨e', l, he', -, hl, hmembers, -⟩ := hg.object ho
    obtain rfl := Option.some.inj (he.symm.trans he')
    rw [← hmembers] at hm
    have hnames : (l.members.map (·.name)).Nodup := hmembers ▸ hn e (List.mem_of_getElem? he)
    have hi := (Layout.slotOf?_eq_some hnames (List.mem_of_getElem? hm)).2 hm
    rw [Layout.members, List.getElem?_map, Option.map_eq_some_iff] at hm
    obtain ⟨slot, hslot, rfl⟩ := hm
    exact ⟨o, l, slot, ho, hl, hi, hslot, rfl⟩
  · rintro ⟨o, l, slot, ho, hl, hi, hslot, rfl⟩
    obtain ⟨e, l', he, -, hl', hmembers, -⟩ := hg.object ho
    obtain rfl := Except.ok.inj (hl.symm.trans hl')
    obtain ⟨slot', hslot', hname⟩ := exists_slot hi
    obtain rfl := Option.some.inj (hslot.symm.trans hslot')
    refine ⟨contains_of_object? ho, e, he, ?_, hname⟩
    rw [← hmembers, Layout.members, List.getElem?_map, hslot]
    rfl

theorem mayRefer_iff (hm : g.model.Built) (hl : g.layout r = .ok l) (hslot : l[i]? = some slot) :
    g.MayRefer slot.member s ↔
      g.contains s = true ∧ slot.targets.contains s.tag = true := by
  rw [MayRefer, hm.targetTags_eq hl (List.mem_of_getElem? hslot)]
  simp

/-- A slot accepts what its member takes. -/
theorem accepts_iff (hm : g.model.Built) (hl : g.layout r = .ok l) (hslot : l[i]? = some slot) :
    slot.Accepts g v ↔ v.kind = slot.member.valueKind ∧ v.Within slot.member.bits ∧
      ∀ s ∈ v.references, g.MayRefer slot.member s := by
  rw [Slot.Accepts, Value.fits_iff, and_assoc]
  simp only [mayRefer_iff hm hl hslot]

/-! ## One slot -/

/-- From `g` to `h`, the slot `i` of `r` has changed from `old` to `new`, and nothing
    else has. -/
structure Rewrites (g : Graph) (r : Ref) (i : Nat) (old new : Value) (h : Graph) : Prop where
  model : h.model = g.model
  lastId : h.lastId = g.lastId
  others : ∀ s ≠ r, h.object? s = g.object? s
  /-- The header stays, as do the values in other slots. -/
  object : ∃ o, g.object? r = some o ∧ o.values[i]? = some old ∧
    h.object? r = some { o with values := o.values.set i new }

/-- Setting one value of an object rewrites one slot. -/
theorem rewrites_modify {old new : Value} (ho : g.object? r = some o)
    (hold : o.values[i]? = some old) :
    g.Rewrites r i old new (g.modify r fun p => { p with values := o.values.set i new }) where
  model := rfl
  lastId := rfl
  others s hs := object?_modify_of_ne _ hs
  object := ⟨o, ho, hold, by rw [object?_modify_self, ho]; rfl⟩

/-- What was in the slot is what was read, and what is in it is what is read. -/
theorem Rewrites.get_eq {old new : Value} (hrewrites : g.Rewrites r i old new h)
    (hl : g.layout r = .ok l) (hi : l.slotOf? member = some i) :
    g.get r member = .ok old ∧ h.get r member = .ok new := by
  obtain ⟨o, ho, hold, ho'⟩ := hrewrites.object
  have hl' : h.layout r = .ok l := by rwa [layout, hrewrites.model]
  have hlt : i < o.values.length := (List.getElem?_eq_some_iff.1 hold).1
  constructor
  · rw [Graph.get_eq ho hl hi, List.getD_eq_getElem?_getD, hold, Option.getD_some]
  · rw [Graph.get_eq ho' hl' hi, List.getD_eq_getElem?_getD, List.getElem?_set_self hlt,
      Option.getD_some]

/-- A setter changes a member if the object has it and it is one that takes the change,
    and otherwise nothing. In the slot of the member it changes what is held to what comes
    next, and nothing else. -/
structure SetsOneSlot (g : Graph) (r : Ref) (member : String)
    (setter : Graph → Except GraphError Graph) (Takes : Member → Prop)
    (Next : Value → Value → Prop) : Prop where
  succeeds : (∃ h, (Update.apply setter).run g = (.ok (), h)) ↔
    ∃ i m, g.HasMember r member i m ∧ Takes m
  changed : ∀ h, (Update.apply setter).run g = (.ok (), h) → ∃ i m old new,
    g.HasMember r member i m ∧ Next old new ∧ g.Rewrites r i old new h ∧
      g.get r member = .ok old ∧ h.get r member = .ok new
  kept : ∀ e h, (Update.apply setter).run g = (.error e, h) → h = g

/-- An update that consists in one change succeeds with it. -/
theorem run_apply_eq_ok {f : Graph → Except GraphError Graph} :
    (Update.apply f).run g = (.ok (), h) ↔ f g = .ok h := by
  rw [run_eq_iff]
  rcases hf : f g with e | k
  · simp [run_apply_error hf]
  · simp [run_apply hf]

/-- If it fails, nothing has changed. -/
theorem eq_of_run_apply {f : Graph → Except GraphError Graph} {e : GraphError}
    (hrun : (Update.apply f).run g = (.error e, h)) : h = g := by
  rcases hf : f g with e' | k
  · rw [run_apply_error hf] at hrun
    exact (congrArg Prod.snd hrun).symm
  · rw [run_apply hf] at hrun
    cases congrArg Prod.fst hrun

/-- What a setter does to objects that have the member says all that it does. -/
theorem WellTyped.setsOneSlot (hg : g.WellTyped) (hn : g.model.Distinct)
    {setter : Graph → Except GraphError Graph} {Takes : Member → Prop}
    {Next : Value → Value → Prop}
    (hset : ∀ o l i slot old h, g.object? r = some o → g.layout r = .ok l →
      l.slotOf? member = some i → l[i]? = some slot → o.values[i]? = some old →
        (setter g = .ok h ↔ Takes slot.member ∧ ∃ new, Next old new ∧
          g.modify r (fun p => { p with values := o.values.set i new }) = h))
    (hnext : ∀ m old, Takes m → old.fits m = true → ∃ new, Next old new)
    (hfound : ∀ h, setter g = .ok h → ∃ o l i, g.object? r = some o ∧ g.layout r = .ok l ∧
      l.slotOf? member = some i) :
    g.SetsOneSlot r member setter Takes Next := by
  -- What success says is said once, since the condition and the change both need it.
  have hdone : ∀ h, setter g = .ok h → ∃ i m old new, g.HasMember r member i m ∧ Takes m ∧
      Next old new ∧ g.Rewrites r i old new h ∧ g.get r member = .ok old ∧
        h.get r member = .ok new := by
    intro h hok
    obtain ⟨o, l, i, ho, hl, hi⟩ := hfound h hok
    obtain ⟨slot, hslot, -⟩ := exists_slot hi
    obtain ⟨old, hold, -⟩ := hg.exists_value ho hl hslot
    obtain ⟨htakes, new, hnew, rfl⟩ := (hset o l i slot old h ho hl hi hslot hold).1 hok
    have hm := (hg.hasMember_iff hn).2 ⟨o, l, slot, ho, hl, hi, hslot, rfl⟩
    have hrewrites : g.Rewrites r i old new _ := rewrites_modify ho hold
    exact ⟨i, _, old, new, hm, htakes, hnew, hrewrites, hrewrites.get_eq hl hi⟩
  refine ⟨?_, fun h hrun => ?_, fun _ _ => eq_of_run_apply⟩
  · simp only [run_apply_eq_ok]
    constructor
    · rintro ⟨h, hok⟩
      obtain ⟨i, m, -, -, hm, htakes, -⟩ := hdone h hok
      exact ⟨i, m, hm, htakes⟩
    · rintro ⟨i, m, hm, htakes⟩
      obtain ⟨o, l, slot, ho, hl, hi, hslot, rfl⟩ := (hg.hasMember_iff hn).1 hm
      obtain ⟨old, hold, hfits⟩ := hg.exists_value ho hl hslot
      obtain ⟨new, hnew⟩ := hnext _ _ htakes hfits
      exact ⟨_, (hset o l i slot old _ ho hl hi hslot hold).2 ⟨htakes, new, hnew, rfl⟩⟩
  · obtain ⟨i, m, old, new, hm, -, hchanged⟩ := hdone h (run_apply_eq_ok.1 hrun)
    exact ⟨i, m, old, new, hm, hchanged⟩

/-- What is pushed stands at the end of what was a list. -/
theorem WellTyped.push_eq_ok_iff (hg : g.WellTyped) (ho : g.object? r = some o)
    (hl : g.layout r = .ok l) (hi : l.slotOf? member = some i) (hslot : l[i]? = some slot)
    {item : Ref} {old : Value} (hold : o.values[i]? = some old) :
    g.push r member item = .ok h ↔ (slot.member.isMany = true ∧ g.MayRefer slot.member item) ∧
      ∃ new, (∃ items, old = .refs items ∧ new = .refs (some (items.getD [] ++ [item]))) ∧
        g.modify r (fun p => { p with values := o.values.set i new }) = h := by
  rw [mayRefer_iff hg.built hl hslot]
  constructor
  · intro hok
    obtain ⟨o', l', i', -, items, ho', hl', hi', -, hv, -⟩ := hg.exists_of_push hok
    obtain rfl := Option.some.inj (ho.symm.trans ho')
    obtain rfl := Except.ok.inj (hl.symm.trans hl')
    obtain rfl := Option.some.inj (hi.symm.trans hi')
    obtain rfl := Option.some.inj (hold.symm.trans hv)
    obtain ⟨htakes, hmodify⟩ := (push_eq_ok ho hl hi hslot hold).1 hok
    exact ⟨htakes, _, ⟨items, rfl, rfl⟩, hmodify⟩
  · rintro ⟨htakes, _, ⟨items, rfl, rfl⟩, hmodify⟩
    exact (push_eq_ok ho hl hi hslot hold).2 ⟨htakes, hmodify⟩

/-- A value is written into a member of its kind and width that may refer to what it
    refers to, in the place of the old one. A reference is written into a list that may
    have it, to the end of the old one. -/
theorem WellTyped.writes_one_slot (hg : g.WellTyped) (hn : g.model.Distinct) (r : Ref)
    (member : String) :
    (∀ v, g.SetsOneSlot r member (·.set r member v)
      (fun m => v.kind = m.valueKind ∧ v.Within m.bits ∧ ∀ s ∈ v.references, g.MayRefer m s)
      fun _ new => new = v) ∧
    ∀ item, g.SetsOneSlot r member (·.push r member item)
      (fun m => m.isMany = true ∧ g.MayRefer m item)
      fun old new => ∃ items, old = .refs items ∧
        new = .refs (some (items.getD [] ++ [item])) := by
  constructor
  · intro v
    refine hg.setsOneSlot hn (fun o l i slot old h ho hl hi hslot hold => ?_)
      (fun _ _ _ _ => ⟨v, rfl⟩) fun h hok => ?_
    · rw [set_eq_ok ho hl hi hslot, accepts_iff hg.built hl hslot, exists_eq_left]
    · obtain ⟨o, l, i, slot, _, ho, hl, hi, -⟩ := writes_of_set hok
      exact ⟨o, l, i, ho, hl, hi⟩
  · intro item
    refine hg.setsOneSlot hn
      (fun o l i slot old h ho hl hi hslot hold => hg.push_eq_ok_iff ho hl hi hslot hold)
      (fun m old hm hfits => ?_) fun h hok => ?_
    · obtain ⟨items, rfl⟩ := Value.exists_refs_of_fits hm.1 hfits
      exact ⟨_, items, rfl, rfl⟩
    · obtain ⟨o, l, i, slot, _, ho, hl, hi, -⟩ := hg.exists_of_push hok
      exact ⟨o, l, i, ho, hl, hi⟩

/-- A wire is put into the list of a cell. Nothing is written into a wire that there
    is not, though there is a member for it. -/
theorem WellTyped.writes_one_slot_wires :
    let g := Design.graph .empty [{ name := "a" }, { name := "b" }] [{ wires := [0] }]
    g.WellTyped ∧ g.model.Distinct ∧
      (∃ h, (Update.apply (·.push (Design.cell 0) "wires" (Design.wire 1))).run g = (.ok (), h)) ∧
      ¬ ∃ h, (Update.apply (·.set (Design.wire 2) "name" (.text "c"))).run g = (.ok (), h) := by
  intro g
  have hg : g.WellTyped := (Design.sound .empty (by decide) (by decide)).wellTyped
  have hn : g.model.Distinct := by decide +kernel
  obtain ⟨-, hpush⟩ := hg.writes_one_slot hn (Design.cell 0) "wires"
  obtain ⟨hset, -⟩ := hg.writes_one_slot hn (Design.wire 2) "name"
  refine ⟨hg, hn, (hpush _).succeeds.2 ?_, fun hok => ?_⟩
  · exact ⟨2, .plain "wires" (.object "wire" .many), ⟨by decide, _, rfl, by decide +kernel, rfl⟩,
      rfl, by decide, [0], by decide +kernel, by decide⟩
  · obtain ⟨i, m, ⟨hwire, -⟩, -⟩ := (hset _).succeeds.1 hok
    exact absurd hwire (by decide)

end Graph

end ObjectModel
