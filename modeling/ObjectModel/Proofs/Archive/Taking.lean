import ObjectModel.Proofs.Archive.Format
import ObjectModel.Proofs.Archive.Reading
import ObjectModel.Proofs.Wire.Taking

/-!
# What has been read of an archive

Where a part of restoring succeeds, what it took off the front of the archive are
the items of such a part (`Restoring.Takes`), and it gives what these stand for:
a header (`Restoring.takeHeader_takes`), or the value of a member
(`Restoring.takeValue_takes`). References that are given name objects of the graph.
-/

namespace ObjectModel

open Wire Archive

namespace Restoring

variable {α β γ : Type} {t : SymbolTable} {g : Graph} {x : Restoring α} {a : α}
  {P Q : List Item → α → Prop} {P' : List Item → β → Prop}

/-- With the symbols `t` and in the graph `g`, what `x` takes are items, of which
    and of what it gives `P` holds. Nothing else changes but the room. -/
def Takes (t : SymbolTable) (g : Graph) (x : Restoring α) (P : List Item → α → Prop) : Prop :=
  ∀ unread room a s, x.run ⟨unread, t, g, room⟩ = (.ok a, s) →
    ∃ items rest room', s = ⟨rest, t, g, room'⟩ ∧ unread = encodeAll items ++ rest ∧ P items a

namespace Takes

theorem pure (h : P [] a) : Takes t g (pure a) P := by
  intro unread room b s hrun
  cases hrun
  exact ⟨[], unread, room, rfl, rfl, h⟩

/-- Two parts take their items one after the other. -/
theorem bind {f : α → Restoring β} (hx : Takes t g x P)
    (hf : ∀ items a, P items a → Takes t g (f a) fun items' b => P' (items ++ items') b) :
    Takes t g (x >>= f) P' := by
  intro unread room b s hrun
  obtain ⟨a, s₁, hrunx, hrunf⟩ := exists_run_bind_ok hrun
  obtain ⟨items, rest, room₁, rfl, rfl, ha⟩ := hx _ _ _ _ hrunx
  obtain ⟨items', rest', room₂, rfl, rfl, hb⟩ := hf items a ha _ _ _ _ hrunf
  exact ⟨items ++ items', rest', room₂, rfl, by rw [encodeAll_append, List.append_assoc], hb⟩

/-- Less may be told of the items that were taken. -/
theorem mono (hx : Takes t g x P) (h : ∀ items a, P items a → Q items a) : Takes t g x Q := by
  intro unread room a s hrun
  obtain ⟨items, rest, room', hs, hunread, ha⟩ := hx _ _ _ _ hrun
  exact ⟨items, rest, room', hs, hunread, h items a ha⟩

/-- What is taken is put in another form. -/
theorem andReturn {f : α → β} (hx : Takes t g x P) (h : ∀ items a, P items a → P' items (f a)) :
    Takes t g (do return f (← x)) P' :=
  hx.bind fun items a ha => .pure (by rw [List.append_nil]; exact h items a ha)

end Takes

/-- A reader takes one item. -/
theorem Takes.take {r : Reader α} {R : Item → α → Prop} (hr : Wire.Takes r R) :
    Takes t g (take r) fun items a => ∃ item, items = [item] ∧ R item a := by
  intro unread room a s hrun
  obtain ⟨rest, rfl, hread⟩ := exists_of_run_take hrun
  obtain ⟨item, hunread, ha⟩ := hr _ _ _ hread
  refine ⟨[item], rest, room, rfl, ?_, item, rfl, ha⟩
  rw [encodeAll_singleton]
  exact hunread

/-- What is taken `n` times. -/
theorem Takes.times {item : β → List Item} {V : β → α → Prop}
    (hx : Takes t g x fun items a => ∃ b, items = item b ∧ V b a) (n : Nat) :
    Takes t g (times x n) fun items as =>
      ∃ bs : List β, bs.length = n ∧ items = bs.flatMap item ∧ List.Forall₂ V bs as := by
  induction n with
  | zero => exact .pure ⟨[], rfl, rfl, .nil⟩
  | succ n ih =>
    refine hx.bind fun items a ⟨b, hitems, ha⟩ =>
      ih.andReturn fun items' as ⟨bs, hn, hbs, has⟩ => ?_
    exact ⟨b :: bs, congrArg (· + 1) hn, by rw [hitems, hbs, List.flatMap_cons], .cons ha has⟩

/-- What is taken for each element of a list. -/
theorem Takes.mapM {f : γ → Restoring α} {item : β → List Item} {S : γ → β → Prop}
    {V : β → α → Prop} {l : List γ}
    (hf : ∀ c ∈ l, Takes t g (f c) fun items a => ∃ b, items = item b ∧ S c b ∧ V b a) :
    Takes t g (l.mapM f) fun items as => ∃ bs : List β, items = bs.flatMap item ∧
      List.Forall₂ S l bs ∧ List.Forall₂ V bs as := by
  induction l with
  | nil =>
    rw [List.mapM_nil]
    exact .pure ⟨[], rfl, .nil, .nil⟩
  | cons c l ih =>
    rw [List.mapM_cons]
    refine (hf c List.mem_cons_self).bind fun items a ⟨b, hitems, hb, ha⟩ => ?_
    refine (ih fun c hc => hf c (List.mem_cons_of_mem _ hc)).andReturn
      fun items' as ⟨bs, hbs, hsuits, has⟩ => ?_
    exact ⟨b :: bs, by rw [hitems, hbs, List.flatMap_cons], .cons hb hsuits, .cons ha has⟩

/-! ## References and texts -/

theorem takePointer_takes : Takes t g (take takeRef) fun items target =>
    ∃ p : Pointer, items = [p.item] ∧ p.target? = target :=
  (Takes.take takeRef_takes).mono fun _ _ ⟨_, hitems, tag, index, hitem, htarget⟩ =>
    ⟨⟨tag, index⟩, hitems.trans (congrArg ([·]) hitem), htarget⟩

/-- A reference that was let through names an object, and nothing has changed. -/
theorem contains_of_run_checkRef {s s' : Restoration} {r : Ref}
    (h : (checkRef r).run s = (.ok (), s')) : s' = s ∧ s.graph.contains r = true := by
  change ((if s.graph.contains r then pure () else _ : Except GraphError Unit), s) = _ at h
  split at h
  · cases h
    exact ⟨rfl, ‹_›⟩
  · cases congrArg Prod.fst h

/-- A check takes no items. -/
theorem checkRef_takes (r : Ref) :
    Takes t g (checkRef r) fun items _ => items = [] ∧ g.contains r = true := by
  intro unread room a s hrun
  obtain ⟨rfl, hr⟩ := contains_of_run_checkRef hrun
  exact ⟨[], unread, room, rfl, rfl, rfl, hr⟩

/-- The object that a reference means is an object of the graph. -/
theorem takeTarget_takes : Takes t g takeTarget fun items target =>
    ∃ p : Pointer, items = [p.item] ∧ p.target? = target ∧ ∀ r ∈ target, g.contains r = true := by
  refine takePointer_takes.bind fun items target ⟨p, hitems, hp⟩ => ?_
  cases target with
  | none => exact .pure ⟨p, by rw [hitems]; rfl, hp, fun _ hr => nomatch hr⟩
  | some r =>
    refine (checkRef_takes r).bind fun items' _ ⟨hitems', hr⟩ => .pure ?_
    refine ⟨p, by rw [hitems, hitems']; rfl, hp, ?_⟩
    rintro _ ⟨⟩
    exact hr

theorem takeCount_takes (size : Nat) :
    Takes t g (take (takeCount size)) fun items n => items = [countItem n] ∧ n < 2 ^ 32 := by
  intro unread room n s hrun
  obtain ⟨rest, rfl, hread⟩ := exists_of_run_take hrun
  obtain ⟨hlt, rfl⟩ := eq_append_of_run_takeCount hread
  refine ⟨[countItem n], rest, room, rfl, ?_, rfl, hlt⟩
  rw [encodeAll_singleton, encode_countItem hlt]

/-- Room is made without taking anything. -/
theorem makeRoom_takes (f : Room → Room) :
    Takes t g (modifyThe Restoration fun s => { s with room := f s.room } : Restoring Unit)
      fun items _ => items = [] := by
  intro unread room a s hrun
  cases hrun
  exact ⟨[], unread, f room, rfl, rfl, rfl⟩

/-- A length is a count, with room made for as many elements. -/
theorem takeLength_takes :
    Takes t g takeLength fun items n => items = [countItem n] ∧ n < 2 ^ 32 :=
  (takeCount_takes refSize).bind fun _ _ ⟨hitems, hn⟩ => (makeRoom_takes (·.reserve _)).bind
    fun _ _ hnone => .pure ⟨by rw [hitems, hnone]; rfl, hn⟩

/-- What the references of a list mean, one after the other. -/
theorem targets_eq {ps : List Pointer} {l : List (Option Ref)} {L : Ref → Prop}
    (h : List.Forall₂ (fun p target => Pointer.target? p = target ∧ ∀ r ∈ target, L r) ps l) :
    targets ps = l.filterMap id ∧ ∀ r ∈ l.filterMap id, L r := by
  induction h with
  | nil => exact ⟨rfl, fun _ hr => absurd hr List.not_mem_nil⟩
  | @cons p target ps l hp _ ih =>
    obtain ⟨htarget, hlive⟩ := hp
    rw [targets] at ih ⊢
    cases target with
    | none => rwa [List.filterMap_cons_none htarget, List.filterMap_cons_none rfl]
    | some r =>
      rw [List.filterMap_cons_some htarget, List.filterMap_cons_some (f := id) rfl, ih.1,
        List.forall_mem_cons]
      exact ⟨rfl, hlive r rfl, ih.2⟩

/-- A list of references is taken behind its length. Those to no object are left
    out. -/
theorem takeList_takes {x : Restoring (Option Ref)} {L : Ref → Prop}
    (hx : Takes t g x fun items target =>
      ∃ p : Pointer, items = [p.item] ∧ p.target? = target ∧ ∀ r ∈ target, L r) :
    Takes t g (do
      let n ← takeLength
      return (← times x n).filterMap id) fun items l => ∃ ps : List Pointer,
        ps.length < 2 ^ 32 ∧ items = pointerItems ps ∧ targets ps = l ∧ ∀ r ∈ l, L r := by
  refine takeLength_takes.bind fun items n ⟨hitems, hn⟩ =>
    (hx.times n).andReturn fun items' as ⟨ps, hlength, hitems', has⟩ => ?_
  refine ⟨ps, hlength ▸ hn, ?_, targets_eq has⟩
  rw [hitems, hitems', ← List.map_eq_flatMap, pointerItems, hlength]
  rfl

/-- The roots are the objects that a list of pointers names. -/
theorem takeRoots_takes : Takes t g takeRoots fun items l => ∃ ps : List Pointer,
    ps.length < 2 ^ 32 ∧ items = pointerItems ps ∧ targets ps = l :=
  (takeList_takes (L := fun _ => True) (takePointer_takes.mono fun _ _ ⟨p, hitems, hp⟩ =>
    ⟨p, hitems, hp, fun _ _ => trivial⟩)).mono fun _ _ ⟨ps, hlength, hitems, hps, _⟩ =>
      ⟨ps, hlength, hitems, hps⟩

/-- The elements of a list are what its pointers name, and each is an object. -/
theorem takeTargets_takes : Takes t g takeTargets fun items l => ∃ ps : List Pointer,
    ps.length < 2 ^ 32 ∧ items = pointerItems ps ∧ targets ps = l ∧
      ∀ r ∈ l, g.contains r = true :=
  takeList_takes takeTarget_takes

/-- References are taken one by one, and put behind those that have been taken. -/
theorem pushTargets_takes (l : Growing Ref) (n : Nat) :
    Takes t g (pushTargets l n) fun items l' => ∃ ps : List Pointer, ps.length = n ∧
      items = ps.map Pointer.item ∧ l' = l.elements ++ targets ps ∧
        ∀ r ∈ targets ps, g.contains r = true := by
  induction n generalizing l with
  | zero => exact .pure ⟨[], rfl, rfl, (List.append_nil _).symm, fun _ hr => nomatch hr⟩
  | succ n ih =>
    refine takeTarget_takes.bind fun items target ⟨p, hitems, htarget, hlive⟩ => ?_
    -- A pointer to nothing is read and leaves the list as it is.
    cases target with
    | none =>
      refine (ih l).mono fun items' l' ⟨ps, hn, hitems', hl', hps⟩ =>
        ⟨p :: ps, congrArg (· + 1) hn, by rw [hitems, hitems', List.map_cons]; rfl, ?_⟩
      rw [targets, List.filterMap_cons_none htarget]
      exact ⟨hl', hps⟩
    | some r =>
      refine (makeRoom_takes (·.grow (l.push r))).bind fun _ _ hnone => (ih (l.push r)).mono
        fun items' l' ⟨ps, hn, hitems', hl', hps⟩ => ⟨p :: ps, congrArg (· + 1) hn, ?_, ?_⟩
      · rw [hitems, hnone, hitems', List.map_cons]
        rfl
      · rw [targets, List.filterMap_cons_some htarget, List.forall_mem_cons]
        exact ⟨by rw [hl', List.append_cons]; rfl, hlive r rfl, hps⟩

/-- The children of a header are taken like another list, but for the room. -/
theorem takeChildren_takes : Takes t g takeChildren fun items l => ∃ ps : List Pointer,
    ps.length < 2 ^ 32 ∧ items = pointerItems ps ∧ targets ps = l ∧
      ∀ r ∈ l, g.contains r = true := by
  refine (takeCount_takes refSize).bind fun items n ⟨hitems, hn⟩ =>
    (pushTargets_takes .empty n).mono fun items' l ⟨ps, hlength, hitems', hl, hlive⟩ =>
      ⟨ps, hlength ▸ hn, ?_, hl.symm, hl ▸ hlive⟩
  rw [hitems, hitems', pointerItems, hlength]
  rfl

/-- An id is taken that the symbols know. -/
theorem takeSymbol_takes : Takes t g takeSymbol fun items s =>
    ∃ id : UInt32, items = [.u32 id] ∧ t.resolve? id.toNat = some s := by
  refine (Takes.take takeId_takes).bind fun items n ⟨item, hitems, id, hitem, hid⟩ => ?_
  intro unread room s u hrun
  obtain ⟨_, _, hget, hrun₁⟩ := exists_run_bind_ok hrun
  cases hget
  rcases hresolve : t.resolve? n with _ | text
  · simp only [hresolve] at hrun₁
    cases congrArg Prod.fst hrun₁
  · simp only [hresolve] at hrun₁
    cases hrun₁
    refine ⟨[], unread, room, rfl, rfl, id, ?_, hid ▸ hresolve⟩
    rw [hitems, hitem]
    rfl

/-! ## Headers and values -/

/-- What is taken for a header are the items of one heading, which stands for this
    header. Its references name objects that there are. -/
theorem takeHeader_takes : Takes t g takeHeader fun items header => ∃ x : Heading,
    x.children.length < 2 ^ 32 ∧ items = x.items ∧ x.header? t = some header ∧
      (∀ r ∈ header.parent, g.contains r = true) ∧
        ∀ r ∈ header.children, g.contains r = true := by
  refine (Takes.take takeU32_takes).bind fun _ id ⟨_, hid, rfl⟩ => ?_
  refine takeTarget_takes.bind fun _ parent ⟨parent', hparent, hparent', hlive⟩ => ?_
  refine takeSymbol_takes.bind fun _ file ⟨file', hfile, hfile'⟩ => ?_
  refine (Takes.take takeU32_takes).bind fun _ line ⟨_, hline, rfl⟩ => ?_
  refine (Takes.take takeU16_takes).bind fun _ column ⟨_, hcolumn, rfl⟩ => ?_
  refine (Takes.take takeU32_takes).bind fun _ line₁ ⟨_, hline₁, rfl⟩ => ?_
  refine (Takes.take takeU16_takes).bind fun _ column₁ ⟨_, hcolumn₁, rfl⟩ => ?_
  refine takeChildren_takes.andReturn
    fun _ children ⟨children', hlength, hitems, hchildren, hall⟩ => ?_
  refine ⟨⟨id, parent', file', ⟨line, column⟩, ⟨line₁, column₁⟩, children'⟩, hlength, ?_, ?_, hlive,
    hall⟩
  · rw [hid, hparent, hfile, hline, hcolumn, hline₁, hcolumn₁, hitems]
    rfl
  · rw [Heading.header?, hfile', hparent', hchildren]
    rfl

/-- The items are those of a field that suits the member and stands for the value.
    The objects that are meant are objects of the graph. -/
def IsField (t : SymbolTable) (g : Graph) (m : Member) (items : List Item) (v : Value) : Prop :=
  ∃ f : Field, items = f.items ∧ f.Suits m ∧ f.value? t = some v ∧
    ∀ r ∈ v.references, g.contains r = true

/-- What is no reference means no objects. -/
theorem IsField.of_scalar {m : Member} {items : List Item} {v : Value} (f : Field)
    (hitems : items = f.items) (hf : f.Suits m) (hv : f.value? t = some v)
    (hnone : v.references = []) : IsField t g m items v :=
  ⟨f, hitems, hf, hv, fun r hr => by rw [hnone] at hr; cases hr⟩

/-- What is taken for a member are the items of one field
    that suits it, and the value is what the field stands
    for. References in it name objects that there are. -/
theorem takeValue_takes (m : Member) : Takes t g (takeValue m) (IsField t g m) := by
  -- A case for each kind of member.
  obtain ⟨name, content, relation, tags⟩ := m
  cases content with
  | scalar kind =>
    cases kind with
    | bool =>
      exact (Takes.take takeBool_takes).andReturn fun _ b ⟨_, hitems, byte, hitem, hb⟩ =>
        .of_scalar (.bool byte) (by rw [hitems, hitem]; rfl) trivial (by rw [← hb]; rfl) rfl
    | int16 =>
      exact (Takes.take takeI16_takes).andReturn fun _ n ⟨_, hitems, hitem⟩ =>
        .of_scalar (.int16 n) (by rw [hitems, hitem]; rfl) trivial rfl rfl
    | int32 =>
      exact (Takes.take takeI32_takes).andReturn fun _ n ⟨_, hitems, hitem⟩ =>
        .of_scalar (.int32 n) (by rw [hitems, hitem]; rfl) trivial rfl rfl
    | int64 =>
      exact (Takes.take takeI64_takes).andReturn fun _ n ⟨_, hitems, hitem⟩ =>
        .of_scalar (.int64 n) (by rw [hitems, hitem]; rfl) trivial rfl rfl
    | uint16 =>
      exact (Takes.take takeU16_takes).andReturn fun _ n ⟨_, hitems, hitem⟩ =>
        .of_scalar (.uint16 n) (by rw [hitems, hitem]; rfl) trivial rfl rfl
    | uint32 =>
      exact (Takes.take takeU32_takes).andReturn fun _ n ⟨_, hitems, hitem⟩ =>
        .of_scalar (.uint32 n) (by rw [hitems, hitem]; rfl) trivial rfl rfl
    | uint64 =>
      exact (Takes.take takeU64_takes).andReturn fun _ n ⟨_, hitems, hitem⟩ =>
        .of_scalar (.uint64 n) (by rw [hitems, hitem]; rfl) trivial rfl rfl
    | string | value | delay =>
      exact takeSymbol_takes.andReturn fun _ s ⟨id, hitems, hs⟩ =>
        .of_scalar (.symbol id) hitems trivial (Option.map_eq_some_iff.2 ⟨s, hs, rfl⟩) rfl
  | object _ card | union _ card =>
    cases card with
    | one =>
      refine takeTarget_takes.andReturn fun _ target ⟨p, hitems, hp, hlive⟩ =>
        ⟨.one p, hitems, trivial, congrArg (some ∘ Value.ref) hp, fun r hr => ?_⟩
      cases target with
      | none => cases hr
      | some s =>
        obtain rfl := List.mem_singleton.1 hr
        exact hlive r rfl
    | many =>
      refine (Takes.take takeBool_takes).bind fun _ made ⟨_, hitems, mark, hitem, hmark⟩ => ?_
      cases made with
      | false =>
        obtain rfl : mark = 0 := by simpa using hmark
        exact .pure (.of_scalar .unmade (by rw [hitems, hitem]; rfl) trivial rfl rfl)
      | true =>
        refine takeTargets_takes.andReturn fun _ l ⟨ps, hlength, hitems', hps, hlive⟩ =>
          ⟨.many mark ps, ?_, ⟨by simpa using hmark, hlength⟩, ?_, fun r hr => hlive r ?_⟩
        · rw [hitems, hitem, hitems']
          rfl
        · rw [← hps]
          rfl
        · rwa [Value.references_refs] at hr

end Restoring

end ObjectModel
