import ObjectModel.Proofs.Graph.Growth

/-!
# What slots hold

A typing tells for each slot which tags the references in it may have
(`Typing`). A graph goes by it if the values of each object fit its slots, and
refer to objects of such tags (`Graph.Obeys`). Then it is well typed, and its
references name objects. This remains so when objects are made, and when they
are changed, as long as what they come to hold is of the typing too.

What layouts declare is one typing (`Typing.declared`).
-/

namespace ObjectModel

/-- For each slot of the objects of a tag, the tags that references may have. -/
abbrev Typing := Nat → Slot → Set Nat

/-- The tags that slots take by their layouts. -/
def Typing.declared : Typing := fun _ slot => {t | slot.targets.contains t = true}

/-- The value fits the slot, and refers to objects of `g` with such tags. -/
def Slot.Holds (g : Graph) (tags : Set Nat) (slot : Slot) (v : Value) : Prop :=
  v.fits slot.member = true ∧ ∀ s ∈ v.references, g.contains s = true ∧ s.tag ∈ tags

theorem Slot.Holds.mono {g h : Graph} {tags : Set Nat} {slot : Slot} {v : Value}
    (hv : slot.Holds g tags v) (hcontains : ∀ s, g.contains s = true → h.contains s = true) :
    slot.Holds h tags v :=
  ⟨hv.1, fun s hs => ⟨hcontains s (hv.2 s hs).1, (hv.2 s hs).2⟩⟩

/-- The default value of a member fits it. -/
theorem Value.fits_default (m : Member) : (default m).fits m = true := by
  obtain ⟨name, content, relation, tags⟩ := m
  rcases content with kind | ⟨_, card⟩ | ⟨_, card⟩
  · cases kind <;> rfl
  · cases card <;> rfl
  · cases card <;> rfl

theorem Value.references_default (m : Member) : (default m).references = [] := by
  obtain ⟨name, content, relation, tags⟩ := m
  rcases content with kind | ⟨_, card⟩ | ⟨_, card⟩
  · cases kind <;> rfl
  · cases card <;> rfl
  · cases card <;> rfl

/-- What new objects hold goes by every typing. -/
theorem Slot.holds_default (g : Graph) (tags : Set Nat) (slot : Slot) :
    slot.Holds g tags (.default slot.member) := by
  refine ⟨Value.fits_default slot.member, fun s hs => ?_⟩
  rw [Value.references_default] at hs
  cases hs

namespace Graph

/-- The graph goes by the layouts of its schema, and there is a place for the
    objects of each entity. What they hold is of the typing. -/
structure Obeys (T : Typing) (g : Graph) : Prop where
  built : g.model.Built
  stores : g.stores.length = g.model.layouts.length
  held : ∀ r o, g.object? r = some o → ∃ l, g.layout r = .ok l ∧
    List.Forall₂ (fun slot v => slot.Holds g (T r.tag slot) v) l o.values

variable {T : Typing} {g : Graph} {r : Ref} {o : Object} {l : Layout}

theorem Obeys.values (hg : g.Obeys T) (ho : g.object? r = some o) (hl : g.layout r = .ok l) :
    List.Forall₂ (fun slot v => slot.Holds g (T r.tag slot) v) l o.values := by
  obtain ⟨l', hl', hvalues⟩ := hg.held r o ho
  obtain rfl := Except.ok.inj (hl.symm.trans hl')
  exact hvalues

/-- A typing tells of the kinds of values at least. -/
theorem Obeys.wellTyped (hg : g.Obeys T) : g.WellTyped where
  built := hg.built
  typed r o ho := by
    obtain ⟨l, hl, hvalues⟩ := hg.held r o ho
    exact hg.built.forall₂_members hl (hvalues.imp fun _ _ => And.left)

theorem Obeys.live (hg : g.Obeys T) : g.Live := by
  intro r o ho v hv s hs
  obtain ⟨l, -, hvalues⟩ := hg.held r o ho
  obtain ⟨i, hi, rfl⟩ := List.mem_iff_getElem.1 hv
  exact ((hvalues.get (hvalues.length_eq ▸ hi) hi).2 s hs).1

/-- A graph goes by every typing that takes as much in each slot. -/
theorem Obeys.weaken {T' : Typing} (hg : g.Obeys T)
    (hsub : ∀ k l, g.model.layout k = .ok l → ∀ slot ∈ l, T k slot ⊆ T' k slot) : g.Obeys T' where
  built := hg.built
  stores := hg.stores
  held r o ho := by
    obtain ⟨l, hl, hvalues⟩ := hg.held r o ho
    refine ⟨l, hl, List.forall₂_iff_zip.2 ⟨hvalues.length_eq, fun {slot v} hmem => ?_⟩⟩
    obtain ⟨hfits, hrefs⟩ := List.forall₂_zip hvalues hmem
    exact ⟨hfits, fun s hs => ⟨(hrefs s hs).1,
      hsub r.tag l hl slot (List.of_mem_zip hmem).1 (hrefs s hs).2⟩⟩

/-- An object comes to hold other values of the typing. -/
theorem Obeys.modify (hg : g.Obeys T) {f : Object → Object}
    (hf : ∀ o l, g.object? r = some o → g.layout r = .ok l →
      List.Forall₂ (fun slot v => slot.Holds g (T r.tag slot) v) l o.values →
      List.Forall₂ (fun slot v => slot.Holds g (T r.tag slot) v) l (f o).values) :
    (g.modify r f).Obeys T where
  built := hg.built
  stores := by
    rw [Graph.modify, List.length_modify]
    exact hg.stores
  held s o ho := by
    have hcontains (t : Ref) (ht : g.contains t = true) : (g.modify r f).contains t = true :=
      (contains_modify f).trans ht
    rw [object?_modify] at ho
    split at ho
    · rename_i hs
      subst hs
      obtain ⟨p, hp, rfl⟩ := Option.map_eq_some_iff.1 ho
      obtain ⟨l, hl, hvalues⟩ := hg.held s p hp
      exact ⟨l, hl, (hf p l hp hl hvalues).imp fun _ _ hv => hv.mono hcontains⟩
    · obtain ⟨l, hl, hvalues⟩ := hg.held s o ho
      exact ⟨l, hl, hvalues.imp fun _ _ hv => hv.mono hcontains⟩

/-- There is a place for new objects. -/
theorem Obeys.tag_lt (hg : g.Obeys T) {tag : Nat} (hl : g.model.layout tag = .ok l) :
    tag < g.stores.length :=
  hg.stores ▸ Model.lt_of_layout_eq_ok hl

/-- A new object holds default values, which go by every typing. -/
theorem Obeys.add (hg : g.Obeys T) {tag : Nat} {header : Header}
    (hl : g.model.layout tag = .ok l) : (g.add tag ⟨header, l.defaults⟩).Obeys T where
  built := hg.built
  stores := by
    rw [Graph.add, List.length_modify]
    exact hg.stores
  held r o ho := by
    have htag := hg.tag_lt hl
    have hcontains (t : Ref) (ht : g.contains t = true) :
        (g.add tag ⟨header, l.defaults⟩).contains t = true := (contains_add htag).2 (.inr ht)
    rw [object?_add htag] at ho
    split at ho
    · rename_i hr
      obtain rfl := Option.some.inj ho
      subst hr
      exact ⟨l, hl, List.forall₂_map_right_iff.2 (List.forall₂_same.2 fun slot _ =>
        slot.holds_default _ _)⟩
    · obtain ⟨l', hl', hvalues⟩ := hg.held r o ho
      exact ⟨l', hl', hvalues.imp fun _ _ hv => hv.mono hcontains⟩

end Graph

end ObjectModel
