import Mathlib.Data.List.Nodup
import Mathlib.Data.Set.Basic
import ObjectModel.Graph.Basic
import ObjectModel.Proofs.Outcome

/-!
# The objects of a graph

How the operations on a graph show in `Graph.object?`, and in the list of all
objects (`Graph.refs`), which has each object once.

* `Graph.object?_modify`: a change to an object leaves all others alone;
* `Graph.count_append`: a new object is counted with those of its tag;
* `Graph.parent?`, `Graph.childrenOf`: the owner and the children of an object;
* `Graph.Spares`: some objects have changed, and no others.
-/

namespace ObjectModel

namespace Graph

variable {g h : Graph} {r s : Ref} {o : Object}

theorem contains_iff : g.contains r ↔ ∃ o, g.object? r = some o :=
  Option.isSome_iff_exists

theorem contains_of_object? (ho : g.object? r = some o) : g.contains r :=
  contains_iff.2 ⟨o, ho⟩

theorem object_eq_ok : g.object r = .ok o ↔ g.object? r = some o := by
  rw [object]
  cases g.object? r <;> simp

theorem header_eq (ho : g.object? r = some o) : g.header r = .ok o.header := by
  rw [header, object_eq_ok.2 ho]
  rfl

theorem contains_eq_false : g.contains r = false ↔ g.object? r = none := by
  rw [contains, Option.isSome_eq_false_iff, Option.isNone_iff_eq_none]

theorem object_eq_error (ho : g.object? r = none) :
    g.object r = .error (.danglingReference r) := by
  rw [object, ho]
  rfl

theorem header_eq_error (hr : g.contains r = false) :
    g.header r = .error (.danglingReference r) := by
  rw [header, object_eq_error (contains_eq_false.1 hr)]
  rfl

theorem updateHeader_eq_error {f : Header → Header} (hr : g.contains r = false) :
    g.updateHeader r f = .error (.danglingReference r) := by
  rw [updateHeader, object_eq_error (contains_eq_false.1 hr)]
  rfl

/-- Objects are counted within their tag, from zero on. -/
theorem contains_eq_decide : g.contains r = decide (r.index < g.count r.tag) := by
  rw [contains, object?, count]
  cases g.stores[r.tag]? with
  | none => simp
  | some store => by_cases h : r.index < store.length <;> simp [h]

theorem contains_iff_index_lt : g.contains r ↔ r.index < g.count r.tag := by
  rw [contains_eq_decide, decide_eq_true_iff]

/-! ## All objects -/

/-- All objects of a graph are listed. -/
theorem mem_refs : r ∈ g.refs ↔ g.contains r := by
  rw [contains_iff_index_lt, refs, count, List.mem_flatMap]
  constructor
  · rintro ⟨⟨store, tag⟩, hs, hr⟩
    obtain ⟨i, hi, rfl⟩ := List.mem_map.1 hr
    rw [List.mem_zipIdx_iff_getElem?] at hs
    simpa [hs] using hi
  · intro hr
    cases hs : g.stores[r.tag]? with
    | none => simp [hs] at hr
    | some store =>
      refine ⟨(store, r.tag), List.mem_zipIdx_iff_getElem?.2 hs, ?_⟩
      exact List.mem_map.2 ⟨r.index, by simpa [hs] using hr, rfl⟩

theorem length_refs : g.refs.length = g.size := by
  rw [refs, size, List.length_flatMap, List.length_flatten]
  congr 1
  simp only [List.length_map, List.length_range]
  conv_rhs => rw [← List.zipIdx_map_fst 0 g.stores, List.map_map]
  rfl

theorem mem_objects : o ∈ g.stores.flatten ↔ ∃ r, g.object? r = some o := by
  rw [List.mem_flatten]
  constructor
  · rintro ⟨store, hstore, ho⟩
    obtain ⟨tag, htag⟩ := List.mem_iff_getElem?.1 hstore
    obtain ⟨index, hindex⟩ := List.mem_iff_getElem?.1 ho
    exact ⟨⟨tag, index⟩, Option.bind_eq_some_iff.2 ⟨store, htag, hindex⟩⟩
  · rintro ⟨r, hr⟩
    obtain ⟨store, hstore, ho⟩ := Option.bind_eq_some_iff.1 hr
    exact ⟨store, List.mem_of_getElem? hstore, List.mem_of_getElem? ho⟩

/-- What a change keeps of an element, it keeps of the list. -/
theorem map_modify_of_eq {α β : Type} {p : α → β} {f : α → α} (hf : ∀ a, p (f a) = p a)
    (l : List α) (i : Nat) : (l.modify i f).map p = l.map p := by
  refine List.ext_getElem? fun j => ?_
  rw [List.getElem?_map, List.getElem?_map, List.getElem?_modify]
  cases l[j]? with
  | none => rfl
  | some a => by_cases hij : i = j <;> simp [hij, hf]

/-- What a change keeps of an object, it keeps of all of them. -/
theorem map_objects_modify {α : Type} {p : Object → α} {f : Object → Object}
    (hf : ∀ o, p (f o) = p o) :
    (g.modify r f).stores.flatten.map p = g.stores.flatten.map p := by
  rw [List.map_flatten, List.map_flatten, modify,
    map_modify_of_eq fun store => map_modify_of_eq hf store r.index]

@[simp]
theorem size_modify {f : Object → Object} : (g.modify r f).size = g.size := by
  have h : ((g.modify r f).stores.flatten.map fun _ => ()) = g.stores.flatten.map fun _ => () :=
    map_objects_modify fun _ => rfl
  simpa only [size, List.length_map] using congrArg List.length h

/-- There is one object more of the tag. -/
theorem count_append {tag t : Nat} {lastId : UInt32} (htag : tag < g.stores.length) :
    Graph.count { g with stores := g.stores.modify tag (· ++ [o]), lastId } t =
      g.count t + if t = tag then 1 else 0 := by
  rw [count, count, List.getElem?_modify]
  by_cases h : tag = t
  · subst h
    simp [htag]
  · simp [h, Ne.symm h]

/-! ## Changes -/

/-- A change to an object shows in this object alone. -/
theorem object?_modify (f : Object → Object) :
    (g.modify r f).object? s = if s = r then (g.object? s).map f else g.object? s := by
  have hrs : s = r ↔ s.tag = r.tag ∧ s.index = r.index := by
    cases r; cases s; simp
  simp only [object?, modify, List.getElem?_modify, hrs]
  cases g.stores[s.tag]? with
  | none => simp
  | some store =>
    by_cases ht : r.tag = s.tag
    · by_cases hi : r.index = s.index <;> simp [ht, hi, eq_comm]
    · simp [ht, Ne.symm ht]

theorem object?_modify_self (f : Object → Object) :
    (g.modify r f).object? r = (g.object? r).map f := by
  rw [object?_modify, if_pos rfl]

theorem object?_modify_of_ne (f : Object → Object) (h : s ≠ r) :
    (g.modify r f).object? s = g.object? s := by
  rw [object?_modify, if_neg h]

@[simp]
theorem contains_modify (f : Object → Object) : (g.modify r f).contains s = g.contains s := by
  rw [contains, contains, object?_modify]
  split <;> simp

/-! ## Owners and children -/

/-- The owner of an object. -/
def parent? (g : Graph) (r : Ref) : Option Ref := (g.object? r).bind (·.header.parent)

/-- The children of an object. -/
def childrenOf (g : Graph) (r : Ref) : List Ref :=
  ((g.object? r).map (·.header.children)).getD []

theorem parent?_eq (ho : g.object? r = some o) : g.parent? r = o.header.parent := by
  rw [parent?, ho, Option.bind_some]

theorem childrenOf_eq (ho : g.object? r = some o) : g.childrenOf r = o.header.children := by
  rw [childrenOf, ho, Option.map_some, Option.getD_some]

theorem contains_of_parent? (h : g.parent? r = some s) : g.contains r = true :=
  let ⟨_, ho, _⟩ := Option.bind_eq_some_iff.1 h
  contains_of_object? ho

theorem contains_of_mem_childrenOf (h : s ∈ g.childrenOf r) : g.contains r = true := by
  rw [childrenOf] at h
  cases ho : g.object? r with
  | some o => exact contains_of_object? ho
  | none => simp [ho] at h

/-- A change to owners shows in the object that is changed. -/
theorem parent?_modify {f : Object → Object} {k : Option Ref → Option Ref}
    (hr : g.contains r = true) (hf : ∀ o, (f o).header.parent = k o.header.parent) :
    (g.modify r f).parent? s = if s = r then k (g.parent? r) else g.parent? s := by
  obtain ⟨o, ho⟩ := contains_iff.1 hr
  rw [parent?, object?_modify]
  split
  · rename_i hs
    subst hs
    rw [parent?_eq ho, ho, Option.map_some, Option.bind_some, hf]
  · rfl

/-- A change to children shows in the object that is changed. -/
theorem childrenOf_modify {f : Object → Object} {k : List Ref → List Ref}
    (hr : g.contains r = true) (hf : ∀ o, (f o).header.children = k o.header.children) :
    (g.modify r f).childrenOf s = if s = r then k (g.childrenOf r) else g.childrenOf s := by
  obtain ⟨o, ho⟩ := contains_iff.1 hr
  rw [childrenOf, object?_modify]
  split
  · rename_i hs
    subst hs
    rw [childrenOf_eq ho, ho, Option.map_some, Option.map_some, Option.getD_some, hf]
  · rfl

theorem parent?_modify_of_eq {f : Object → Object}
    (hf : ∀ o, (f o).header.parent = o.header.parent) : (g.modify r f).parent? s = g.parent? s := by
  rw [parent?, parent?, object?_modify]
  split
  · cases g.object? s with
    | none => rfl
    | some o => exact hf o
  · rfl

theorem childrenOf_modify_of_eq {f : Object → Object}
    (hf : ∀ o, (f o).header.children = o.header.children) :
    (g.modify r f).childrenOf s = g.childrenOf s := by
  rw [childrenOf, childrenOf, object?_modify]
  split
  · cases g.object? s with
    | none => rfl
    | some o => exact hf o
  · rfl

/-! ## What does not take part -/

variable {k : Graph} {D E : Set Ref}

/-- From `g` to `h`, there are the same objects, and those outside of `D` stay as
    they are. -/
structure Spares (g : Graph) (D : Set Ref) (h : Graph) : Prop where
  model : h.model = g.model
  contains : ∀ r, h.contains r = g.contains r
  others : ∀ r ∉ D, h.object? r = g.object? r

theorem Spares.refl (g : Graph) (D : Set Ref) : g.Spares D g :=
  ⟨rfl, fun _ => rfl, fun _ _ => rfl⟩

theorem Spares.symm (hgh : g.Spares D h) : h.Spares D g :=
  ⟨hgh.model.symm, fun r => (hgh.contains r).symm, fun r hr => (hgh.others r hr).symm⟩

theorem Spares.trans (hgh : g.Spares D h) (hhk : h.Spares D k) : g.Spares D k where
  model := hhk.model.trans hgh.model
  contains r := (hhk.contains r).trans (hgh.contains r)
  others r hr := (hhk.others r hr).trans (hgh.others r hr)

theorem Spares.mono (hgh : g.Spares D h) (hD : D ⊆ E) : g.Spares E h :=
  ⟨hgh.model, hgh.contains, fun r hr => hgh.others r fun h => hr (hD h)⟩

theorem spares_modify {f : Object → Object} (hr : r ∈ D) : g.Spares D (g.modify r f) :=
  ⟨rfl, fun _ => contains_modify _, fun _ hs => object?_modify_of_ne _ fun hsr => hs (hsr ▸ hr)⟩

end Graph

end ObjectModel
