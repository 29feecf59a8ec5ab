import ObjectModel.Proofs.Graph.Reach

/-!
# Objects under other references

A map of references is applied to values, headers and objects: it takes the
references in them and leaves all else alone. So the values fit the members that
they did (`Value.fits_map`), and the neighbours of the object are mapped
(`Object.neighbours_map`).
-/

namespace ObjectModel

/-- The value with `f` applied to all references. -/
def Value.map (f : Ref → Ref) : Value → Value
  | .ref target => .ref (target.map f)
  | .refs items => .refs (items.map (·.map f))
  | v => v

/-- The header with `f` applied to all references. -/
def Header.map (f : Ref → Ref) (h : Header) : Header :=
  { h with parent := h.parent.map f, children := h.children.map f }

/-- The object with `f` applied to all references. -/
def Object.map (f : Ref → Ref) (o : Object) : Object :=
  ⟨o.header.map f, o.values.map (·.map f)⟩

section

variable {f : Ref → Ref} {v : Value} {o : Object}

@[simp]
theorem Value.references_map : (v.map f).references = v.references.map f := by
  cases v with
  | ref target => cases target <;> rfl
  | refs items => cases items <;> rfl
  | _ => rfl

/-- Whether a value fits is not a matter of what it refers to. -/
@[simp]
theorem Value.fits_map {m : Member} : (v.map f).fits m = v.fits m := by
  obtain ⟨name, content, relation, tags⟩ := m
  rcases content with kind | ⟨_, card⟩ | ⟨_, card⟩
  · cases kind <;> cases v <;> rfl
  · cases card <;> cases v <;> rfl
  · cases card <;> cases v <;> rfl

theorem Object.neighbours_map : (o.map f).neighbours = o.neighbours.map f := by
  simp only [neighbours, Object.map, Header.map, List.map_append, List.map_flatMap,
    List.flatMap_map, Value.references_map]
  cases o.header.parent <;> rfl

theorem Object.parts_map : (o.map f).parts = o.parts.map f := by
  simp only [parts, Object.map, Header.map, List.map_append, List.map_flatMap, List.flatMap_map,
    Value.references_map]

/-- What becomes of a value depends on its references only. -/
theorem Value.map_congr {f' : Ref → Ref} (h : ∀ r ∈ v.references, f r = f' r) :
    v.map f = v.map f' := by
  cases v with
  | ref target =>
    cases target with
    | none => rfl
    | some r => exact congrArg (fun r => Value.ref (some r)) (h r List.mem_cons_self)
  | refs items =>
    cases items with
    | none => rfl
    | some l => exact congrArg (fun l => Value.refs (some l)) (List.map_congr_left h)
  | _ => rfl

/-- Without references there is nothing to map. -/
theorem Value.map_eq_self (h : v.references = []) : v.map f = v := by
  cases v with
  | ref target =>
    cases target with
    | none => rfl
    | some r => cases h
  | refs items =>
    cases items with
    | none => rfl
    | some l =>
      obtain rfl : l = [] := h
      rfl
  | _ => rfl

end

end ObjectModel
