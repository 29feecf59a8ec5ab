import ObjectModel.Naming.Hardware
import ObjectModel.Proofs.Graph.Soundness
import ObjectModel.Schema.Declarations

/-!
# Designs

A model with two entities that is made from declarations: wires, each of which
may lead to another, and cells, which have wires and cells and may refer to the
cell above them. A design is sound if its wires and cells refer to such as there
are (`Design.sound`). Statements about objects of different entities are tried
out on designs.
-/

namespace ObjectModel.Design

/-- The declarations of wires and cells. -/
def declarations : Declarations where
  name := "design"
  entities := [
    { name := "wire"
      members := [
        .plain "name" (.scalar .string),
        .plain "next" (.object "wire" .one)] },
    { name := "cell"
      members := [
        .plain "name" (.scalar .string),
        (Member.plain "up" (.object "cell" .one)).withTag .backReference,
        .plain "wires" (.object "wire" .many),
        .plain "cells" (.object "cell" .many)] }]

/-- The schema of designs. -/
def schema : Schema := declarations.assemble

theorem toSchema_declarations : declarations.toSchema .hardware = .ok schema := by decide +kernel

/-- The layouts of wires and of cells. -/
def wireLayout : Layout := [
  ⟨.plain "name" (.scalar .string), []⟩,
  ⟨.plain "next" (.object "wire" .one), [0]⟩]

def cellLayout : Layout := [
  ⟨.plain "name" (.scalar .string), []⟩,
  ⟨(Member.plain "up" (.object "cell" .one)).withTag .backReference, [1]⟩,
  ⟨.plain "wires" (.object "wire" .many), [0]⟩,
  ⟨.plain "cells" (.object "cell" .many), [1]⟩]

/-- The model of designs. -/
def model (policy : PolicyTable) : Model where
  resolution := ⟨schema, ∅⟩
  policy := policy
  layouts := [some wireLayout, some cellLayout]

theorem built (policy : PolicyTable) : (model policy).Built := rfl

/-- The wire at a position. -/
def wire (i : Nat) : Ref := ⟨0, i⟩

/-- The cell at a position. -/
def cell (i : Nat) : Ref := ⟨1, i⟩

/-- A wire, with the one it leads to by position. -/
structure Wire where
  name : String := ""
  next : Option Nat := none

/-- A cell, with what it refers to by position. -/
structure Cell where
  name : String := ""
  up : Option Nat := none
  wires : List Nat := []
  cells : List Nat := []

/-- The object of a wire. -/
def Wire.object (w : Wire) (id : UInt32) : Object where
  header := { id }
  values := [.text w.name, .ref (w.next.map wire)]

/-- The object of a cell. -/
def Cell.object (c : Cell) (id : UInt32) : Object where
  header := { id }
  values := [.text c.name, .ref (c.up.map cell), .refs (some (c.wires.map wire)),
    .refs (some (c.cells.map cell))]

/-- The design of some wires and cells. -/
def graph (policy : PolicyTable) (wires : List Wire) (cells : List Cell) : Graph where
  model := model policy
  stores := [wires.mapIdx fun i w => w.object (UInt32.ofNat (i + 1)),
    cells.mapIdx fun i c => c.object (UInt32.ofNat (wires.length + i + 1))]
  lastId := UInt32.ofNat (wires.length + cells.length)

variable {policy : PolicyTable} {wires : List Wire} {cells : List Cell} {r : Ref} {o : Object}

/-- The objects of a design are its wires and its cells. -/
theorem object?_eq_some (h : (graph policy wires cells).object? r = some o) :
    r.tag = 0 ∧ (∃ w ∈ wires, ∃ id, w.object id = o) ∨
      r.tag = 1 ∧ ∃ c ∈ cells, ∃ id, c.object id = o := by
  obtain ⟨tag, index⟩ := r
  match tag with
  | 0 =>
    simp only [Graph.object?, graph, List.getElem?_cons_zero, Option.bind_some,
      List.getElem?_mapIdx, Option.map_eq_some_iff] at h
    obtain ⟨w, hw, rfl⟩ := h
    exact .inl ⟨rfl, w, List.mem_of_getElem? hw, _, rfl⟩
  | 1 =>
    simp only [Graph.object?, graph, List.getElem?_cons_succ, List.getElem?_cons_zero,
      Option.bind_some, List.getElem?_mapIdx, Option.map_eq_some_iff] at h
    obtain ⟨c, hc, rfl⟩ := h
    exact .inr ⟨rfl, c, List.mem_of_getElem? hc, _, rfl⟩
  | tag + 2 => simp [Graph.object?, graph] at h

theorem contains_wire {i : Nat} :
    (graph policy wires cells).contains (wire i) = true ↔ i < wires.length := by
  simp [Graph.contains, Graph.object?, graph, wire]

theorem contains_cell {i : Nat} :
    (graph policy wires cells).contains (cell i) = true ↔ i < cells.length := by
  simp [Graph.contains, Graph.object?, graph, cell]

/-- A design is sound if all refer to wires and cells that there are. -/
theorem sound (policy : PolicyTable) {wires : List Wire} {cells : List Cell}
    (hwires : ∀ w ∈ wires, ∀ i ∈ w.next, i < wires.length)
    (hcells : ∀ c ∈ cells, (∀ i ∈ c.up, i < cells.length) ∧ (∀ i ∈ c.wires, i < wires.length) ∧
      ∀ i ∈ c.cells, i < cells.length) : (graph policy wires cells).Sound where
  built := built policy
  stores := rfl
  accepted r o ho := by
    have hscalar {slot : Slot} {s : String} (hslot : slot.member.content = .scalar .string) :
        slot.Accepts (graph policy wires cells) (.text s) :=
      ⟨by simp [Value.fits, hslot], by simp [Value.references]⟩
    -- An object is a wire or a cell, and each has the members of its layout in order.
    rcases object?_eq_some ho with ⟨htag, w, hw, id, rfl⟩ | ⟨htag, c, hc, id, rfl⟩
    · refine ⟨wireLayout, by rw [Graph.layout, htag]; rfl, Layout.accepts_iff.2 ?_⟩
      refine .cons (hscalar rfl) (.cons ⟨rfl, fun s hs => ?_⟩ .nil)
      obtain ⟨i, hi, rfl⟩ : ∃ i ∈ w.next, wire i = s := by
        rcases hnext : w.next <;> simp_all [Value.references]
      exact ⟨contains_wire.2 (hwires w hw i hi), rfl⟩
    · obtain ⟨hup, hinner, hsub⟩ := hcells c hc
      refine ⟨cellLayout, by rw [Graph.layout, htag]; rfl, Layout.accepts_iff.2 ?_⟩
      refine .cons (hscalar rfl) (.cons ⟨rfl, fun s hs => ?_⟩
        (.cons ⟨rfl, fun s hs => ?_⟩ (.cons ⟨rfl, fun s hs => ?_⟩ .nil)))
      · obtain ⟨i, hi, rfl⟩ : ∃ i ∈ c.up, cell i = s := by
          rcases hup' : c.up <;> simp_all [Value.references]
        exact ⟨contains_cell.2 (hup i hi), rfl⟩
      · obtain ⟨i, hi, rfl⟩ := List.mem_map.1 hs
        exact ⟨contains_wire.2 (hinner i hi), rfl⟩
      · obtain ⟨i, hi, rfl⟩ := List.mem_map.1 hs
        exact ⟨contains_cell.2 (hsub i hi), rfl⟩

end ObjectModel.Design
