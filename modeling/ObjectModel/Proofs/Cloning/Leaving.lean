import ObjectModel.Proofs.Cloning.Closing
import ObjectModel.Proofs.Graph.Design

/-!
# Scopes when cloning has come to an end

What cloning has done to an elaboration is told by the names that were bound on the way
(`Cloner.recordings`). If it succeeds, the scopes are as before, and the innermost one
has come to bind what was bound outside all scopes that were entered on the way
(`Cloner.cloneObject_gains`).

If it fails, the scopes of the objects in whose midst it stopped are still entered
(`Cloner.cloneObject_stops`). So what comes next is bound in the scope of a clone that
was never finished, unless none of these objects is a scope.
-/

namespace ObjectModel

namespace Elaboration

variable {e e' : Elaboration}

theorem depth_eq_length : e.depth = e.entered.length := by
  rw [depth, entered, List.length_map]

theorem currentScope_eq_head? : e.currentScope = e.entered.head? := by
  rw [currentScope, entered, List.head?_map]

/-- As many scopes are entered only if these are the same. -/
theorem same_scopes_iff {l : List Ref} (h : e'.entered = l ++ e.entered) :
    e'.depth = e.depth ∧ e'.currentScope = e.currentScope ↔ l = [] := by
  rw [depth_eq_length, depth_eq_length, currentScope_eq_head?, currentScope_eq_head?, h,
    List.length_append]
  constructor
  · intro hsame
    exact List.eq_nil_of_length_eq_zero (by omega)
  · rintro rfl
    exact ⟨Nat.zero_add _, rfl⟩

end Elaboration

namespace Cloner

variable {σ τ : Type} {c c' : Cloner σ} {r x : Ref} {path : List Ref}

/-- The bindings do not matter to where cloning stops. -/
theorem Stops.mapBindings (f : σ → τ) (h : c.Stops r path x c') :
    (c.mapBindings f).Stops r path x (c'.mapBindings f) :=
  ⟨h.starts, h.chain, h.nodup, h.begun⟩

theorem openScopes_eq_nil_iff :
    c.openScopes path = [] ↔ ∀ s ∈ path, c.graph.model.opensScope s.tag = false := by
  rw [openScopes, List.map_eq_nil_iff, List.reverse_eq_nil_iff, List.filter_eq_nil_iff]
  exact forall₂_congr fun _ _ => Bool.eq_false_iff.symm

/-- When an object has been cloned, the scopes are the same as before, and of the names
    that were bound on the way, the innermost one binds those that were bound there. All
    others were bound further in, and are not found any more.

    What was bound are names of objects that were cloned on the way, each to what has
    become of the object. -/
theorem cloneObject_gains (c : Cloner Elaboration) (r : Ref) (parent : Option Ref) {copy : Ref}
    (h : (c.cloneObject r parent).1 = .ok copy) :
    c.bindings.Gains ((c.recordings r parent).filter (·.scopes = c.bindings.entered))
      (c.cloneObject r parent).2.bindings ∧
    ∀ x ∈ c.recordings r parent, c.bindings.entered <:+ x.scopes ∧
      ∃ source, c.cloned? source = none ∧
        (c.cloneObject r parent).2.cloned? source = some x.object ∧
        (c.cloneObject r parent).2.graph.name? source = some x.name ∧ x.name ≠ "" := by
  rw [cloneObject_eq_noted] at h ⊢
  obtain ⟨-, l, hl⟩ := (Cloning.closes_cloneUpTo c.graph.cloneDepth c.noting r parent).of_ok h
  have hrecordings : c.recordings r parent = l := hl.bindings.recordings
  rw [hrecordings]
  refine ⟨?_, fun x hx => ⟨hl.bindings.within x hx, hl.named x hx⟩⟩
  -- Only what was bound in the first scopes tells the bindings before and after apart.
  have helaboration : (c.noteObject r parent).2.bindings.elaboration =
      c.bindings.replay (l.filter (·.scopes = c.bindings.entered)) := hl.bindings.elaboration
  change c.bindings.Gains _ (c.noteObject r parent).2.bindings.elaboration
  rw [helaboration]
  exact c.bindings.gains_replay _

/-- A wire that is cloned is found by its name, unless it was cloned in a cell, as it was
    bound in the scope of the cell's clone. -/
theorem cloneObject_gains_wire :
    let policy := PolicyTable.empty.addAll [.entityClone "wire" (.dedupByName .net),
      .collector "cell" "wire" "wires"]
    let c : Cloner Elaboration :=
      ⟨Design.graph policy [{ name := "a" }] [{ wires := [0] }], {}, []⟩
    c.recordings (Design.wire 0) none = [⟨.net, "a", Design.wire 1, []⟩] ∧
      (c.cloneObject (Design.wire 0) none).2.bindings.lookup Frame.nets "a" =
        some (Design.wire 1) ∧
      c.recordings (Design.cell 0) none = [⟨.net, "a", Design.wire 1, [Design.cell 1]⟩] ∧
      (c.cloneObject (Design.cell 0) none).2.bindings.lookup Frame.nets "a" = none := by
  intro policy c
  have hwire : (c.cloneObject (Design.wire 0) none).1 = .ok (Design.wire 1) := by decide +kernel
  have hcell : (c.cloneObject (Design.cell 0) none).1 = .ok (Design.cell 1) := by decide +kernel
  have houtside : c.recordings (Design.wire 0) none = [⟨.net, "a", Design.wire 1, []⟩] := by
    decide +kernel
  have hinside : c.recordings (Design.cell 0) none =
    [⟨.net, "a", Design.wire 1, [Design.cell 1]⟩] := by decide +kernel
  -- Only what is recorded outside all scopes that were entered is found afterwards.
  have hgains := (cloneObject_gains c (Design.wire 0) none hwire).1.found .net "a"
  have hgains' := (cloneObject_gains c (Design.cell 0) none hcell).1.found .net "a"
  rw [houtside] at hgains
  rw [hinside] at hgains'
  exact ⟨houtside, hgains, hinside, hgains'⟩

/-- If an object cannot be cloned, this has stopped in the midst of others, each a part of
    the one before: at an object for which none was made, or where the path is as long as
    it may be. The scopes on the path are still entered, and the scopes are the same as
    before only if there are none. -/
theorem cloneObject_stops (c : Cloner Elaboration) (r : Ref) (parent : Option Ref)
    {e : GraphError} (h : (c.cloneObject r parent).1 = .error e) :
    ∃ path x, c.Stops r path x (c.cloneObject r parent).2 ∧
      (path.length = c.graph.cloneDepth ∨ (c.cloneObject r parent).2.Lacks x) ∧
      (c.cloneObject r parent).2.bindings.entered =
        (c.cloneObject r parent).2.openScopes path ++ c.bindings.entered ∧
      ((c.cloneObject r parent).2.bindings.depth = c.bindings.depth ∧
          (c.cloneObject r parent).2.bindings.currentScope = c.bindings.currentScope ↔
        ∀ s ∈ path, c.graph.model.opensScope s.tag = false) := by
  rw [cloneObject_eq_noted] at h ⊢
  obtain ⟨hgrows, path, x, hstops, hstuck, hentered⟩ :=
    (Cloning.closes_cloneUpTo c.graph.cloneDepth c.noting r parent).of_error h
  refine ⟨path, x, hstops.mapBindings Noted.elaboration, hstuck, hentered, ?_⟩
  refine (Elaboration.same_scopes_iff hentered).trans ?_
  rw [openScopes_eq_nil_iff, hgrows.extension.model]
  rfl

/-- A cell that is a scope has a child that there is not. It is still entered when its
    cloning has failed. -/
theorem cloneObject_stops_cell :
    let policy := PolicyTable.empty.addAll [.collector "cell" "cell" "cells"]
    let c : Cloner Elaboration := ⟨(Design.graph policy [] [{}]).modify (Design.cell 0)
      fun o => { o with header.children := [Design.cell 7] }, {}, []⟩
    (c.cloneObject (Design.cell 0) none).1 = .error (.danglingReference (Design.cell 7)) ∧
      ∃ path x, c.Stops (Design.cell 0) path x (c.cloneObject (Design.cell 0) none).2 ∧
        (c.cloneObject (Design.cell 0) none).2.openScopes path = [Design.cell 1] := by
  intro policy c
  have herror : (c.cloneObject (Design.cell 0) none).1 =
    .error (.danglingReference (Design.cell 7)) := by decide +kernel
  have hentered : (c.cloneObject (Design.cell 0) none).2.bindings.entered = [Design.cell 1] := by
    decide +kernel
  obtain ⟨path, x, hstops, -, hopen, -⟩ := cloneObject_stops c (Design.cell 0) none herror
  rw [hentered] at hopen
  exact ⟨herror, path, x, hstops, (hopen.trans (List.append_nil _)).symm⟩

/-- So it is not true that scopes are left whenever cloning fails. -/
theorem cloneObject_not_left :
    ¬ ∀ (c : Cloner Elaboration) (r : Ref) (parent : Option Ref) (e : GraphError),
      (c.cloneObject r parent).1 = .error e →
        (c.cloneObject r parent).2.bindings.depth = c.bindings.depth ∧
          (c.cloneObject r parent).2.bindings.currentScope = c.bindings.currentScope := by
  intro hleft
  let policy := PolicyTable.empty.addAll [.collector "cell" "cell" "cells"]
  let c : Cloner Elaboration := ⟨(Design.graph policy [] [{}]).modify (Design.cell 0)
    fun o => { o with header.children := [Design.cell 7] }, {}, []⟩
  have herror : (c.cloneObject (Design.cell 0) none).1 =
    .error (.danglingReference (Design.cell 7)) := by decide +kernel
  have hdepth : (c.cloneObject (Design.cell 0) none).2.bindings.depth ≠ c.bindings.depth := by
    decide +kernel
  exact hdepth (hleft c (Design.cell 0) none _ herror).1

end Cloner

end ObjectModel
