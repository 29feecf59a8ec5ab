import ObjectModel.Proofs.Adoption.Lists
import ObjectModel.Proofs.Adoption.Runs
import ObjectModel.Proofs.Graph.Admitting
import ObjectModel.Proofs.Graph.Design

/-!
# What runs keep

Adoption is made of changes to single objects, and stops between two of them if it
fails: what each of these changes keeps is kept wherever it stops
(`Graph.Adoptive.attachChild`).

Whatever an operation does, a sound graph stays sound (`Graph.Preserves`). This
holds of operations that fail as well: adoption that stops half-way has only
written headers, and into lists what they accept. So it holds of all runs, under
every policy (`Graph.preserves_run`), and what objects hold is always what their
members admit (`Graph.admitted_run`).
-/

namespace ObjectModel.Graph

variable {g h : Graph} {p c r : Ref} {bucket : String} {buckets : List String}

/-! ## Operations that fail half-way -/

/-- The changes that adoption is made of go along `R`: they write into members, and
    change headers, but for the ids. -/
structure Adoptive (R : Graph → Graph → Prop) : Prop where
  refl : ∀ g, R g g
  trans : ∀ g h k, R g h → R h k → R g k
  updateHeader : ∀ g h r f, (∀ header : Header, (f header).id = header.id) →
    g.updateHeader r f = .ok h → R g h
  set : ∀ g h r member v, g.set r member v = .ok h → R g h
  push : ∀ g h r member item, g.push r member item = .ok h → R g h

namespace Adoptive

variable {R : Graph → Graph → Prop} (hR : Adoptive R)

include hR

theorem read {α : Type} {f : Graph → Except GraphError α} : Follows R (Update.read f) := hR.refl

/-- A change that fails changes nothing. -/
theorem apply {f : Graph → Except GraphError Graph} (hf : ∀ g h, f g = .ok h → R g h) :
    Follows R (Update.apply f) := by
  intro g
  rcases hrun : f g with e | h
  · rw [run_apply_error hrun]
    exact hR.refl g
  · rw [run_apply hrun]
    exact hf g h hrun

theorem changeHeader {f : Header → Header} (hf : ∀ header, (f header).id = header.id) :
    Follows R (Update.apply (·.updateHeader r f)) :=
  hR.apply fun g h => hR.updateHeader g h r f hf

/-- A child is taken out of a list by writing it, if at all. -/
theorem unfile : Follows R (unfile p c bucket) := by
  refine hR.read.bind hR.trans fun v => ?_
  split
  · dsimp only
    split
    · exact hR.apply fun g h => hR.set g h _ _ _
    · exact hR.refl
  · exact hR.refl

theorem file : Follows R (file p c bucket) := by
  refine hR.read.bind hR.trans fun items => ?_
  split
  · exact hR.apply fun g h => hR.push g h _ _ _
  · exact hR.refl

/-- A release writes lists first, and then two headers. -/
theorem detachChild : Follows R (detachChild p c) := by
  refine hR.read.bind hR.trans fun _ => hR.read.bind hR.trans fun buckets =>
    hR.read.bind hR.trans fun _ => Follows.bind hR.trans (hR.changeHeader fun _ => rfl) fun _ => ?_
  refine Follows.bind hR.trans (.forM hR.refl hR.trans fun _ _ => hR.unfile) fun _ => ?_
  refine Follows.bind hR.trans (hR.changeHeader fun header => ?_) fun _ => hR.refl
  split <;> rfl

/-- Wherever adoption stops, it has gone along `R`. -/
theorem attachChild : Follows R (attachChild p c) := by
  -- The last steps are the same whether or not the child is released first.
  have hsettle (buckets : List String) : Follows R (do
      Update.apply (·.updateHeader c fun h => { h with parent := some p })
      Update.apply (·.updateHeader p fun h =>
        if c ∈ h.children then h else { h with children := h.children ++ [c] })
      buckets.forM (Graph.file p c) : Update Unit) := by
    refine Follows.bind hR.trans (hR.changeHeader fun _ => rfl) fun _ =>
      Follows.bind hR.trans (hR.changeHeader fun header => ?_) fun _ =>
        .forM hR.refl hR.trans fun _ _ => hR.file
    split <;> rfl
  refine hR.read.bind hR.trans fun header => hR.read.bind hR.trans fun buckets => ?_
  dsimp only
  split
  · split
    · exact hR.detachChild.bind hR.trans fun _ => hsettle buckets
    · exact hsettle buckets
  · exact hsettle buckets

/-- So does every operation, if objects are made along `R`. -/
theorem perform (hcreate : ∀ g h r tag, g.createTag tag = .ok (r, h) → R g h) (g : Graph)
    (op : Operation) : R g (g.perform op) := by
  -- An operation that fails leaves the graph as it is, so only success is to be kept.
  cases op with
  | create entity =>
    rw [Graph.perform]
    rcases hmake : g.create entity with e | made
    · exact hR.refl g
    · rw [create] at hmake
      split at hmake
      · exact hcreate g made.2 made.1 _ hmake
      · cases hmake
  | createTag tag =>
    rw [Graph.perform]
    rcases hmake : g.createTag tag with e | made
    · exact hR.refl g
    · exact hcreate g made.2 made.1 tag hmake
  | attach parent child => exact hR.attachChild g
  | detach parent child => exact hR.detachChild g
  | set r member v =>
    rw [Graph.perform]
    rcases hset : g.set r member v with e | h
    · exact hR.refl g
    · exact hR.set g h r member v hset
  | push r member item =>
    rw [Graph.perform]
    rcases hpush : g.push r member item with e | h
    · exact hR.refl g
    · exact hR.push g h r member item hpush

end Adoptive

/-! ## Sound graphs -/

/-- What is sound remains so, over the same model. -/
def Preserves (g h : Graph) : Prop := g.Sound → h.Sound ∧ h.model = g.model

theorem Preserves.refl (g : Graph) : g.Preserves g := fun hg => ⟨hg, rfl⟩

theorem Preserves.trans (g h k : Graph) (hgh : g.Preserves h) (hhk : h.Preserves k) :
    g.Preserves k := fun hg =>
  let ⟨hh, hmodel⟩ := hgh hg
  let ⟨hk, hmodel'⟩ := hhk hh
  ⟨hk, hmodel'.trans hmodel⟩

/-- Headers have nothing to do with what slots accept. -/
theorem preserves_updateHeader {f : Header → Header} (hupdate : g.updateHeader r f = .ok h) :
    g.Preserves h := by
  intro hg
  obtain ⟨o, -, hh⟩ := bind_eq_ok.1 hupdate
  obtain rfl := pure_eq_ok.1 hh
  exact ⟨hg.modify fun _ _ _ _ hl => hl, rfl⟩

/-- What is written has been accepted. -/
theorem preserves_set {member : String} {v : Value} (hset : g.set r member v = .ok h) :
    g.Preserves h := fun hg =>
  have hwrites := writes_of_set hset
  ⟨hg.writes hwrites, hwrites.model⟩

/-- An element that is added is accepted by the list. -/
theorem preserves_push {member : String} {item : Ref} (hpush : g.push r member item = .ok h) :
    g.Preserves h := fun hg =>
  have hwrites := hg.writes_of_push hpush
  ⟨hg.writes hwrites, hwrites.model⟩

/-- Being sound is kept by all changes that adoption is made of. -/
theorem adoptive_preserves : Adoptive Preserves where
  refl := .refl
  trans := .trans
  updateHeader _ _ _ _ _ := preserves_updateHeader
  set _ _ _ _ _ := preserves_set
  push _ _ _ _ _ := preserves_push

/-- An object is made with values that all slots accept. -/
theorem preserves_createTag {tag : Nat} (hcreate : g.createTag tag = .ok (r, h)) :
    g.Preserves h := by
  intro hg
  refine ⟨hg.createTag hcreate, ?_⟩
  obtain ⟨l, -, -, rfl⟩ := createTag_eq_ok hcreate
  exact model_add

/-! ## Runs -/

theorem preserves_perform (op : Operation) : g.Preserves (g.perform op) :=
  adoptive_preserves.perform (fun _ _ _ _ => preserves_createTag) g op

/-- Whatever is done in turn, a sound graph stays sound. -/
theorem preserves_run (ops : List Operation) : g.Preserves (ops.foldl perform g) := by
  induction ops generalizing g with
  | nil => exact .refl g
  | cons op ops ih => exact .trans _ _ _ (preserves_perform op) ih

/-- Over a schema that is made from declarations there is a graph without objects,
    under every policy. After all runs from it, whichever operations fail, each
    object holds one value for each member of its entity, and the member admits
    it. -/
theorem admitted_run {d : Declarations} {naming : Naming} {s : Schema}
    (hs : d.toSchema naming = .ok s) (policy : PolicyTable) :
    ∃ r g, Resolution.ofSchema s = .ok r ∧ Graph.ofResolution r policy = .ok g ∧
      r.schema = s ∧ ∀ ops : List Operation,
        (ops.foldl perform g).model.resolution = r ∧ (ops.foldl perform g).Admitted := by
  obtain ⟨r, hr⟩ := Declarations.exists_ofSchema hs
  obtain ⟨hschema, hexact⟩ := Declarations.exact_of_ofSchema hs hr
  obtain ⟨m, hm⟩ := hexact.exists_model policy
  obtain ⟨hbuilt, hresolution, -⟩ := Model.built_of_ofResolution hm
  refine ⟨r, .empty m, hr, map_eq_ok.2 ⟨m, hm, rfl⟩, hschema, fun ops => ?_⟩
  obtain ⟨hsound, hmodel⟩ := preserves_run ops (.empty hbuilt)
  exact ⟨(congrArg Model.resolution hmodel).trans hresolution, hsound.admitted⟩

/-- Two cells and a wire. The policy files cells among the wires, which do not take
    them: the second cell is adopted, and then adoption fails. So do a reference
    to a wire as the cell above, and a cell that is not there. -/
theorem admitted_run_cells :
    let policy := PolicyTable.empty.addAll [.collector "cell" "cell" "wires"]
    let ops : List Operation := [.create "cell", .createTag 0, .create "cell",
      .attach (Design.cell 0) (Design.cell 1),
      .set (Design.cell 1) "up" (.ref (some (Design.wire 0))),
      .push (Design.cell 0) "cells" (Design.cell 2),
      .push (Design.cell 0) "wires" (Design.wire 0)]
    let g := ops.foldl perform (.empty (Design.model policy))
    g.Admitted ∧ g.childrenOf (Design.cell 0) = [Design.cell 1] ∧
      g.elements (Design.cell 0) "wires" = .ok [Design.wire 0] := by
  intro policy ops
  obtain ⟨r, g, hr, hg, -, hrun⟩ := admitted_run Design.toSchema_declarations policy
  have hresolution : Resolution.ofSchema Design.schema = .ok ⟨Design.schema, ∅⟩ := rfl
  obtain rfl := Except.ok.inj (hresolution.symm.trans hr)
  have hempty : Graph.ofResolution ⟨Design.schema, ∅⟩ policy =
    .ok (.empty (Design.model policy)) := rfl
  obtain rfl := Except.ok.inj (hempty.symm.trans hg)
  exact ⟨(hrun ops).2, by decide +kernel, by decide +kernel⟩

end ObjectModel.Graph
