import ObjectModel.Proofs.Archive.Accepting
import ObjectModel.Proofs.Archive.Moments
import ObjectModel.Proofs.Archive.Resaving
import ObjectModel.Proofs.Ids.Cloning

/-!
# Ids along runs

A graph starts without objects. Objects are made, written into and cloned
(`Graph.Step`), and every now and then the graph is replaced by what is restored from an
archive of it (`Graph.Run`). Restored objects have the ids that they were saved with,
and the last id is the highest of them (`Restoring.lastId_of_run`). So ids stay unique,
as long as they do not run out, and new objects have new ones (`Graph.Run.ids_unique`).
-/

namespace ObjectModel

/-! ## Restored ids -/

namespace Restoring

variable {g : Graph} {id : UInt32}

/-- The highest of some ids is at most what all of them are. -/
theorem foldl_max_le_iff {l : List Object} {first : UInt32} :
    l.foldl (fun id o => max id o.header.id) first ≤ id ↔
      first ≤ id ∧ ∀ o ∈ l, o.header.id ≤ id := by
  induction l generalizing first with
  | nil => simp
  | cons o l ih =>
    rw [List.foldl_cons, ih, List.forall_mem_cons, ← and_assoc, UInt32.le_iff_toNat_le,
      UInt32.toNat_max, Nat.max_le]
    rfl

/-- The highest id is the least that no id of an object exceeds. -/
theorem maxId_le_iff : maxId g ≤ id ↔ ∀ r o, g.object? r = some o → o.header.id ≤ id := by
  rw [maxId, foldl_max_le_iff]
  constructor
  · exact fun ⟨_, h⟩ r o ho => h o (Graph.mem_objects.2 ⟨r, ho⟩)
  · refine fun h => ⟨Nat.zero_le _, fun o ho => ?_⟩
    obtain ⟨r, hr⟩ := Graph.mem_objects.1 ho
    exact h r o hr

/-- In what has been restored, the last id is the highest. -/
theorem lastId_of_run {s t : Restoration} {roots : List Ref}
    (h : takeArchive.run s = (.ok roots, t)) : t.graph.lastId = maxId t.graph := by
  obtain ⟨_, _, -, h⟩ := exists_run_bind_ok h
  obtain ⟨_, _, -, h⟩ := exists_run_bind_ok h
  obtain ⟨_, _, -, h⟩ := exists_run_bind_ok h
  obtain ⟨_, _, -, h⟩ := exists_run_bind_ok h
  obtain ⟨_, _, -, h⟩ := exists_run_bind_ok h
  obtain ⟨_, _, -, h⟩ := exists_run_bind_ok h
  -- All objects have been read.
  obtain ⟨_, _, hlast, h⟩ := exists_run_bind_ok h
  obtain ⟨g, hg, rfl⟩ := graph_of_run_changeGraph hlast
  obtain rfl := pure_eq_ok.1 hg
  obtain ⟨_, _, hcheck, h⟩ := exists_run_bind_ok h
  obtain ⟨rfl, -⟩ := roots_of_run hcheck
  cases h
  rfl

end Restoring

namespace Graph

variable {g h : Graph} {m : Model} {roots roots' objects : List Ref} {bytes : List UInt8} {n : Nat}

/-- What is restored goes by the model, with a place for the objects of each entity, and
    its last id is the highest. -/
theorem frame_of_restore (h : m.restore bytes = .ok (g, roots)) :
    g.model = m ∧ g.stores.length = m.layouts.length ∧ g.lastId = Restoring.maxId g := by
  rw [Model.restore] at h
  rcases hrun : Restoring.takeArchive.run (.start m bytes) with ⟨result, s⟩
  rw [hrun] at h
  obtain ⟨roots, rfl, hresult⟩ := map_eq_ok.1 h
  cases hresult
  have hgrows := Restoring.stepwise_takeArchive.grows (.start m bytes)
  rw [hrun] at hgrows
  exact ⟨hgrows.model, hgrows.places.trans (List.length_map _), Restoring.lastId_of_run hrun⟩

/-- Objects that are restored have the ids that they were saved with. -/
theorem Unique.renumbered (hg : g.Unique) (hreach : g.reachable roots = .ok objects)
    (hh : g.Renumbered objects h) (hlast : h.lastId = Restoring.maxId h) :
    h.Unique ∧ h.lastId ≤ g.lastId := by
  -- Every object of the restored graph has the id of the object it comes from.
  have hobject s p (hp : h.object? s = some p) : ∃ r o, renumber objects r = s ∧
      g.object? r = some o ∧ o.header.id = p.header.id := by
    obtain ⟨r, o, -, rfl, ho, hp'⟩ := hh.exists_object hreach (contains_of_object? hp)
    obtain rfl := Option.some.inj (hp.symm.trans hp')
    exact ⟨r, o, rfl, ho, rfl⟩
  refine ⟨⟨fun s p hp => ?_, fun s p hp => ?_, fun s t p q hp hq hid => ?_⟩, ?_⟩
  · obtain ⟨r, o, -, ho, hid⟩ := hobject s p hp
    exact hid ▸ hg.ne_zero r o ho
  · exact hlast ▸ Restoring.maxId_le_iff.1 (UInt32.le_refl _) s p hp
  · obtain ⟨r, o, rfl, ho, hop⟩ := hobject s p hp
    obtain ⟨r', o', rfl, ho', hoq⟩ := hobject t q hq
    exact congrArg _ (hg.injective r r' o o' ho ho' (hop.trans (hid.trans hoq.symm)))
  · rw [hlast, Restoring.maxId_le_iff]
    intro s p hp
    obtain ⟨r, o, -, ho, hid⟩ := hobject s p hp
    exact hid ▸ hg.le_lastId r o ho

/-- One can go on from what is restored from an archive of the graph. -/
theorem Issued.restored (hg : g.Issued n g) (hm : m.Built) (hs : m.schema = g.schema)
    (hreach : g.reachable roots = .ok objects) (hfit : g.FitsArchive roots objects)
    (hsave : g.save roots = .ok bytes) (hrestore : m.restore bytes = .ok (h, roots')) :
    h.Issued n h := by
  obtain ⟨h', hrestore', hh⟩ :=
    Model.restore_save hg.wellTyped hg.numbered hm hs hreach hfit hsave
  obtain ⟨rfl, rfl⟩ := Prod.mk.inj (Except.ok.inj (hrestore.symm.trans hrestore'))
  obtain ⟨hmodel, hplaces, hlast⟩ := frame_of_restore hrestore
  refine issued_self (hh.wellTyped hg.wellTyped hreach) (hh.schema ▸ hg.numbered)
    (hmodel ▸ hplaces) fun hn => ?_
  obtain ⟨hunique, hcount⟩ := hg.unique_self hn
  obtain ⟨hunique', hle⟩ := hunique.renumbered hreach hh hlast
  exact ⟨hunique', (UInt32.le_iff_toNat_le.1 hle).trans hcount⟩

/-! ## Runs -/

/-- What can be done to a graph, and may fail half-way: an operation, a change to a
    header but for the id, or cloning an object, in whatever setting and with whatever
    remembered. -/
inductive Step : Graph → Graph → Prop
  | perform (g : Graph) (op : Operation) : Step g (g.perform op)
  | updateHeader {g h : Graph} {r : Ref} {f : Header → Header}
      (hf : ∀ header, (f header).id = header.id) (hupdate : g.updateHeader r f = .ok h) : Step g h
  | clone {σ : Type} [Bindings σ] (c : Cloner σ) (r : Ref) (parent : Option Ref) :
    Step c.graph (c.cloneObject r parent).2.graph

/-- In the course of its life, in which `n` objects have been made, there has come to be
    the graph. It may have been replaced by what was restored from an archive of it, over
    the same schema and under any policy, if the archive could hold it: the format has 32
    bits for a count, and a graph of few objects may still have longer lists. -/
inductive Run : Nat → Graph → Prop
  | empty {m : Model} (hm : m.Built) (hnum : m.schema.Numbered) : Run 0 (.empty m)
  | step {n : Nat} {g h : Graph} (hrun : Run n g) (hstep : g.Step h) : Run (n + (h.size - g.size)) h
  | replace {n : Nat} {g h : Graph} {m : Model} {roots roots' objects : List Ref}
      {bytes : List UInt8} (hrun : Run n g) (hm : m.Built) (hs : m.schema = g.schema)
      (hreach : g.reachable roots = .ok objects) (hfit : g.FitsArchive roots objects)
      (hsave : g.save roots = .ok bytes) (hrestore : m.restore bytes = .ok (h, roots')) : Run n h

/-- Each step hands out ids in turn. -/
theorem Step.issued (hstep : g.Step h) (hg : g.Issued n g) : g.Issued n h := by
  cases hstep with
  | perform g op => exact hg.perform op
  | updateHeader hf hupdate => exact hg.updateHeader hf hupdate
  | clone c r parent => exact Cloner.cloneObject_issued hg r parent

/-- A run hands out ids in turn, through all archives that it is restored from. -/
theorem Run.issued (hrun : Run n g) : g.Issued n g := by
  induction hrun with
  | empty hm hnum => exact issued_empty hm hnum
  | step _ hstep ih => exact (hstep.issued ih).onward
  | replace _ hm hs hreach hfit hsave hrestore ih =>
    exact ih.restored hm hs hreach hfit hsave hrestore

/-- Ids are unique over the life of a graph. Whatever has been done to it, whether it
    failed or not, and however often it has been replaced by what was restored from an
    archive of it, as long as fewer than `2 ^ 32` objects have been made in total,

    * ids are not zero, at most the last one, and no two objects have the same;
    * no more ids have been handed out than objects have been made;
    * what is made next, by whatever step, has ids that no object has yet, as long as
      ids do not run out in this step.

    Besides the number of objects, only archives are bounded: where the graph was
    replaced, all counts of the archive were less than `2 ^ 32` (`FitsArchive`). -/
theorem Run.ids_unique (hrun : Run n g) (hn : n < 2 ^ 32) :
    g.Unique ∧ g.lastId.toNat ≤ n ∧
      ∀ h, g.Step h → n + (h.size - g.size) < 2 ^ 32 →
        ∀ r o, h.object? r = some o → g.contains r = false →
          o.header.id ≠ 0 ∧ ∀ s p, g.object? s = some p → o.header.id ≠ p.header.id := by
  obtain ⟨hunique, hlast⟩ := hrun.issued.unique_self hn
  refine ⟨hunique, hlast, fun h hstep hh r o ho hr => ?_⟩
  have hissued := hstep.issued hrun.issued
  exact ⟨(hissued.unique hh).1.ne_zero r o ho, fun _ _ hp => hissued.fresh hh ho hr hp⟩

/-- Two nodes are made, the first adopts the second, and this is cloned. Then nothing but
    the clone is kept. It comes to stand first, and the next object gets the fourth id. -/
theorem Run.ids_unique_nodes :
    let g := (((Graph.empty (Network.model {})).perform (.create "node")).perform
      (.createTag 0)).perform (.attach (Network.ref 0) (Network.ref 1))
    let k := (g.cloneTree NoBindings.none (Network.ref 1) none).2.graph
    let h : Graph := ⟨Network.model {}, [[({} : Network.Node).object 3]], 3⟩
    (∃ bytes, k.save [Network.ref 2] = .ok bytes ∧
      (Network.model {}).restore bytes = .ok (h, [Network.ref 0])) ∧
      Run 3 h ∧ h.Unique ∧ h.lastId.toNat ≤ 3 ∧
      ∀ r o, (h.perform (.createTag 0)).object? r = some o → h.contains r = false →
        o.header.id ≠ 0 ∧ ∀ s p, h.object? s = some p → o.header.id ≠ p.header.id := by
  intro g k h
  have hg : Run 2 g := (congrArg (Run · g) (by decide +kernel)).mp <|
    (((Run.empty (Network.built {}) (Network.numbered {})).step
      (.perform _ (.create "node"))).step (.perform _ (.createTag 0))).step
        (.perform _ (.attach (Network.ref 0) (Network.ref 1)))
  have hk : Run 3 k := (congrArg (Run · k) (by decide +kernel)).mp <|
    hg.step (.clone ⟨g, NoBindings.none, []⟩ (Network.ref 1) none)
  have hreach : k.reachable [Network.ref 2] = .ok [Network.ref 2] := by decide +kernel
  have hnodes : k = Network.graph {} [{ children := [1] }, { parent := some 0 }, {}] := by
    decide +kernel
  have hfit : k.FitsArchive [Network.ref 2] [Network.ref 2] := by
    rw [hnodes]
    exact Network.fitsArchive (by decide) (by decide) (by decide +kernel) (by decide) (by decide)
  have hsave : k.save [Network.ref 2] = .ok ((k.save [Network.ref 2]).toOption.getD []) := by
    decide +kernel
  have hrestore : (Network.model {}).restore ((k.save [Network.ref 2]).toOption.getD []) =
      .ok (h, [Network.ref 0]) := by
    decide +kernel
  -- The archive keeps the id of the clone, and the restored graph goes on from it.
  have hh : Run 3 h := hk.replace (Network.built {}) rfl hreach hfit hsave hrestore
  obtain ⟨hunique, hlast, hfresh⟩ := hh.ids_unique (by decide)
  exact ⟨⟨_, hsave, hrestore⟩, hh, hunique, hlast,
    hfresh _ (.perform h (.createTag 0)) (by decide +kernel)⟩

end Graph

end ObjectModel
