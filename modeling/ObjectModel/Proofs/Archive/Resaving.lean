import ObjectModel.Proofs.Archive.Restoring

/-!
# Saving what was restored

Saving what was restored from an archive gives the same archive, byte for byte
(`Graph.save_restored`). For what was restored is well typed
(`Renumbered.wellTyped`), all of it can be reached from the restored roots
(`Renumbered.reachable`), and as it is numbered already, it keeps its numbers.
So all parts of the archive come out as they were.
-/

namespace ObjectModel

open Wire

section

variable {objects : List Ref} (hsorted : objects.Pairwise Ref.Before) {r : Ref} {t : SymbolTable}

include hsorted

theorem refItem_renumber (hr : r ∈ objects) :
    refItem (objects.map (renumber objects)) (some (renumber objects r)) =
      refItem objects (some r) := by
  rw [refItem, refItem, Option.bind_some, Option.bind_some,
    archiveIndex?_map_renumber hsorted hr, tag_renumber]

/-- References by new numbers are written as before. -/
theorem refItem_map {target : Option Ref} (htarget : ∀ r ∈ target, r ∈ objects) :
    refItem (objects.map (renumber objects)) (target.map (renumber objects)) =
      refItem objects target := by
  cases target with
  | none => rfl
  | some r => exact refItem_renumber hsorted (htarget r rfl)

theorem refItems_map {l : List Ref} (hl : ∀ r ∈ l, r ∈ objects) :
    ((l.map (renumber objects)).map fun r =>
      refItem (objects.map (renumber objects)) (some r)) =
        l.map fun r => refItem objects (some r) := by
  rw [List.map_map]
  exact List.map_congr_left fun r hr => refItem_renumber hsorted (hl r hr)

theorem Header.items_map {h : Header} (hparent : ∀ r ∈ h.parent, r ∈ objects)
    (hchildren : ∀ r ∈ h.children, r ∈ objects) :
    (h.map (renumber objects)).items (objects.map (renumber objects)) t = h.items objects t := by
  simp only [items, Header.map, refItem_map hsorted hparent, refItems_map hsorted hchildren,
    List.length_map]

/-- A value is written again as before, as only its references are renamed. -/
theorem Value.items_map {v : Value} (hv : ∀ r ∈ v.references, r ∈ objects) (m : Member) :
    (v.map (renumber objects)).items (objects.map (renumber objects)) t m =
      v.items objects t m := by
  obtain ⟨name, content, relation, tags⟩ := m
  cases content with
  | scalar kind => cases kind <;> cases v <;> rfl
  | object _ _ | union _ _ =>
    -- A reference is written by its place, and renumbering keeps the places.
    cases v with
    | ref target =>
      have htarget : ∀ r ∈ target, r ∈ objects := by
        rintro r ⟨⟩
        exact hv r List.mem_cons_self
      exact congrArg ([·]) (refItem_map hsorted htarget)
    | refs items =>
      cases items with
      | none => rfl
      | some l =>
        simp only [Value.items, Value.map, Option.map_some, List.length_map]
        exact congrArg _ (refItems_map hsorted hv)
    | _ => rfl

/-- All of an object is written again as before. -/
theorem Object.items_map {o : Object} (hnext : ∀ s ∈ o.neighbours, s ∈ objects)
    (members : List Member) :
    (o.map (renumber objects)).items (objects.map (renumber objects)) t members =
      o.items objects t members := by
  have hheader := Header.items_map (t := t) (h := o.header) hsorted
    (fun s hs => hnext s (Object.mem_neighbours.2 (.inl hs)))
    fun s hs => hnext s (Object.mem_neighbours.2 (.inr (.inl hs)))
  rw [Object.items, Object.items, Object.map, hheader, Object.valueItems, List.zip_map_right,
    List.flatMap_map]
  refine congrArg _ (List.flatMap_congr fun e he => ?_)
  exact Value.items_map hsorted (fun s hs => hnext s (Object.mem_neighbours.2
    (.inr (.inr ⟨e.2, (List.of_mem_zip he).2, hs⟩)))) e.1

end

namespace Graph

variable {g h : Graph} {m : Model} {roots roots' objects : List Ref} {r : Ref} {bytes : List UInt8}

section

variable (hh : g.Renumbered objects h) (hg : g.WellTyped) (hreach : g.reachable roots = .ok objects)

include hh hg hreach

omit hg in
/-- Each restored object was saved. -/
theorem Renumbered.exists_object {s : Ref} (hs : h.contains s = true) :
    ∃ r o, r ∈ objects ∧ renumber objects r = s ∧ g.object? r = some o ∧
      h.object? s = some (o.map (renumber objects)) := by
  obtain ⟨r, hr, rfl⟩ := (hh.contains s).1 hs
  obtain ⟨o, ho⟩ := object_of_mem_reachable hreach hr
  exact ⟨r, o, hr, rfl, ho, hh.object r hr o ho⟩

/-- What is restored is well typed. -/
theorem Renumbered.wellTyped : h.WellTyped where
  built := hh.built
  typed s p hp := by
    obtain ⟨r, o, -, rfl, ho, ho'⟩ := hh.exists_object hreach (contains_of_object? hp)
    obtain rfl := Option.some.inj (hp.symm.trans ho')
    obtain ⟨e, he, hc, hfits⟩ := hg.typed r o ho
    refine ⟨e, hh.schema ▸ he, hc, ?_⟩
    rw [hh.schema, Object.map, List.forall₂_map_right_iff]
    simpa only [Value.fits_map] using hfits

/-- The neighbours of an object are kept. -/
theorem Renumbered.neighbours (hr : r ∈ objects) :
    ∃ l, g.neighbours r = .ok l ∧
      h.neighbours (renumber objects r) = .ok (l.map (renumber objects)) := by
  obtain ⟨o, ho⟩ := object_of_mem_reachable hreach hr
  refine ⟨o.neighbours, hg.neighbours ho, ?_⟩
  rw [(hh.wellTyped hg hreach).neighbours (hh.object r hr o ho), Object.neighbours_map]

/-- A chain of neighbours from a root is kept. -/
theorem Renumbered.chain {b : Ref} (hb : b ∈ roots)
    (hbr : Relation.ReflTransGen (fun x y => y ∈ g.next x) b r) :
    Relation.ReflTransGen (fun x y => y ∈ h.next x) (renumber objects b) (renumber objects r) := by
  induction hbr with
  | refl => exact .refl
  | @tail c d hbc hcd ih =>
    -- What the chain has come to is reachable, so its neighbours are kept.
    obtain ⟨l, hl, hl'⟩ := hh.neighbours hg hreach ((mem_reachable hreach).2 ⟨b, hb, hbc⟩)
    refine ih.tail ?_
    rw [next_eq hl] at hcd
    rw [next_eq hl']
    exact List.mem_map_of_mem hcd

/-- All that is restored can be reached from the restored roots. -/
theorem Renumbered.reachable :
    h.reachable (roots.map (renumber objects)) = .ok (objects.map (renumber objects)) := by
  have hsorted := sorted_reachable hreach
  have hnext : ∀ s, h.contains s = true →
      ∃ l, h.neighbours s = .ok l ∧ ∀ u ∈ l, h.contains u = true := by
    intro s hs
    obtain ⟨r, hr, rfl⟩ := (hh.contains s).1 hs
    obtain ⟨l, hl, hl'⟩ := hh.neighbours hg hreach hr
    refine ⟨_, hl', List.forall_mem_map.2 fun u hu => (hh.contains _).2 ⟨u, ?_, rfl⟩⟩
    obtain ⟨l', hl', hmem⟩ := neighbours_of_mem_reachable hreach hr
    obtain rfl := Except.ok.inj (hl.symm.trans hl')
    exact hmem u hu
  have hroots : ∀ s ∈ roots.map (renumber objects), h.contains s = true :=
    List.forall_mem_map.2 fun r hr =>
      (hh.contains _).2 ⟨r, root_mem_reachable hreach hr, rfl⟩
  obtain ⟨found, hfound⟩ := exists_reachable (D := {s | h.contains s = true}) (fun s hs => hs) hnext
    hroots
  -- Nothing but what was saved is found, and a
  -- chain to what was saved is a chain to its copy.
  have hmem s : s ∈ found ↔ s ∈ objects.map (renumber objects) := by
    rw [List.mem_map]
    constructor
    · intro hs
      obtain ⟨p, hp⟩ := object_of_mem_reachable hfound hs
      exact (hh.contains s).1 (contains_of_object? hp)
    · rintro ⟨r, hr, rfl⟩
      obtain ⟨b, hb, hbr⟩ := (mem_reachable hreach).1 hr
      exact (mem_reachable hfound).2 ⟨_, List.mem_map_of_mem hb, hh.chain hg hreach hb hbr⟩
  rw [hfound, (sorted_reachable hfound).eq_of_mem_iff (sorted_map_renumber hsorted) hmem]

omit hg in
/-- The symbols are gathered from the same texts in the same order. -/
theorem Renumbered.symbols_eq : h.symbols (objects.map (renumber objects)) = g.symbols objects := by
  rw [symbols, symbols, List.flatMap_map]
  refine congrArg _ (List.flatMap_congr fun r hr => ?_)
  obtain ⟨o, ho⟩ := object_of_mem_reachable hreach hr
  rw [textsOf, textsOf, ho, hh.object r hr o ho]
  exact Object.texts_map

/-- Each object is written again where it was. -/
theorem Renumbered.bodyItems_eq {t : SymbolTable} (hr : r ∈ objects) :
    h.bodyItems (objects.map (renumber objects)) t (renumber objects r) =
      g.bodyItems objects t r := by
  obtain ⟨o, ho⟩ := object_of_mem_reachable hreach hr
  obtain ⟨e, he, -⟩ := hg.typed r o ho
  have he' : h.schema.entityAt? (renumber objects r).tag = some e := hh.schema ▸ he
  rw [Graph.bodyItems_eq ho he, Graph.bodyItems_eq (hh.object r hr o ho) he', hh.schema]
  exact Object.items_map (sorted_reachable hreach) (hg.neighbours_reachable hreach hr ho) _

/-- Copies are saved as what they are copies of. -/
theorem Renumbered.save_eq : h.save (roots.map (renumber objects)) = g.save roots := by
  have hsorted := sorted_reachable hreach
  have hroots : ∀ r ∈ roots, r ∈ objects := fun _ => root_mem_reachable hreach
  have hbodies : (objects.map (renumber objects)).flatMap
      (h.bodyItems (objects.map (renumber objects)) (g.symbols objects)) =
        objects.flatMap (g.bodyItems objects (g.symbols objects)) := by
    rw [List.flatMap_map]
    exact List.flatMap_congr fun r hr => hh.bodyItems_eq hg hreach hr
  have hcount tag : (objects.map (renumber objects)).countP (·.tag == tag) =
      objects.countP (·.tag == tag) := List.countP_map
  rw [Graph.save_eq (hh.wellTyped hg hreach) (hh.reachable hg hreach), Graph.save_eq hg hreach,
    hh.symbols_eq hreach, hh.schema, hbodies, refItems_map hsorted hroots, List.length_map]
  simp only [hcount]

end

/-- Saving what was restored gives the same archive. If a well-typed graph in
    which all counts can be written is saved, and a graph is restored from the
    archive, then this graph is saved with the restored roots as the very same
    bytes, also where the first one has objects that cannot be reached, and
    other numbers. -/
theorem save_restored (hg : g.WellTyped) (hnum : g.schema.Numbered) (hm : m.Built)
    (hs : m.schema = g.schema) (hreach : g.reachable roots = .ok objects)
    (hfit : g.FitsArchive roots objects) (hsave : g.save roots = .ok bytes)
    (hrestore : m.restore bytes = .ok (h, roots')) : h.save roots' = .ok bytes := by
  obtain ⟨h', hrestore', hh⟩ := Model.restore_save hg hnum hm hs hreach hfit hsave
  obtain ⟨rfl, rfl⟩ := Prod.mk.inj (Except.ok.inj (hrestore.symm.trans hrestore'))
  exact (hh.save_eq hg hreach).trans hsave

/-- Two nodes that refer to each other come second and third in a network, and
    first and second in the one that is restored, which is saved alike. -/
theorem save_restored_pair :
    let g := Network.graph {} [{}, { name := "a", next := some 2, left := some [1, 2, 1] },
      { name := "a", right := some [], parent := some 1 }]
    ∃ bytes h, g.save [Network.ref 2, Network.ref 2] = .ok bytes ∧
      (Network.model {}).restore bytes = .ok (h, [Network.ref 1, Network.ref 1]) ∧
      h.save [Network.ref 1, Network.ref 1] = .ok bytes := by
  intro g
  have hg : g.WellTyped := Network.wellTyped _ _
  have hreach : g.reachable [Network.ref 2, Network.ref 2] =
      .ok [Network.ref 1, Network.ref 2] := by
    decide +kernel
  have hfit : g.FitsArchive [Network.ref 2, Network.ref 2] [Network.ref 1, Network.ref 2] :=
    Network.fitsArchive (by decide) (by decide) (by decide +kernel) (by decide) (by decide)
  have hsave := save_eq hg hreach
  obtain ⟨h, hrestore, -⟩ := Model.restore_save hg (Network.numbered _) (Network.built {}) rfl
    hreach hfit hsave
  exact ⟨_, h, hsave, hrestore, save_restored hg (Network.numbered _) (Network.built {}) rfl hreach
    hfit hsave hrestore⟩

end Graph

end ObjectModel
