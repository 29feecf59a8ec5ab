import ObjectModel.Proofs.Archive.Restoring
import ObjectModel.Proofs.Comparison.Bisimulation

/-!
# The round trip

What is restored from an archive is a copy of what was saved in it: the objects
that are reachable from the roots, and no others, in their old order under new
numbers (`Graph.restore_copy`). So objects compare equal to their copies
(`Graph.Renumbered.compare_eq`).
-/

namespace ObjectModel

namespace Graph

variable {g h : Graph} {m : Model} {roots objects : List Ref} {r : Ref} {bytes : List UInt8}

/-- The pairs of an object and its copy. -/
def copies (objects : List Ref) : Set (Ref × Ref) :=
  {q | q.1 ∈ objects ∧ q.2 = renumber objects q.1}

/-- An object compares equal to its copy. -/
theorem Renumbered.compare_eq (hh : g.Renumbered objects h) (hg : g.WellTyped)
    (hreach : g.reachable roots = .ok objects) (hr : r ∈ objects) :
    ∃ c, compare g h r (renumber objects r) = .ok c ∧ c.ordering = .eq := by
  refine compare_eq_of_related (S := copies objects) hg ?_ ⟨hr, rfl⟩
  rintro ⟨r, s⟩ ⟨hr, hs⟩
  obtain rfl : s = renumber objects r := hs
  obtain ⟨o, ho⟩ := object_of_mem_reachable hreach hr
  refine ⟨rfl, o, _, ho, hh.object r hr o ho, ?_⟩
  refine List.forall₂_map_right_iff.2 (List.forall₂_same.2 fun v hv => ?_)
  refine Value.related_map fun s hs => ⟨?_, rfl⟩
  exact hg.neighbours_reachable hreach hr ho s (Object.mem_neighbours.2 (.inr (.inr ⟨v, hv, hs⟩)))

/-- Archives make round trips. An archive of a well-typed graph in which all
    counts can be written is restored, and there is a bijection from what is
    reachable from the roots onto all objects that are restored. It

    * gives the restored roots;
    * keeps tags, and the order of objects of one tag;
    * gives the references of each object, one by one, while all else of the
      object is kept;
    * takes the roots to objects that they compare equal to. -/
theorem restore_copy (hg : g.WellTyped) (hnum : g.schema.Numbered) (hm : m.Built)
    (hs : m.schema = g.schema) (hreach : g.reachable roots = .ok objects)
    (hfit : g.FitsArchive roots objects) (hsave : g.save roots = .ok bytes) :
    ∃ h φ, m.restore bytes = .ok (h, roots.map φ) ∧
      Set.BijOn φ {r | r ∈ objects} {s | h.contains s = true} ∧
      (∀ r ∈ objects, (φ r).tag = r.tag) ∧
      (∀ r ∈ objects, ∀ s ∈ objects, r.tag = s.tag → r.index < s.index →
        (φ r).index < (φ s).index) ∧
      (∀ r ∈ objects, ∃ o, g.object? r = some o ∧ h.object? (φ r) = some (o.map φ)) ∧
      ∀ r ∈ roots, ∃ c, compare g h r (φ r) = .ok c ∧ c.ordering = .eq := by
  obtain ⟨h, hrestore, hh⟩ := Model.restore_save hg hnum hm hs hreach hfit hsave
  have hsorted := sorted_reachable hreach
  refine ⟨h, renumber objects, hrestore, ⟨?_, renumber_injOn, ?_⟩, fun _ _ => rfl, ?_, ?_, ?_⟩
  · exact fun r hr => (hh.contains _).2 ⟨r, hr, rfl⟩
  · exact fun s hs => (hh.contains s).1 hs
  · intro r hr s hs htag hlt
    rcases renumber_before hsorted hr hs (.inr ⟨htag, hlt⟩) with h | h
    · exact absurd h (Nat.not_lt.2 htag.ge)
    · exact h.2
  · intro r hr
    obtain ⟨o, ho⟩ := object_of_mem_reachable hreach hr
    exact ⟨o, ho, hh.object r hr o ho⟩
  · exact fun r hr => hh.compare_eq hg hreach (root_mem_reachable hreach hr)

/-- Two nodes that share a name and refer to each other are copied, without the
    node before them that they do not refer to. -/
theorem restore_copy_pair :
    let g := Network.graph {} [{}, { name := "a", next := some 2, left := some [1, 2, 1] },
      { name := "a", right := some [], parent := some 1 }]
    ∃ bytes h φ, g.save [Network.ref 2, Network.ref 2] = .ok bytes ∧
      (Network.model {}).restore bytes = .ok (h, [φ (Network.ref 2), φ (Network.ref 2)]) ∧
      Set.BijOn φ {r | r ∈ [Network.ref 1, Network.ref 2]} {s | h.contains s = true} := by
  intro g
  have hg : g.WellTyped := Network.wellTyped _ _
  have hreach : g.reachable [Network.ref 2, Network.ref 2] =
      .ok [Network.ref 1, Network.ref 2] := by
    decide +kernel
  have hfit : g.FitsArchive [Network.ref 2, Network.ref 2] [Network.ref 1, Network.ref 2] :=
    Network.fitsArchive (by decide) (by decide) (by decide +kernel) (by decide) (by decide)
  obtain ⟨h, φ, hrestore, hbij, -⟩ := restore_copy hg (Network.numbered _) (Network.built {}) rfl
    hreach hfit (save_eq hg hreach)
  exact ⟨_, h, φ, save_eq hg hreach, hrestore, hbij⟩

end Graph

end ObjectModel
