import ObjectModel.Graph.Reach
import ObjectModel.Proofs.Graph.Typing
import ObjectModel.Proofs.Search
import ObjectModel.Proofs.SortedMap

/-!
# What is reachable

The search for what belongs together is a depth-first search (`Search`). So
what it finds are the objects to which a chain of neighbours leads from the
roots, in the order of references (`Graph.mem_reachable`,
`Graph.sorted_reachable`), and all of them have their neighbours among them. In
turn it finds them if there are no others (`Graph.exists_reachable`).
-/

namespace ObjectModel

/-! ## The order of references -/

namespace Ref

variable {a b : Ref}

/-- `a` comes before `b`: by tag, then by position. -/
def Before (a b : Ref) : Prop := a.tag < b.tag ∨ a.tag = b.tag ∧ a.index < b.index

theorem compare_eq_lt : Ord.compare a b = .lt ↔ a.Before b := by
  rw [compare_eq, Ordering.then_eq_lt, Nat.compare_eq_lt, Nat.compare_eq_lt, Nat.compare_eq_eq,
    Before]

instance : Std.Irrefl Before where
  irrefl _ h := h.elim (Nat.lt_irrefl _) fun h => Nat.lt_irrefl _ h.2

instance : Std.Antisymm Before where
  antisymm a b h h' := by
    unfold Before at h h'
    omega

end Ref

/-! ## Neighbours -/

/-- What is next to an object: its parent, its children, and what it refers to. -/
def Object.neighbours (o : Object) : List Ref :=
  o.header.parent.toList ++ o.header.children ++ o.values.flatMap Value.references

/-- The neighbours of an object are its owner, its children and what its values refer to. -/
theorem Object.mem_neighbours {o : Object} {s : Ref} : s ∈ o.neighbours ↔
    s ∈ o.header.parent ∨ s ∈ o.header.children ∨ ∃ v ∈ o.values, s ∈ v.references := by
  rw [neighbours, List.mem_append, List.mem_append, List.mem_flatMap, Option.mem_toList, or_assoc,
    Option.mem_def]

namespace Graph

variable {g : Graph} {r s : Ref} {n : Nat} {found found' : SortedSet Ref} {roots objects : List Ref}

/-- The neighbours of an object, if it is one. -/
def next (g : Graph) (r : Ref) : List Ref :=
  match g.neighbours r with
  | .ok l => l
  | .error _ => []

theorem next_eq {l : List Ref} (h : g.neighbours r = .ok l) : g.next r = l := by
  rw [next, h]

/-- From `found`, a search through `l` has come to `found'`. It knows the
    neighbours of what it has found. -/
structure Finds (g : Graph) (found : SortedSet Ref) (l : List Ref) (found' : SortedSet Ref) :
    Prop where
  search : Search (fun r => (g.next r).reverse) {r | r ∈ found.keys} l {r | r ∈ found'.keys}
  known : ∀ r ∈ found'.keys, r ∈ found.keys ∨ ∃ l, g.neighbours r = .ok l

/-- From several roots, what each of them adds is found in turn. -/
theorem Finds.foldlM {f : SortedSet Ref → Ref → Except GraphError (SortedSet Ref)}
    (hf : ∀ found r found', f found r = .ok found' → Finds g found [r] found') {l : List Ref}
    (h : l.foldlM f found = .ok found') : Finds g found l found' := by
  induction l generalizing found with
  | nil =>
    obtain rfl := pure_eq_ok.1 h
    exact ⟨.done, fun r hr => .inl hr⟩
  | cons r l ih =>
    rw [List.foldlM_cons] at h
    obtain ⟨found₁, h₁, h⟩ := bind_eq_ok.1 h
    have hr := hf _ _ _ h₁
    have hl := ih h
    exact ⟨hr.search.append hl.search, fun s hs => (hl.known s hs).elim (hr.known s) .inr⟩

/-- What is found to some depth is what the search goes through. -/
theorem reachUpTo_finds (h : g.reachUpTo n found r = .ok found') : Finds g found [r] found' := by
  induction n generalizing found r found' with
  | zero => cases h
  | succ n ih =>
    rw [reachUpTo] at h
    split at h
    · -- An object that was found before is not looked at again.
      rename_i hr
      obtain rfl := pure_eq_ok.1 h
      exact ⟨.seen (SortedMap.contains_iff.1 hr) .done, fun s hs => .inl hs⟩
    · rename_i hr
      obtain ⟨l, hl, h⟩ := bind_eq_ok.1 h
      have hfinds := Finds.foldlM (fun _ _ _ h => ih h) h
      refine ⟨.visit (fun h => hr (SortedMap.contains_iff.2 h)) ?_ .done, fun s hs => ?_⟩
      · have hadd : insert r {s | s ∈ found.keys} = {s | s ∈ (SortedSet.add found r).keys} := by
          ext s
          exact Set.mem_insert_iff.trans SortedSet.mem_keys_add.symm
        rw [hadd, next_eq hl]
        exact hfinds.search
      · rcases hfinds.known s hs with hs | hs
        · rcases SortedSet.mem_keys_add.1 hs with rfl | hs
          · exact .inr ⟨l, hl⟩
          · exact .inl hs
        · exact .inr hs

theorem reachable_finds (h : g.reachable roots = .ok objects) :
    ∃ found, Finds g ∅ roots.reverse found ∧ found.keys = objects := by
  obtain ⟨found, hfound, h⟩ := bind_eq_ok.1 h
  exact ⟨found, Finds.foldlM (fun _ _ _ h => reachUpTo_finds h) hfound, pure_eq_ok.1 h⟩

/-- What is reachable is what a chain of neighbours leads to from a root. -/
theorem mem_reachable (h : g.reachable roots = .ok objects) :
    r ∈ objects ↔ ∃ b ∈ roots, Relation.ReflTransGen (fun x y => y ∈ g.next x) b r := by
  obtain ⟨found, hfound, rfl⟩ := reachable_finds h
  have hempty : {r | r ∈ (∅ : SortedSet Ref).keys} = ∅ :=
    Set.eq_empty_iff_forall_notMem.2 fun _ => List.not_mem_nil
  have hsearch := hempty ▸ hfound.search
  simpa using hsearch.mem_iff (a := r)

theorem root_mem_reachable (h : g.reachable roots = .ok objects) (hr : r ∈ roots) : r ∈ objects :=
  (mem_reachable h).2 ⟨r, hr, .refl⟩

/-- It comes in the order of references. -/
theorem sorted_reachable (h : g.reachable roots = .ok objects) :
    objects.Pairwise Ref.Before := by
  obtain ⟨found, -, rfl⟩ := reachable_finds h
  exact found.ascending.imp Ref.compare_eq_lt.1

/-- What is reachable has neighbours, which are reachable. -/
theorem neighbours_of_mem_reachable (h : g.reachable roots = .ok objects) (hr : r ∈ objects) :
    ∃ l, g.neighbours r = .ok l ∧ ∀ s ∈ l, s ∈ objects := by
  obtain ⟨found, hfound, rfl⟩ := reachable_finds h
  obtain ⟨l, hl⟩ := (hfound.known r hr).resolve_left List.not_mem_nil
  refine ⟨l, hl, fun s hs => (mem_reachable h).2 ?_⟩
  obtain ⟨b, hb, hbr⟩ := (mem_reachable h).1 hr
  exact ⟨b, hb, hbr.tail (next_eq hl ▸ hs)⟩

/-- The neighbours of an object are looked up slot by slot, which finds them all. -/
theorem WellTyped.neighbours {o : Object} (hg : g.WellTyped) (ho : g.object? r = some o) :
    g.neighbours r = .ok o.neighbours := by
  obtain ⟨e, l, -, -, hl, hmembers, hfits⟩ := hg.object ho
  have hreferences : g.references r = .ok ((l.members.zip o.values).flatMap fun e =>
      e.2.references.map (e.1, ·)) :=
    bind_eq_ok.2 ⟨l.members, map_eq_ok.2 ⟨l, hl, rfl⟩, bind_eq_ok.2 ⟨o, object_eq_ok.2 ho, rfl⟩⟩
  refine bind_eq_ok.2 ⟨_, header_eq ho, bind_eq_ok.2 ⟨_, hreferences, pure_eq_ok.2 ?_⟩⟩
  have hsnd : (l.members.zip o.values).map Prod.snd = o.values :=
    List.map_snd_zip hfits.length_eq.ge
  rw [Object.neighbours, List.map_flatMap]
  conv_rhs => rw [← hsnd, List.flatMap_map]
  simp [Function.comp_def]

theorem object_of_mem_reachable (h : g.reachable roots = .ok objects) (hr : r ∈ objects) :
    ∃ o, g.object? r = some o := by
  obtain ⟨l, hl, -⟩ := neighbours_of_mem_reachable h hr
  obtain ⟨header, hheader, -⟩ := bind_eq_ok.1 hl
  obtain ⟨o, ho, -⟩ := map_eq_ok.1 hheader
  exact ⟨o, object_eq_ok.1 ho⟩

/-- What is next to a reachable object is reachable. -/
theorem WellTyped.neighbours_reachable {o : Object} (hg : g.WellTyped)
    (h : g.reachable roots = .ok objects) (hr : r ∈ objects) (ho : g.object? r = some o) :
    ∀ s ∈ o.neighbours, s ∈ objects := by
  obtain ⟨l, hl, hmem⟩ := neighbours_of_mem_reachable h hr
  obtain rfl := Except.ok.inj (hl.symm.trans (hg.neighbours ho))
  exact hmem

/-! ## Depth -/

variable {D : Set Ref}

/-- A search from several roots ends if it does from each of them. -/
theorem exists_foldlM {f : SortedSet Ref → Ref → Except GraphError (SortedSet Ref)}
    (hf : ∀ found, ∀ r ∈ D, remaining g.refs found.keys < n →
      ∃ found', f found r = .ok found' ∧ found.keys ⊆ found'.keys) {l : List Ref}
    (hl : ∀ r ∈ l, r ∈ D) (hn : remaining g.refs found.keys < n) :
    ∃ found', l.foldlM f found = .ok found' := by
  induction l generalizing found with
  | nil => exact ⟨found, rfl⟩
  | cons r l ih =>
    obtain ⟨found₁, h₁, hsub⟩ := hf found r (hl r List.mem_cons_self) hn
    obtain ⟨found', h'⟩ := ih (fun s hs => hl s (List.mem_cons_of_mem _ hs))
      (Nat.lt_of_le_of_lt (remaining_le hsub) hn)
    refine ⟨found', ?_⟩
    rw [List.foldlM_cons]
    exact bind_eq_ok.2 ⟨found₁, h₁, h'⟩

/-- A search of sufficient depth comes to an end among objects that have no
    neighbours beyond them. -/
theorem exists_reachUpTo (hD : ∀ r ∈ D, g.contains r = true)
    (hnext : ∀ r ∈ D, ∃ l, g.neighbours r = .ok l ∧ ∀ s ∈ l, s ∈ D) (n : Nat) :
    ∀ found, ∀ r ∈ D, remaining g.refs found.keys < n →
      ∃ found', g.reachUpTo n found r = .ok found' ∧ found.keys ⊆ found'.keys := by
  induction n with
  | zero => exact fun _ _ _ hn => absurd hn (Nat.not_lt_zero _)
  | succ n ih =>
    intro found r hr hn
    suffices ∃ found', g.reachUpTo (n + 1) found r = .ok found' by
      obtain ⟨found', h⟩ := this
      exact ⟨found', h, (reachUpTo_finds h).search.subset⟩
    rw [reachUpTo]
    split
    · exact ⟨found, rfl⟩
    · -- A new object leaves fewer to be found.
      rename_i hseen
      obtain ⟨l, hl, hlD⟩ := hnext r hr
      have hnew : r ∉ found.keys := fun h => hseen (SortedMap.contains_iff.2 h)
      have hsub : found.keys ⊆ (SortedSet.add found r).keys := fun s hs =>
        SortedSet.mem_keys_add.2 (.inr hs)
      have hadd : r ∈ (SortedSet.add found r).keys := SortedSet.mem_keys_add.2 (.inl rfl)
      obtain ⟨found', h⟩ := exists_foldlM ih (fun s hs => hlD s (List.mem_reverse.1 hs))
        (Nat.lt_of_lt_of_le (remaining_lt hsub (mem_refs.2 (hD r hr)) hnew hadd)
          (Nat.le_of_lt_succ hn))
      exact ⟨found', bind_eq_ok.2 ⟨l, hl, h⟩⟩

/-- What is reachable is found if it is among objects that have no neighbours
    beyond them. -/
theorem exists_reachable (hD : ∀ r ∈ D, g.contains r = true)
    (hnext : ∀ r ∈ D, ∃ l, g.neighbours r = .ok l ∧ ∀ s ∈ l, s ∈ D) (hroots : ∀ r ∈ roots, r ∈ D) :
    ∃ objects, g.reachable roots = .ok objects := by
  have hdepth : remaining g.refs (∅ : SortedSet Ref).keys < g.size + 1 :=
    Nat.lt_succ_of_le (length_refs (g := g) ▸ remaining_le_length)
  obtain ⟨found, h⟩ := exists_foldlM (exists_reachUpTo hD hnext (g.size + 1))
    (fun r hr => hroots r (List.mem_reverse.1 hr)) hdepth
  exact ⟨found.keys, bind_eq_ok.2 ⟨found, h, rfl⟩⟩

end Graph

end ObjectModel
