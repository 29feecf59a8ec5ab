import ObjectModel.Proofs.Graph.Growth

/-!
# Making objects under one another

Objects are made one after the other, each under a given parent or under one
that was made before it (`Graph.Makes`). This is kept when another one is made
(`Graph.Makes.add`), and when one that was made is written into
(`Graph.Makes.modify`). Owners then lead from each of them to the given parent,
and meet nothing twice on the way (`Graph.Makes.exists_path`).
-/

namespace ObjectModel.Graph

/-- `h` has come from `g` by making objects, in the order of `made`. They have
    the ids that follow on those of `g`, and each is under `parent`, or under
    one that was made before it. -/
structure Makes (g : Graph) (parent : Option Ref) (made : List Ref) (h : Graph) : Prop where
  extension : g.Extends h
  lastId : h.lastId = g.lastId + UInt32.ofNat made.length
  nodup : made.Nodup
  mem : ∀ r, r ∈ made ↔ h.contains r = true ∧ g.contains r = false
  placed : ∀ i r, made[i]? = some r → ∃ o, h.object? r = some o ∧
    o.header.id = g.lastId + UInt32.ofNat (i + 1) ∧
      (o.header.parent = parent ∨ ∃ s ∈ made.take i, o.header.parent = some s)

variable {g h : Graph} {parent : Option Ref} {made : List Ref} {r : Ref} {o : Object}

/-- Nothing need be made. -/
theorem Makes.nothing (g : Graph) (parent : Option Ref) : g.Makes parent [] g where
  extension := .refl g
  lastId := by simp
  nodup := .nil
  mem r := by simp
  placed i r hi := by simp at hi

/-- An object is made under `parent`, or under one that was made before. -/
theorem Makes.add (hm : g.Makes parent made h) {tag : Nat} (htag : tag < h.stores.length)
    (hid : o.header.id = h.lastId + 1)
    (hparent : o.header.parent = parent ∨ ∃ s ∈ made, o.header.parent = some s) :
    g.Makes parent (made ++ [h.fresh tag]) (h.add tag o) where
  extension := hm.extension.add
  lastId := by
    rw [lastId_add, hm.lastId, List.length_append, List.length_singleton, UInt32.ofNat_add,
      UInt32.add_assoc]
    rfl
  nodup := by
    refine List.nodup_append.2 ⟨hm.nodup, List.nodup_singleton _, fun a ha b hb => ?_⟩
    rw [List.mem_singleton.1 hb]
    exact ne_fresh ((hm.mem a).1 ha).1
  mem r := by
    rw [List.mem_append, List.mem_singleton, hm.mem, contains_add htag]
    constructor
    · rintro (⟨hr, hg⟩ | rfl)
      · exact ⟨.inr hr, hg⟩
      · exact ⟨.inl rfl, Bool.eq_false_iff.2 fun hg => ne_fresh (hm.extension.contains hg) rfl⟩
    · rintro ⟨rfl | hr, hg⟩
      · exact .inr rfl
      · exact .inl ⟨hr, hg⟩
  placed i r hi := by
    rw [List.getElem?_append] at hi
    split at hi
    · -- What was made before stays where it is.
      rename_i hlt
      obtain ⟨p, hp, hpid, hplaced⟩ := hm.placed i r hi
      refine ⟨p, ?_, hpid, ?_⟩
      · rw [object?_add htag, if_neg (ne_fresh (contains_of_object? hp)), hp]
      · rwa [List.take_append_of_le_length (Nat.le_of_lt hlt)]
    · -- The object at the end is the new one.
      rename_i hle
      obtain ⟨hi', rfl⟩ := List.getElem?_eq_some_iff.1 hi
      have hlen : i = made.length := by
        simp only [List.length_singleton] at hi'
        omega
      subst hlen
      refine ⟨o, ?_, ?_, ?_⟩
      · simpa using object?_add_fresh htag
      · rw [hid, hm.lastId, UInt32.ofNat_add, UInt32.add_assoc]
        rfl
      · rwa [List.take_left']
        rfl

/-- What was made can be written into. -/
theorem Makes.modify (hm : g.Makes parent made h) (hr : r ∈ made) {f : Object → Object}
    (hf : ∀ o, (f o).header.id = o.header.id ∧ (f o).header.parent = o.header.parent) :
    g.Makes parent made (h.modify r f) where
  extension := hm.extension.modify ((hm.mem r).1 hr).2
  lastId := hm.lastId
  nodup := hm.nodup
  mem s := by rw [hm.mem, contains_modify]
  placed i s hi := by
    obtain ⟨o, ho, hid, hplaced⟩ := hm.placed i s hi
    rw [object?_modify]
    split
    · exact ⟨f o, by rw [ho]; rfl, (hf o).1.trans hid, by rwa [(hf o).2]⟩
    · exact ⟨o, ho, hid, hplaced⟩

/-- From what was made, owners lead to `parent`, and on the way nothing is met
    twice: what is passed was made, each before the one that it owns. -/
theorem Makes.exists_path (hm : g.Makes parent made h) (hr : r ∈ made) :
    ∃ path : List Ref, path.head? = some r ∧ path.Nodup ∧ (∀ s ∈ path, s ∈ made) ∧
      path.map h.parent? = path.tail.map some ++ [parent] := by
  obtain ⟨i, hi⟩ := List.mem_iff_getElem?.1 hr
  -- The owner was made before, unless it is `parent`.
  suffices ∃ path : List Ref, path.head? = some r ∧ path.Nodup ∧
      (∀ s ∈ path, s ∈ made.take (i + 1)) ∧
        path.map h.parent? = path.tail.map some ++ [parent] by
    obtain ⟨path, hhead, hnodup, hmade, hparents⟩ := this
    exact ⟨path, hhead, hnodup, fun s hs => List.mem_of_mem_take (hmade s hs), hparents⟩
  induction i using Nat.strongRecOn generalizing r with
  | ind i ih =>
    obtain ⟨o, ho, -, hplaced⟩ := hm.placed i r hi
    have hparent : h.parent? r = o.header.parent := parent?_eq ho
    have hself : r ∈ made.take (i + 1) :=
      List.mem_iff_getElem?.2 ⟨i, by rw [List.getElem?_take_of_succ]; exact hi⟩
    rcases hplaced with hplaced | ⟨s, hs, hplaced⟩
    · refine ⟨[r], rfl, List.nodup_singleton r, ?_, by simp [hparent, hplaced]⟩
      exact fun s hs => List.mem_singleton.1 hs ▸ hself
    · obtain ⟨j, hj⟩ := List.mem_iff_getElem?.1 hs
      obtain ⟨hji, hj⟩ : j < i ∧ made[j]? = some s := by
        rw [List.getElem?_take] at hj
        split at hj
        · exact ⟨‹_›, hj⟩
        · cases hj
      obtain ⟨path, hhead, hnodup, hmade, hparents⟩ := ih j hji (List.mem_of_getElem? hj) hj
      obtain ⟨s, path, rfl⟩ : ∃ a l, path = a :: l := by
        cases path with
        | nil => cases hhead
        | cons a l => exact ⟨a, l, rfl⟩
      obtain rfl := Option.some.inj hhead
      refine ⟨r :: s :: path, rfl, List.nodup_cons.2 ⟨fun hmem => ?_, hnodup⟩, ?_, ?_⟩
      · -- What is passed later was made before, so it is not `r`.
        obtain ⟨k, hk⟩ := List.mem_iff_getElem?.1 (hmade r hmem)
        rw [List.getElem?_take] at hk
        split at hk
        · have hlt := (List.getElem?_eq_some_iff.1 hi).1
          have := (List.getElem?_inj hlt hm.nodup).1 (hi.trans hk.symm)
          omega
        · cases hk
      · intro t ht
        rcases List.mem_cons.1 ht with rfl | ht
        · exact hself
        · exact List.take_subset_take_left _ (by omega) (hmade t ht)
      · rw [List.map_cons, hparents, hparent, hplaced]
        rfl

end ObjectModel.Graph
