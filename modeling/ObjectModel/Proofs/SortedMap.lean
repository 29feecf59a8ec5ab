import Mathlib.Data.List.Induction
import Mathlib.Data.List.Nodup
import ObjectModel.SortedMap

/-!
# Sorted maps

What is found in a map, and which keys it has: in a map made from a list
(`SortedMap.exists_get?_ofList`, `SortedMap.get?_ofList`,
`SortedSet.mem_keys_ofList`), and in what is kept of a map
(`SortedMap.get?_filterMap`), which may be all of it
(`SortedMap.filterMap_eq_self_iff`). Keys ascend (`SortedMap.keys_ascending`), so
a map is what is found in it (`SortedMap.ext_get?`).
-/

namespace ObjectModel

namespace SortedMap

universe u v

variable {κ : Type u} {β : Type v} [Ord κ] [Std.LawfulEqOrd κ] {k a : κ} {b : β}
  {m : SortedMap κ β}

/-- An entry adds its key and takes no other away. -/
theorem mem_keys_insertEntry_iff {l : List (κ × β)} :
    a ∈ (insertEntry k b l).map Prod.fst ↔ a = k ∨ a ∈ l.map Prod.fst := by
  refine ⟨mem_keys_insertEntry, fun h => ?_⟩
  induction l with
  | nil => simpa [insertEntry] using h
  | cons e l ih =>
    rw [insertEntry]
    split
    · simpa using h
    · rename_i hk
      rw [Std.LawfulEqCmp.eq_of_compare hk] at h ⊢
      simpa using h
    · rw [List.map_cons, List.mem_cons] at h ⊢
      rcases h with rfl | rfl | h
      · exact .inr (ih (.inl rfl))
      · exact .inl rfl
      · exact .inr (ih (.inr h))

theorem contains_iff : m.contains k = true ↔ k ∈ m.keys := by
  rw [contains, keys, List.any_eq_true, List.mem_map]
  constructor
  · rintro ⟨e, he, hk⟩
    exact ⟨e, he, (Std.LawfulEqCmp.eq_of_compare (beq_iff_eq.1 hk)).symm⟩
  · rintro ⟨e, he, rfl⟩
    exact ⟨e, he, by simp⟩

theorem nodup_keys (m : SortedMap κ β) : m.keys.Nodup :=
  m.ascending.imp fun hlt heq => by
    subst heq
    simp at hlt

omit [Std.LawfulEqOrd κ] in
/-- Keys ascend. -/
theorem keys_ascending [LT κ] [Std.LawfulLTOrd κ] (m : SortedMap κ β) :
    m.keys.Pairwise (· < ·) :=
  m.ascending.imp Std.LawfulLTCmp.eq_lt_iff_lt.1

theorem mem_entries_of_get? (h : m.get? k = some b) : (k, b) ∈ m.entries := by
  obtain ⟨⟨k', b'⟩, hfind, rfl⟩ := Option.map_eq_some_iff.1 h
  have hk : compare k k' = .eq := by simpa using List.find?_some hfind
  rw [Std.LawfulEqCmp.eq_of_compare hk]
  exact List.mem_of_find?_eq_some hfind

/-- A key has one value only, the one that is found. -/
theorem get?_eq_some_iff : m.get? k = some b ↔ (k, b) ∈ m.entries := by
  refine ⟨mem_entries_of_get?, fun h => ?_⟩
  have hfound : (m.entries.find? fun e => compare k e.1 == .eq).isSome :=
    List.find?_isSome.2 ⟨_, h, by simp⟩
  obtain ⟨e, he⟩ := Option.isSome_iff_exists.1 hfound
  have hget : m.get? k = some e.2 := by rw [get?, he, Option.map_some]
  have hpair := List.inj_on_of_nodup_map m.nodup_keys (mem_entries_of_get? hget) h rfl
  rw [hget, (Prod.mk.inj hpair).2]

section

variable {γ : Type v} {f : κ → β → Option γ} {c : γ} {p : κ → β → Bool}

omit [Std.LawfulEqOrd κ] in
/-- What is kept of a map is made from its entries. -/
theorem mem_entries_filterMap :
    (k, c) ∈ (m.filterMap f).entries ↔ ∃ b, (k, b) ∈ m.entries ∧ f k b = some c := by
  simp only [filterMap, filterMapEntry, List.mem_filterMap, Option.map_eq_some_iff]
  constructor
  · rintro ⟨⟨k, b⟩, he, c, hf, hc⟩
    cases hc
    exact ⟨b, he, hf⟩
  · rintro ⟨b, he, hf⟩
    exact ⟨(k, b), he, c, hf, rfl⟩

theorem get?_filterMap : (m.filterMap f).get? k = (m.get? k).bind (f k) := by
  refine Option.ext fun c => ?_
  rw [get?_eq_some_iff, mem_entries_filterMap, Option.bind_eq_some_iff]
  simp only [get?_eq_some_iff]

theorem get?_filter : (m.filter p).get? k = (m.get? k).filter (p k) := by
  rw [filter, get?_filterMap]
  cases m.get? k <;> rfl

theorem mem_keys_iff : k ∈ m.keys ↔ ∃ b, m.get? k = some b := by
  simp only [get?_eq_some_iff, keys, List.mem_map]
  constructor
  · rintro ⟨e, he, rfl⟩
    exact ⟨e.2, he⟩
  · rintro ⟨b, he⟩
    exact ⟨(k, b), he, rfl⟩

theorem mem_keys_filter : k ∈ (m.filter p).keys ↔ ∃ b, m.get? k = some b ∧ p k b = true := by
  simp only [mem_keys_iff, get?_filter, Option.filter_eq_some_iff]

/-- A map is left as it is if each of its entries is. -/
theorem filterMap_eq_self_iff {f : κ → β → Option β} :
    m.filterMap f = m ↔ ∀ k b, m.get? k = some b → f k b = some b := by
  constructor
  · intro h k b hb
    have hf : (m.get? k).bind (f k) = some b := by rw [← get?_filterMap, h, hb]
    rwa [hb] at hf
  · intro h
    refine ext ((List.filterMap_congr fun e he => ?_).trans List.filterMap_some)
    rw [filterMapEntry, h _ _ (get?_eq_some_iff.2 he)]
    rfl

theorem filter_eq_self_iff : m.filter p = m ↔ ∀ k b, m.get? k = some b → p k b = true := by
  refine filterMap_eq_self_iff.trans (forall₃_congr fun k b _ => ?_)
  by_cases hp : p k b = true <;> simp [hp]

end

variable [Std.TransOrd κ] [DecidableEq κ]

omit [DecidableEq κ] in
/-- Two maps are equal if they have the same value for every key. -/
theorem ext_get? {m n : SortedMap κ β} (h : ∀ k, m.get? k = n.get? k) : m = n := by
  have hnodup (m : SortedMap κ β) : m.entries.Nodup := .of_map _ m.nodup_keys
  have hperm : m.entries.Perm n.entries := by
    rw [List.perm_ext_iff_of_nodup (hnodup m) (hnodup n)]
    intro (k, b)
    rw [← get?_eq_some_iff, ← get?_eq_some_iff, h]
  refine ext (hperm.eq_of_pairwise (fun a b _ _ hab hba => ?_) (List.pairwise_map.1 m.ascending)
    (List.pairwise_map.1 n.ascending))
  exact (Std.OrientedCmp.not_lt_of_lt hab hba).elim

/-- What is found in a map made from entries is one of them. -/
theorem exists_get?_ofList {l : List (κ × β)} (h : k ∈ l.map Prod.fst) :
    ∃ b, (k, b) ∈ l ∧ (ofList l).get? k = some b := by
  induction l using List.reverseRecOn with
  | nil => exact absurd h List.not_mem_nil
  | append_singleton l e ih =>
    rw [ofList, List.foldl_append, List.foldl_cons, List.foldl_nil, get?_insert]
    by_cases hk : k = e.1
    · exact ⟨e.2, by simp [hk], if_pos hk⟩
    · obtain ⟨b, hb, hget⟩ := ih (by simpa [hk] using h)
      exact ⟨b, List.mem_append_left _ hb, (if_neg hk).trans hget⟩

/-- In a map made from entries of different keys, these are what is found. -/
theorem get?_ofList {l : List (κ × β)} (hl : (l.map Prod.fst).Nodup) :
    (ofList l).get? k = some b ↔ (k, b) ∈ l := by
  -- Entries are put in one after the other, into a map that may hold others.
  have hfold (m : SortedMap κ β) : (l.foldl (fun m e => m.insert e.1 e.2) m).get? k = some b ↔
      (k, b) ∈ l ∨ k ∉ l.map Prod.fst ∧ m.get? k = some b := by
    induction l generalizing m with
    | nil => simp
    | cons e l ih =>
      obtain ⟨hnew, hl⟩ := List.nodup_cons.1 hl
      rw [List.foldl_cons, ih hl, get?_insert, List.mem_cons, List.map_cons, List.mem_cons, not_or]
      obtain ⟨k', b'⟩ := e
      by_cases hk : k = k'
      · subst hk
        have hkey : k ∉ l.map Prod.fst := hnew
        have hmem : (k, b) ∉ l := fun h => hkey (List.mem_map_of_mem h)
        rw [if_pos rfl, iff_comm]
        simp only [hmem, hkey, not_false_eq_true, not_true, true_and, false_or, or_false, false_and,
          Option.some.injEq, Prod.mk.injEq, eq_comm]
      · simp [hk]
  have hempty : (∅ : SortedMap κ β).get? k = none := rfl
  rw [ofList, hfold, hempty]
  simp

end SortedMap

namespace SortedSet

variable {κ : Type} [Ord κ] [Std.TransOrd κ] [Std.LawfulEqOrd κ] {s : SortedSet κ} {k a : κ}

theorem mem_keys_add : a ∈ (s.add k).keys ↔ a = k ∨ a ∈ s.keys :=
  SortedMap.mem_keys_insertEntry_iff

/-- A set has what the list has that it is made from. -/
theorem mem_keys_ofList {l : List κ} : a ∈ (ofList l).keys ↔ a ∈ l := by
  have hfold (s : SortedSet κ) : a ∈ (l.foldl add s).keys ↔ a ∈ l ∨ a ∈ s.keys := by
    induction l generalizing s with
    | nil => simp
    | cons k l ih => rw [List.foldl_cons, ih, mem_keys_add, List.mem_cons, or_left_comm, or_assoc]
  have hempty : a ∉ (∅ : SortedSet κ).keys := List.not_mem_nil
  rw [ofList, hfold, or_iff_left hempty]

end SortedSet

end ObjectModel
