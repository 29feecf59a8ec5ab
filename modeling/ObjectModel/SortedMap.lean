/-!
# Sorted maps

A finite map kept as the list of its entries, keys strictly ascending. As the
order is part of the type, a map has one representation only: two maps are
equal as soon as they hold the same entries (`SortedMap.ext`), and walking a
map in key order is walking its list.

* `SortedMap.insert`: a later value for a key takes the place of the former
  (`SortedMap.get?_insert`).
* `SortedMap.filterMap`: drops and changes entries, keeping the order.
* `SortedSet`: the keys alone.
-/

namespace ObjectModel

universe u v w

/-- Pairs are ordered by their first component, then by the second. -/
instance instOrdProd {α : Type u} {β : Type v} [Ord α] [Ord β] : Ord (α × β) := lexOrd

/-- A finite map, as the list of its entries in strictly ascending key order. -/
structure SortedMap (κ : Type u) (β : Type v) [Ord κ] where
  /-- The entries, keys ascending. -/
  entries : List (κ × β)
  ascending : (entries.map Prod.fst).Pairwise fun a b => compare a b = .lt

namespace SortedMap

variable {κ : Type u} {β : Type v} {γ : Type w} [Ord κ]

theorem ext {m n : SortedMap κ β} (h : m.entries = n.entries) : m = n := by
  cases m; cases n; cases h; rfl

instance [DecidableEq κ] [DecidableEq β] : DecidableEq (SortedMap κ β) := fun m n =>
  decidable_of_iff (m.entries = n.entries) ⟨ext, fun h => h ▸ rfl⟩

/-- The map without entries. -/
def empty : SortedMap κ β := ⟨[], .nil⟩

instance : EmptyCollection (SortedMap κ β) := ⟨empty⟩

instance : Inhabited (SortedMap κ β) := ⟨empty⟩

/-- The value of `k`. -/
def get? (m : SortedMap κ β) (k : κ) : Option β :=
  (m.entries.find? fun e => compare k e.1 == .eq).map Prod.snd

/-- `k` has a value. -/
def contains (m : SortedMap κ β) (k : κ) : Bool :=
  m.entries.any fun e => compare k e.1 == .eq

/-- The keys, ascending. -/
def keys (m : SortedMap κ β) : List κ := m.entries.map Prod.fst

/-- The map holds nothing. -/
def isEmpty (m : SortedMap κ β) : Bool := m.entries.isEmpty

/-- `k` and `v` put at the place of `k` in an ascending list of entries. -/
def insertEntry (k : κ) (v : β) : List (κ × β) → List (κ × β)
  | [] => [(k, v)]
  | e :: r => match compare k e.1 with
    | .lt => (k, v) :: e :: r
    | .eq => (k, v) :: r
    | .gt => e :: insertEntry k v r

theorem mem_keys_insertEntry {k a : κ} {v : β} {l : List (κ × β)}
    (h : a ∈ (insertEntry k v l).map Prod.fst) : a = k ∨ a ∈ l.map Prod.fst := by
  induction l with
  | nil => simpa [insertEntry] using h
  | cons e r ih =>
    rw [insertEntry] at h
    split at h
    · simpa using h
    · rcases List.mem_cons.1 h with h | h
      · exact .inl h
      · exact .inr (List.mem_cons_of_mem _ h)
    · rcases List.mem_cons.1 h with h | h
      · exact .inr (h ▸ List.mem_cons_self)
      · exact (ih h).imp id (List.mem_cons_of_mem _)

/-- An entry goes to where the order of the keys is kept. -/
theorem ascending_insertEntry [Std.TransOrd κ] [Std.LawfulEqOrd κ] (k : κ) (v : β)
    {l : List (κ × β)} (h : (l.map Prod.fst).Pairwise fun a b => compare a b = .lt) :
    ((insertEntry k v l).map Prod.fst).Pairwise fun a b => compare a b = .lt := by
  induction l with
  | nil => simp [insertEntry]
  | cons e r ih =>
    rw [List.map_cons, List.pairwise_cons] at h
    rw [insertEntry]
    split
    · rename_i hk
      refine List.pairwise_cons.2 ⟨fun a ha => ?_, List.pairwise_cons.2 h⟩
      rcases List.mem_cons.1 ha with rfl | ha
      · exact hk
      · exact Std.TransCmp.lt_trans hk (h.1 a ha)
    · rename_i hk
      exact List.pairwise_cons.2 ⟨Std.LawfulEqCmp.eq_of_compare hk ▸ h.1, h.2⟩
    · rename_i hk
      refine List.pairwise_cons.2 ⟨fun a ha => ?_, ih h.2⟩
      rcases mem_keys_insertEntry ha with rfl | ha
      · exact Std.OrientedCmp.lt_of_gt hk
      · exact h.1 a ha

/-- The map that gives `k` the value `v`, and all other keys what they had. -/
def insert [Std.TransOrd κ] [Std.LawfulEqOrd κ] (m : SortedMap κ β) (k : κ) (v : β) :
    SortedMap κ β :=
  ⟨insertEntry k v m.entries, ascending_insertEntry k v m.ascending⟩

/-- A key finds the value that it was entered with last. -/
theorem get?_insert [Std.TransOrd κ] [Std.LawfulEqOrd κ] [DecidableEq κ] (m : SortedMap κ β)
    (k k' : κ) (v : β) :
    (m.insert k v).get? k' = if k' = k then some v else m.get? k' := by
  rw [get?, get?]
  change ((insertEntry k v m.entries).find? fun e => compare k' e.1 == .eq).map Prod.snd = _
  induction m.entries with
  | nil => by_cases hk : k' = k <;> simp [insertEntry, hk]
  | cons e l ih =>
    rw [insertEntry]
    split
    · by_cases hk : k' = k <;> simp [hk]
    · rename_i he
      have hke : k = e.1 := Std.LawfulEqCmp.eq_of_compare he
      by_cases hk : k' = e.1 <;> simp [hke, hk]
    · rename_i he
      by_cases hk : k' = k
      · subst hk
        simpa [List.find?_cons, he] using ih
      · rw [List.find?_cons, List.find?_cons]
        split
        · simp [hk]
        · exact ih

/-- The map of a list of entries, later ones replacing earlier ones. -/
def ofList [Std.TransOrd κ] [Std.LawfulEqOrd κ] (l : List (κ × β)) : SortedMap κ β :=
  l.foldl (fun m e => m.insert e.1 e.2) ∅

/-- What remains of an entry under `f`. -/
def filterMapEntry (f : κ → β → Option γ) (e : κ × β) : Option (κ × γ) :=
  (f e.1 e.2).map (e.1, ·)

omit [Ord κ] in
theorem keys_filterMapEntry_sublist (f : κ → β → Option γ) (l : List (κ × β)) :
    ((l.filterMap (filterMapEntry f)).map Prod.fst).Sublist (l.map Prod.fst) := by
  induction l with
  | nil => exact .slnil
  | cons e r ih =>
    cases h : f e.1 e.2 with
    | none => simpa [List.filterMap_cons, filterMapEntry, h] using ih.cons e.1
    | some c => simpa [List.filterMap_cons, filterMapEntry, h] using ih.cons_cons e.1

/-- Keeps the entries on which `f` gives a value, with that value. -/
def filterMap (f : κ → β → Option γ) (m : SortedMap κ β) : SortedMap κ γ :=
  ⟨m.entries.filterMap (filterMapEntry f), m.ascending.sublist (keys_filterMapEntry_sublist f _)⟩

/-- Keeps the entries that satisfy `p`. -/
def filter (p : κ → β → Bool) (m : SortedMap κ β) : SortedMap κ β :=
  m.filterMap fun k v => if p k v then some v else none

end SortedMap

/-- A finite set, as the list of its members in ascending order. -/
abbrev SortedSet (κ : Type u) [Ord κ] := SortedMap κ Unit

namespace SortedSet

variable {κ : Type u} [Ord κ] [Std.TransOrd κ] [Std.LawfulEqOrd κ]

/-- `s` with `k`. -/
def add (s : SortedSet κ) (k : κ) : SortedSet κ := s.insert k ()

/-- The set of the members of a list. -/
def ofList (l : List κ) : SortedSet κ := l.foldl add ∅

end SortedSet

end ObjectModel
