import Mathlib.Data.List.Induction
import Mathlib.Data.List.Nodup
import ObjectModel.Proofs.SortedMap
import ObjectModel.Symbols

/-!
# Interning

As its index is in step with its texts, a table is told by its texts
(`SymbolTable.ext_texts`). However it came about by interning, these are different,
and none is empty (`SymbolTable.Proper`); so ids and texts stand for each other.
Interning the texts of such a table one after the other makes the same table again
(`SymbolTable.internAll_texts`).

Of texts that are not all different, each is entered where it comes first, and
the empty one is not entered at all (`SymbolTable.texts_internAll`). From then on,
ids are not positions any more (`SymbolTable.getElem?_eq_iff_of_resolve?`).
-/

namespace ObjectModel.SymbolTable

variable {t : SymbolTable} {s text : String} {texts : List String} {id k : Nat}

/-- A table is its list of texts, with which the index is kept in step. -/
theorem ext_texts {t u : SymbolTable} (h : t.texts = u.texts) : t = u := by
  have hindex : t.index = u.index := SortedMap.ext_get? fun text => by
    rw [t.indexed, u.indexed, h]
  cases t
  cases u
  cases h
  cases hindex
  rfl

/-- The texts are different, and none of them is empty. -/
structure Proper (texts : List String) : Prop where
  nodup : texts.Nodup
  nonempty : "" ∉ texts

theorem Proper.empty : Proper ({} : SymbolTable).texts := ⟨List.nodup_nil, List.not_mem_nil⟩

/-- The id of a text stands for it. -/
theorem resolve?_of_find? (h : t.find? text = some id) : t.resolve? id = some text := by
  rw [find?_eq] at h
  split at h
  · rename_i htext
    cases h
    rw [htext, resolve?]
  · obtain ⟨i, hi, rfl⟩ := Option.map_eq_some_iff.1 h
    obtain ⟨hlt, heq, -⟩ := List.idxOf?_eq_some_iff.1 hi
    rw [resolve?, List.getElem?_eq_getElem hlt, heq]

/-- Ids go no further than the number of texts. -/
theorem le_size_of_find? (h : t.find? text = some id) : id ≤ t.size := by
  rw [find?_eq] at h
  split at h
  · cases h
    exact Nat.zero_le _
  · obtain ⟨i, hi, rfl⟩ := Option.map_eq_some_iff.1 h
    obtain ⟨hlt, -⟩ := List.idxOf?_eq_some_iff.1 hi
    exact hlt

/-- All texts of a table have ids, and so has the empty one. -/
theorem exists_find? (h : text = "" ∨ text ∈ t.texts) : ∃ id, t.find? text = some id := by
  cases hfind : t.find? text with
  | some id => exact ⟨id, rfl⟩
  | none =>
    obtain ⟨hne, hmem⟩ := find?_eq_none.1 hfind
    exact absurd h (not_or.2 ⟨hne, hmem⟩)

/-! ## Interning -/

/-- Interning puts a text behind the others, if it is new and not empty. -/
theorem texts_intern : (t.intern text).2.texts =
    if text = "" ∨ text ∈ t.texts then t.texts else t.texts ++ [text] := by
  rw [intern]
  split
  · rename_i hfind
    rw [if_pos]
    by_contra h
    rw [not_or, ← ne_eq, ← find?_eq_none, hfind] at h
    cases h
  · rename_i hfind
    rw [if_neg (not_or.2 (find?_eq_none.1 hfind)), enter]

theorem mem_texts_intern : s ∈ (t.intern text).2.texts ↔ s ∈ t.texts ∨ s ≠ "" ∧ s = text := by
  rw [texts_intern]
  by_cases h : text = "" ∨ text ∈ t.texts
  · rw [if_pos h]
    refine ⟨.inl, ?_⟩
    rintro (hs | ⟨hne, rfl⟩)
    · exact hs
    · exact h.resolve_left hne
  · rw [if_neg h, List.mem_append, List.mem_singleton]
    refine or_congr_right ⟨?_, And.right⟩
    rintro rfl
    exact ⟨(not_or.1 h).1, rfl⟩

/-- Interning never enters a text twice, nor the empty one. -/
theorem Proper.intern (ht : Proper t.texts) : Proper (t.intern text).2.texts where
  nodup := by
    rw [texts_intern]
    split
    · exact ht.nodup
    · rename_i h
      exact List.concat_eq_append ▸ ht.nodup.concat (not_or.1 h).2
  nonempty := by
    rw [mem_texts_intern]
    rintro (h | ⟨h, -⟩)
    · exact ht.nonempty h
    · exact h rfl

theorem Proper.internAll (ht : Proper t.texts) (texts : List String) :
    Proper (t.internAll texts).texts := by
  induction texts generalizing t with
  | nil => exact ht
  | cons s texts ih => exact ih ht.intern

/-- After interning a list, a table has its texts in addition to what it had. -/
theorem mem_texts_internAll :
    s ∈ (t.internAll texts).texts ↔ s ∈ t.texts ∨ s ≠ "" ∧ s ∈ texts := by
  induction texts generalizing t with
  | nil => simp [internAll]
  | cons a texts ih =>
    rw [internAll, List.foldl_cons, ← internAll, ih, mem_texts_intern, or_assoc, ← and_or_left,
      List.mem_cons]

/-- Interning new texts one after the other lists them. -/
theorem internAll_append (ht : Proper (t.texts ++ texts)) :
    (t.internAll texts).texts = t.texts ++ texts := by
  induction texts generalizing t with
  | nil => exact (List.append_nil _).symm
  | cons a texts ih =>
    -- The first text is new, so interning it puts it behind the others.
    have hnew : ¬(a = "" ∨ a ∈ t.texts) := by
      rintro (rfl | ha)
      · exact ht.nonempty (List.mem_append_right _ List.mem_cons_self)
      · exact List.disjoint_of_nodup_append ht.nodup ha List.mem_cons_self
    have htexts : (t.intern a).2.texts = t.texts ++ [a] := by rw [texts_intern, if_neg hnew]
    have hsplit : t.texts ++ a :: texts = (t.intern a).2.texts ++ texts := by
      rw [htexts, List.append_assoc, List.singleton_append]
    rw [internAll, List.foldl_cons, ← internAll, hsplit]
    exact ih (hsplit ▸ ht)

/-- Interning the texts of a table makes the table. -/
theorem internAll_texts (ht : Proper t.texts) : internAll {} t.texts = t :=
  ext_texts (internAll_append ht)

/-! ## Ids and positions -/

theorem internAll_internAll (a b : List String) :
    (t.internAll a).internAll b = t.internAll (a ++ b) := List.foldl_append.symm

theorem texts_internAll_concat (texts : List String) (text : String) :
    (t.internAll (texts ++ [text])).texts =
      if text = "" ∨ text ∈ (t.internAll texts).texts then (t.internAll texts).texts
      else (t.internAll texts).texts ++ [text] := by
  rw [← internAll_internAll]
  exact texts_intern

/-- Each text is entered where it comes first, the empty one aside. -/
theorem texts_internAll (texts : List String) :
    (internAll {} texts).texts = (texts.filter (· ≠ "")).eraseDups := by
  induction texts using List.reverseRecOn with
  | nil => rfl
  | append_singleton texts a ih =>
    rw [texts_internAll_concat, List.filter_append, List.eraseDups_append]
    by_cases ha : a = ""
    · simp [ha, ih, List.removeAll]
    · by_cases hold : a ∈ texts
      · simp [ha, hold, ih, List.removeAll]
      · simp [ha, hold, ih, List.removeAll, List.eraseDups_cons]

/-- Interning moves no text. -/
theorem prefix_internAll : t.texts <+: (t.internAll texts).texts := by
  induction texts generalizing t with
  | nil => exact List.prefix_rfl
  | cons a texts ih =>
    refine List.IsPrefix.trans ?_ ih
    rw [texts_intern]
    split
    · exact List.prefix_rfl
    · exact List.prefix_append _ _

/-- No more texts are entered than are interned. -/
theorem length_internAll_le (texts : List String) :
    (t.internAll texts).texts.length ≤ t.texts.length + texts.length := by
  induction texts generalizing t with
  | nil => exact Nat.le_refl _
  | cons a texts ih =>
    have hle : ((t.intern a).2.internAll texts).texts.length ≤ _ := ih
    rw [texts_intern] at hle
    refine Nat.le_trans hle ?_
    split
    · exact Nat.add_le_add_left (Nat.le_succ _) _
    · simp only [List.length_append, List.length_cons, List.length_nil]
      omega

/-- If as many texts are entered as there are, then all of them are new. -/
theorem Proper.append_of_length (ht : Proper t.texts)
    (h : t.texts.length + texts.length ≤ (t.internAll texts).texts.length) :
    Proper (t.texts ++ texts) := by
  induction texts generalizing t with
  | nil => rwa [List.append_nil]
  | cons a texts ih =>
    have hle : ((t.intern a).2.internAll texts).texts.length ≤ _ := length_internAll_le texts
    have htexts : (t.intern a).2.texts = _ := texts_intern
    rw [List.length_cons] at h
    change _ ≤ ((t.intern a).2.internAll texts).texts.length at h
    split at htexts
    · rw [htexts] at hle
      omega
    · have hproper := ih ht.intern (by
        rw [htexts, List.length_append, List.length_singleton]
        omega)
      rwa [htexts, List.append_assoc] at hproper

/-- What has been entered of the first texts is what comes first in the table. -/
theorem texts_internAll_take (texts : List String) (n : Nat) :
    (internAll {} (texts.take n)).texts <+: (internAll {} texts).texts := by
  have hall := internAll_internAll (t := {}) (texts.take n) (texts.drop n)
  rw [List.take_append_drop] at hall
  exact hall ▸ prefix_internAll

/-- If the text of an id is the one at that position, then all texts up to there
    are new when they are entered. -/
theorem proper_take_of_resolve? (h : (internAll {} texts).resolve? (k + 1) = some s)
    (hs : texts[k]? = some s) : Proper (texts.take (k + 1)) := by
  have hproper := Proper.empty.internAll texts
  let old := (internAll {} (texts.take k)).texts
  have hold : old <+: (internAll {} texts).texts := texts_internAll_take texts k
  have hle : old.length ≤ (texts.take k).length := by
    simpa using length_internAll_le (t := {}) (texts.take k)
  have hk : (texts.take k).length = k :=
    List.length_take_of_le (Nat.le_of_lt (List.getElem?_eq_some_iff.1 hs).1)
  -- The text is in no other place of the table.
  have honly {j : Nat} (hj : (internAll {} texts).texts[j]? = some s) : j = k :=
    (List.getElem?_inj (List.getElem?_eq_some_iff.1 hj).1 hproper.nodup).1 (hj.trans h.symm)
  have hnew : ¬(s = "" ∨ s ∈ old) := by
    rintro (rfl | hmem)
    · exact hproper.nonempty (List.mem_of_getElem? h)
    · obtain ⟨j, hj, rfl⟩ := List.getElem_of_mem hmem
      have hjk := honly (List.prefix_iff_getElem?.1 hold j hj)
      omega
  have htake : texts.take (k + 1) = texts.take k ++ [s] := by
    rw [List.take_add_one, hs]
    rfl
  have htexts : (internAll {} (texts.take (k + 1))).texts = old ++ [s] := by
    rw [htake, texts_internAll_concat, if_neg hnew]
  have hlength : old.length = k := by
    have hnext := texts_internAll_take texts (k + 1)
    rw [htexts] at hnext
    have hlast := List.prefix_iff_getElem?.1 hnext old.length (by simp)
    exact honly (by simpa using hlast)
  refine Proper.empty.append_of_length ?_
  rw [htexts, htake]
  simp [hlength, hk]

/-- Texts that are all new when they are entered have ids by position. -/
theorem getElem?_of_resolve? (h : (internAll {} texts).resolve? (k + 1) = some s)
    (hnew : Proper (texts.take (k + 1))) : texts[k]? = some s := by
  have heq : (internAll {} (texts.take (k + 1))).texts = texts.take (k + 1) :=
    internAll_append hnew
  have hprefix := texts_internAll_take texts (k + 1)
  rw [heq] at hprefix
  rcases Nat.lt_or_ge k texts.length with hk | hk
  · have hlt : k < (texts.take (k + 1)).length := by
      rw [List.length_take]
      omega
    have hentry := List.prefix_iff_getElem?.1 hprefix k hlt
    rw [List.getElem_take] at hentry
    rw [List.getElem?_eq_getElem hk, ← hentry]
    exact h
  · -- There are no more texts, so there is no such id.
    rw [List.take_of_length_le (Nat.le_succ_of_le hk)] at heq
    rwa [resolve?, heq] at h

/-- An id is the position of its text in the list that was interned just if all
    texts up to it are different and not empty. -/
theorem getElem?_eq_iff_of_resolve? (h : (internAll {} texts).resolve? (k + 1) = some s) :
    texts[k]? = some s ↔ Proper (texts.take (k + 1)) :=
  ⟨proper_take_of_resolve? h, getElem?_of_resolve? h⟩

end ObjectModel.SymbolTable
