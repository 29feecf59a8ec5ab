import Mathlib.Data.List.Sort
import Mathlib.Data.Set.Function
import ObjectModel.Archive.Save
import ObjectModel.Proofs.Graph.Renaming

/-!
# Numbering objects anew

In an archive, objects are numbered within each tag, in the order in which they
are saved (`renumber`). As that is the order of references, the new numbers
follow the order of the old ones, and the objects in their new order are, tag
by tag, those from the first to the last (`map_renumber`). Numbering objects
that are numbered already changes nothing (`archiveIndex?_map_renumber`).
-/

namespace ObjectModel

open Ref (Before)

/-- The place of an object among those of its tag. -/
def renumber (objects : List Ref) (r : Ref) : Ref :=
  ⟨r.tag, (objects.filter (·.tag == r.tag)).idxOf r⟩

variable {objects : List Ref} {r s : Ref} {tag i : Nat}

@[simp]
theorem tag_renumber : (renumber objects r).tag = r.tag := rfl

theorem mem_filter_tag : r ∈ objects.filter (·.tag == tag) ↔ r ∈ objects ∧ r.tag = tag := by
  rw [List.mem_filter, beq_iff_eq]

/-- What is written for an object is its new number. -/
theorem archiveIndex?_eq_some (hr : r ∈ objects) :
    archiveIndex? objects r = some ((renumber objects r).index + 1) := by
  have hmem : r ∈ objects.filter (·.tag == r.tag) := mem_filter_tag.2 ⟨hr, rfl⟩
  obtain ⟨i, hi⟩ := Option.isSome_iff_exists.1 (List.isSome_idxOf?.2 hmem)
  rw [archiveIndex?, renumber, List.idxOf_eq_getD_idxOf?, hi]
  rfl

theorem index_renumber_lt (hr : r ∈ objects) :
    (renumber objects r).index < objects.countP (·.tag == r.tag) := by
  rw [List.countP_eq_length_filter]
  exact List.idxOf_lt_length_of_mem (mem_filter_tag.2 ⟨hr, rfl⟩)

theorem getElem?_renumber (hr : r ∈ objects) :
    (objects.filter (·.tag == r.tag))[(renumber objects r).index]? = some r :=
  List.getElem?_idxOf (mem_filter_tag.2 ⟨hr, rfl⟩)

/-- Objects have different new numbers. -/
theorem renumber_injOn : Set.InjOn (renumber objects) {r | r ∈ objects} := by
  intro r hr s hs h
  have htag := congrArg Ref.tag h
  rw [tag_renumber, tag_renumber] at htag
  have hrs := getElem?_renumber hr
  rw [htag, h, getElem?_renumber hs] at hrs
  exact (Option.some.inj hrs).symm

section

variable (hsorted : objects.Pairwise Before)

include hsorted

/-- Numbers follow the order of objects. -/
theorem renumber_before (hr : r ∈ objects) (hs : s ∈ objects) (h : r.Before s) :
    (renumber objects r).Before (renumber objects s) := by
  rcases h with h | ⟨htag, hindex⟩
  · exact .inl h
  · refine .inr ⟨htag, ?_⟩
    have hr' := getElem?_renumber hr
    have hs' := getElem?_renumber hs
    rw [htag] at hr'
    obtain ⟨hi, hr'⟩ := List.getElem?_eq_some_iff.1 hr'
    obtain ⟨hj, hs'⟩ := List.getElem?_eq_some_iff.1 hs'
    have hpairs := List.pairwise_iff_getElem.1 (hsorted.filter (·.tag == s.tag))
    -- Were the places the other way round, or one, so would the objects be.
    by_contra hle
    rcases Nat.lt_or_eq_of_le (Nat.le_of_not_lt hle) with hlt | heq
    · have hbefore := hpairs _ _ hj hi hlt
      rw [hr', hs'] at hbefore
      rcases hbefore with h | ⟨-, h⟩ <;> omega
    · simp only [← heq] at hr'
      rw [hs'] at hr'
      exact Nat.lt_irrefl _ (hr' ▸ hindex)

/-- The new number of an object is its place among those of its tag. -/
theorem renumber_eq (h : (objects.filter (·.tag == tag))[i]? = some r) :
    renumber objects r = ⟨tag, i⟩ := by
  obtain ⟨hi, rfl⟩ := List.getElem?_eq_some_iff.1 h
  have htag := (mem_filter_tag.1 (List.getElem_mem hi)).2
  rw [renumber, htag]
  exact congrArg _ ((hsorted.filter _).nodup.idxOf_getElem _ hi)

/-- Each number below that of the objects of a tag is given to one of them. -/
theorem exists_renumber_eq (hi : i < objects.countP (·.tag == tag)) :
    ∃ r ∈ objects, renumber objects r = ⟨tag, i⟩ := by
  rw [List.countP_eq_length_filter] at hi
  exact ⟨_, (mem_filter_tag.1 (List.getElem_mem hi)).1,
    renumber_eq hsorted (List.getElem?_eq_getElem hi)⟩

/-- Renumbered objects are in order. -/
theorem sorted_map_renumber : (objects.map (renumber objects)).Pairwise Before := by
  rw [List.pairwise_map]
  exact hsorted.imp_of_mem fun hr hs h => renumber_before hsorted hr hs h

/-- Tag by tag, the renumbered objects are those from the first to the last. -/
theorem map_renumber {tags : List Nat} (htags : tags.Pairwise (· < ·))
    (hmem : ∀ r ∈ objects, r.tag ∈ tags) :
    objects.map (renumber objects) = tags.flatMap fun tag =>
      (List.range (objects.countP (·.tag == tag))).map (⟨tag, ·⟩) := by
  -- Both lists are in order, so it is enough that they have the same elements.
  refine (sorted_map_renumber hsorted).eq_of_mem_iff ?_ fun s => ?_
  · rw [List.pairwise_flatMap]
    refine ⟨fun tag _ => ?_, htags.imp fun hlt => ?_⟩
    · rw [List.pairwise_map]
      exact List.pairwise_lt_range.imp fun h => .inr ⟨rfl, h⟩
    · simp only [List.forall_mem_map]
      exact fun _ _ _ _ => .inl hlt
  · simp only [List.mem_map, List.mem_flatMap, List.mem_range]
    constructor
    · rintro ⟨r, hr, rfl⟩
      exact ⟨r.tag, hmem r hr, _, index_renumber_lt hr, rfl⟩
    · rintro ⟨tag, -, i, hi, rfl⟩
      exact exists_renumber_eq hsorted hi

/-- Renumbered objects keep their numbers. -/
theorem archiveIndex?_map_renumber (hr : r ∈ objects) :
    archiveIndex? (objects.map (renumber objects)) (renumber objects r) =
      archiveIndex? objects r := by
  have hget : ((objects.map (renumber objects)).filter
      (·.tag == r.tag))[(renumber objects r).index]? = some (renumber objects r) := by
    rw [List.filter_map, List.getElem?_map]
    exact congrArg _ (getElem?_renumber hr)
  rw [archiveIndex?_eq_some (List.mem_map_of_mem hr), archiveIndex?_eq_some hr,
    renumber_eq (sorted_map_renumber hsorted) hget]

end

/-! ## Texts -/

section

variable {f : Ref → Ref} {o : Object}

/-- The texts of an object are its file and its values that are texts. -/
theorem Object.mem_texts {s : String} : s ∈ o.texts ↔ s = o.header.file ∨ .text s ∈ o.values := by
  rw [texts, List.mem_cons, List.mem_filterMap]
  refine or_congr_right ⟨?_, fun hs => ⟨_, hs, rfl⟩⟩
  rintro ⟨v, hv, h⟩
  cases v with
  | text s => cases h; exact hv
  | _ => cases h

/-- Renaming references leaves texts alone. -/
theorem Object.texts_map : (o.map f).texts = o.texts := by
  simp only [texts, Object.map, Header.map, List.filterMap_map]
  congr 2
  funext v
  cases v <;> rfl

end

end ObjectModel
