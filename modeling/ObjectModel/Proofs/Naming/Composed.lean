import Mathlib.Data.List.Nodup
import Mathlib.Data.String.Basic
import ObjectModel.Naming.Spelling

/-!
# Composed names

The names of generated functions are composed from stems: a getter is called like
its stem, escaped if that is a keyword; others are marked by a prefix or a suffix.
Escaping keeps names apart, except that one may be the escaped spelling of another
(`Spelling.escape_eq_iff`). It leads to no name with such a prefix or suffix except
from that name itself (`Spelling.escape_eq_prefixed`, `Spelling.escape_eq_suffixed`).
-/

namespace ObjectModel.Spelling

variable {a c name pre : String}

/-- All keywords. -/
def keywords : List String := reservedKeywords ++ rawKeywords

theorem escape_of_not_mem (h : a ∉ keywords) : escape a = a := by
  rw [keywords, List.mem_append, not_or] at h
  rw [escape, if_neg h.1, if_neg h.2]

theorem mem_keywords_of_escape (h : escape a ≠ a) : a ∈ keywords :=
  by_contra fun hnot => h (escape_of_not_mem hnot)

/-- Among keywords, and between them and their escaped spellings, nothing is mixed
    up. -/
theorem escape_keywords : (∀ k ∈ keywords, escape k ∉ keywords) ∧
    (keywords.map escape).Nodup := by decide +kernel

theorem escape_escape : escape (escape a) = escape a := by
  by_cases ha : a ∈ keywords
  · exact escape_of_not_mem (escape_keywords.1 a ha)
  · rw [escape_of_not_mem ha, escape_of_not_mem ha]

/-- Two names are escaped alike only if one is the escaped spelling of the other. -/
theorem escape_eq_iff : escape a = escape c ↔ a = c ∨ escape a = c ∨ a = escape c := by
  constructor
  · intro h
    by_cases ha : a ∈ keywords
    · by_cases hc : c ∈ keywords
      · exact .inl (List.inj_on_of_nodup_map escape_keywords.2 ha hc h)
      · exact .inr (.inl (h.trans (escape_of_not_mem hc)))
    · exact .inr (.inr ((escape_of_not_mem ha).symm.trans h))
  · rintro (rfl | rfl | rfl)
    · rfl
    · exact escape_escape.symm
    · exact escape_escape

/-- Where names are different, so are their escaped spellings just if none of these is
    the name of something else. -/
theorem nodup_map_escape_iff {α : Type} {l : List α} {name : α → String}
    (hl : (l.map name).Nodup) : (l.map fun x => escape (name x)).Nodup ↔
      ∀ x ∈ l, ∀ y ∈ l, escape (name x) = name y → name x = name y := by
  constructor
  · intro hescaped x hx y hy h
    -- Both are escaped to the name of `y`, as there is nothing left to escape.
    have hsame : escape (name x) = escape (name y) :=
      escape_escape.symm.trans (congrArg escape h)
    rw [List.inj_on_of_nodup_map hescaped hx hy hsame]
  · intro hother
    refine .map_on (fun x hx y hy h => List.inj_on_of_nodup_map hl hx hy ?_) (.of_map _ hl)
    rcases escape_eq_iff.1 h with h | h | h
    · exact h
    · exact hother x hx y hy h
    · exact (hother y hy x hx h.symm).symm

/-- A name that is neither a keyword nor the escaped spelling of one is come to from
    itself only. -/
theorem escape_eq_iff_of_plain (h : ∀ k ∈ keywords, k ≠ name ∧ escape k ≠ name) :
    escape a = name ↔ a = name := by
  constructor
  · intro heq
    by_cases ha : a ∈ keywords
    · exact absurd heq (h a ha).2
    · exact (escape_of_not_mem ha).symm.trans heq
  · rintro rfl
    exact escape_of_not_mem fun ha => (h a ha).1 rfl

/-- Nothing is escaped to a name with a prefix that no keyword has. -/
theorem escape_eq_prefixed
    (hpre : ∀ k ∈ keywords, ¬ pre.toList <+: k.toList ∧ ¬ pre.toList <+: (escape k).toList) :
    escape a = pre ++ c ↔ a = pre ++ c := by
  have hprefix : pre.toList <+: (pre ++ c).toList := by
    rw [String.toList_append]
    exact List.prefix_append _ _
  refine escape_eq_iff_of_plain fun k hk => ⟨fun h => ?_, fun h => ?_⟩
  · exact (hpre k hk).1 (h ▸ hprefix)
  · exact (hpre k hk).2 (h ▸ hprefix)

/-- The suffix of functions that give access to a list. -/
theorem escape_eq_suffixed : escape a = c ++ "_mut" ↔ a = c ++ "_mut" := by
  have hkeywords : ∀ k ∈ keywords,
      ¬ "_mut".toList <:+ k.toList ∧ ¬ "_mut".toList <:+ (escape k).toList := by decide +kernel
  have hsuffix : "_mut".toList <:+ (c ++ "_mut").toList := by
    rw [String.toList_append]
    exact List.suffix_append _ _
  refine escape_eq_iff_of_plain fun k hk => ⟨fun h => ?_, fun h => ?_⟩
  · exact (hkeywords k hk).1 (h ▸ hsuffix)
  · exact (hkeywords k hk).2 (h ▸ hsuffix)

/-! ## Prefixes -/

/-- What follows `pre` in a text. -/
def strip (pre text : String) : Option String :=
  (pre.toList.isPrefixOf? text.toList).map String.ofList

/-- What is left without a prefix is what follows it. -/
theorem strip_eq_some : strip pre name = some c ↔ pre ++ c = name := by
  rw [strip, Option.map_eq_some_iff, ← String.toList_inj, String.toList_append]
  simp only [List.isPrefixOf?_eq_some_iff_append_eq]
  constructor
  · rintro ⟨l, hl, rfl⟩
    rwa [String.toList_ofList]
  · exact fun h => ⟨c.toList, h, String.ofList_toList⟩

theorem append_mem_iff {l : List String} : pre ++ c ∈ l ↔ c ∈ l.filterMap (strip pre) := by
  simp only [List.mem_filterMap, strip_eq_some, exists_eq_right']

end ObjectModel.Spelling
