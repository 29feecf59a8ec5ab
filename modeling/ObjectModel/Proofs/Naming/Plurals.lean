import Mathlib.Data.String.Basic
import ObjectModel.Naming.Hardware
import ObjectModel.Proofs.Naming.FixedPoints

/-!
# Plurals

A list may be declared under the name of what is in it or under the plural of that. With its
plural it is named by what stands for the plural (`Naming.plural_append_s`). With the singular
it is named alike if the singular is regular. An irregular singular is looked up before the
plural is formed, and what stands for it may have a plural of its own
(`Naming.plural_singular`). Under the naming of hardware eight names are displaced in this way
(`Naming.displaced`), and no others (`Naming.accessorName_many_iff`).
-/

namespace ObjectModel

namespace Spelling

variable {c : Char} {raw : String}

/-- The name ends in a lower-case letter, but not in `s`. -/
def IsSingular (raw : String) : Prop :=
  ∃ c, raw.toList.getLast? = some c ∧ c.isLower = true ∧ c ≠ 's'

/-- A letter keeps apart what is before it and what is behind it; it may be raised itself. -/
theorem exists_pascalChars_append (hc : c.isLower = true) (start : Bool) (l : List Char) :
    ∃ x d, (d = c ∨ d = c.toUpper) ∧
      ∀ r, pascalChars start (l ++ c :: r) = x ++ d :: pascalChars false r := by
  induction l generalizing start with
  | nil =>
    refine ⟨[], if start then c.toUpper else c, ?_, fun r => ?_⟩
    · cases start
      · exact .inl rfl
      · exact .inr rfl
    · rw [List.nil_append, pascalChars, if_neg (ne_underscore_of_isLower hc),
        upperCase_of_isLower hc]
      cases start <;> rfl
  | cons a l ih =>
    by_cases ha : a = '_'
    · obtain ⟨x, d, hd, h⟩ := ih true
      exact ⟨x, d, hd, fun r => by rw [List.cons_append, pascalChars, if_pos ha, h]⟩
    · obtain ⟨x, d, hd, h⟩ := ih false
      refine ⟨(if start then upperCase a else [a]) ++ x, d, hd, fun r => ?_⟩
      rw [List.cons_append, pascalChars, if_neg ha, h, List.append_assoc]

/-- Capitals are put in before the plural is formed, or after. -/
theorem IsSingular.pascal_append (h : IsSingular raw) :
    pascal (raw ++ "s") = pascal raw ++ "s" := by
  obtain ⟨c, hlast, hc, -⟩ := h
  obtain ⟨l, hraw⟩ := List.getLast?_eq_some_iff.1 hlast
  obtain ⟨x, d, -, happend⟩ := exists_pascalChars_append hc true l
  have hsuffixed : (raw ++ "s").toList = l ++ c :: ['s'] := by
    rw [String.toList_append, hraw, List.append_assoc]
    rfl
  rw [← String.toList_inj, String.toList_append, pascal, hsuffixed, happend, String.toList_ofList,
    pascal, hraw, happend, String.toList_ofList, List.append_assoc]
  rfl

/-- Nor does it end in `s` when it is put in capitals. -/
theorem IsSingular.getLast?_pascal (h : IsSingular raw) :
    (pascal raw).toList.getLast? ≠ some 's' := by
  obtain ⟨c, hlast, hc, hs⟩ := h
  obtain ⟨l, hraw⟩ := List.getLast?_eq_some_iff.1 hlast
  obtain ⟨x, d, hd, happend⟩ := exists_pascalChars_append hc true l
  have hend : (pascal raw).toList.getLast? = some d := by
    rw [pascal, String.toList_ofList, hraw, happend, pascalChars, List.getLast?_concat]
  rw [hend, Ne, Option.some.injEq]
  rintro rfl
  obtain rfl | hupper := hd
  · exact hs rfl
  · have hcapital := isUpper_toUpper hc
    rw [← hupper] at hcapital
    cases hcapital

end Spelling

open Spelling

namespace Naming

variable {o : Overrides} {raw : String}

/-! ## Two ways to declare a list -/

/-- Under its plural, a list is named by what stands for the plural. -/
theorem plural_append_s (ho : o.Settled) (h : IsSingular raw) :
    plural o (raw ++ "s") .many = o.apply (pascal raw ++ "s") := by
  rw [plural_eq, h.pascal_append]
  have hlast : (pascal raw ++ "s").toList.getLast? = some 's' := by simp [String.toList_append]
  rw [suffixed]
  exact apply_suffixed_apply ho _ fun _ => hlast

/-- Under the singular it is named alike if the singular is regular. If it is not, then what
    stands for the singular is put in the plural. -/
theorem plural_singular (ho : o.Settled) (h : IsSingular raw) :
    plural o raw .many = match o.lookup (pascal raw) with
      | some value => o.apply (suffixed value .many)
      | none => plural o (raw ++ "s") .many := by
  rw [plural_append_s ho h, plural_eq]
  rcases hname : o.lookup (pascal raw) with _ | value
  · rw [Overrides.apply_of_not_lookup hname, suffixed, if_pos ⟨rfl, h.getLast?_pascal⟩]
  · rw [Overrides.apply_of_lookup hname]

/-! ## Lists of hardware -/

/-- Irregular singulars of hardware with a plural of their own, which is what a list is named
    by that is declared under the singular. -/
def displaced : Overrides := [
  ("AliasStmt", "Alias"),
  ("ProcessStmt", "Process"),
  ("ThreadObj", "Threads"),
  ("TfCall", "TFCalls"),
  ("DpiPure", "DPIPures"),
  ("DpiContext", "DPIContexts"),
  ("DpiCstr", "DPICStrs"),
  ("DpiCIdentifier", "DPICIdentifiers")]

/-- What stands for the singular is put in the plural that stands for the plural, unless the
    name is displaced. -/
theorem plural_of_irregular :
    ∀ entry ∈ hardware.accessors, entry.1.toList.getLast? ≠ some 's' →
      hardware.accessors.apply (suffixed entry.2 .many) =
        (displaced.lookup entry.1).getD (hardware.accessors.apply (entry.1 ++ "s")) := by
  decide +kernel

/-- None of the displaced names is regular, and none is named by its plural. -/
theorem displaced_irregular :
    ∀ entry ∈ displaced, hardware.accessors.lookup entry.1 ≠ none ∧
      entry.2 ≠ hardware.accessors.apply (entry.1 ++ "s") := by
  decide +kernel

/-- A list that is declared in the plural is named by it. -/
theorem accessorName_plural (h : IsSingular raw) :
    hardware.accessorName (raw ++ "s") .many = hardware.accessors.apply (pascal raw ++ "s") :=
  plural_append_s settled_hardware.2.1 h

/-- A list that is declared in the singular is named alike, unless the name is displaced. -/
theorem accessorName_singular (h : IsSingular raw) :
    hardware.accessorName raw .many =
      (displaced.lookup (pascal raw)).getD (hardware.accessorName (raw ++ "s") .many) := by
  rw [accessorName, plural_singular settled_hardware.2.1 h]
  rcases hname : hardware.accessors.lookup (pascal raw) with _ | value
  · rcases hdisplaced : displaced.lookup (pascal raw) with _ | other
    · rw [Option.getD_none, accessorName]
    · exact absurd hname (displaced_irregular _ (mem_of_lookup hdisplaced)).1
  · rw [accessorName_plural h]
    exact plural_of_irregular (pascal raw, value) (mem_of_lookup hname) h.getLast?_pascal

/-- Under the naming of hardware, a list that is declared under its plural is named by what
    stands for the plural. One that is declared under the singular is named alike, unless its
    name is displaced. -/
theorem accessorName_many_iff (h : IsSingular raw) :
    hardware.accessorName (raw ++ "s") .many = hardware.accessors.apply (pascal raw ++ "s") ∧
      hardware.accessorName raw .many =
        (displaced.lookup (pascal raw)).getD (hardware.accessorName (raw ++ "s") .many) ∧
      (hardware.accessorName raw .many = hardware.accessorName (raw ++ "s") .many ↔
        displaced.lookup (pascal raw) = none) := by
  refine ⟨accessorName_plural h, accessorName_singular h, ?_⟩
  rw [accessorName_singular h, accessorName_plural h]
  rcases hdisplaced : displaced.lookup (pascal raw) with _ | other
  · simp
  · simpa using (displaced_irregular _ (mem_of_lookup hdisplaced)).2

/-- An irregular plural, whichever way the list is declared. -/
theorem accessorName_many_iff_entries :
    IsSingular "table_entry" ∧ hardware.accessorName "table_entry" .many = "TableEntries" ∧
      hardware.accessorName "table_entrys" .many = "TableEntries" := by
  have hsingular : IsSingular "table_entry" := ⟨'y', by decide⟩
  have hregular : displaced.lookup (pascal "table_entry") = none := by decide +kernel
  have hplural : hardware.accessorName "table_entrys" .many = "TableEntries" := by decide +kernel
  have hsuffixed : "table_entry" ++ "s" = "table_entrys" := by decide +kernel
  have hsame := (accessorName_many_iff hsingular).2.2.2 hregular
  rw [hsuffixed, hplural] at hsame
  exact ⟨hsingular, hsame, hplural⟩

/-- The plural of a process is irregular, but so is the singular. It ends in `s` and passes for
    a plural. -/
theorem accessorName_many_ne :
    hardware.accessorName "process_stmt" .many = "Process" ∧
      hardware.accessorName "process_stmts" .many = "Processes" ∧
      ¬ ∀ raw, IsSingular raw →
        hardware.accessorName raw .many = hardware.accessorName (raw ++ "s") .many := by
  have hprocess : hardware.accessorName "process_stmt" .many = "Process" := by decide +kernel
  have hprocesses : hardware.accessorName "process_stmts" .many = "Processes" := by decide +kernel
  refine ⟨hprocess, hprocesses, fun h => ?_⟩
  have hsuffixed : "process_stmt" ++ "s" = "process_stmts" := by decide +kernel
  have hsame := h "process_stmt" ⟨'t', by decide⟩
  rw [hsuffixed, hprocess, hprocesses] at hsame
  exact absurd hsame (by decide)

end Naming

end ObjectModel
