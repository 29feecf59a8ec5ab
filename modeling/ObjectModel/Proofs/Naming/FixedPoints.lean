import Mathlib.Data.Char
import Mathlib.Data.String.Basic
import ObjectModel.Naming.Hardware
import ObjectModel.Proofs.Naming.Canonical

/-!
# Names that are derived already

A name in ASCII is in capitals if it has no underscores and starts with no lower-case letter
(`Spelling.InCapitals`). Putting it in capitals again leaves it as it is, also if its first
letter was lowered in between (`Spelling.InCapitals.pascal_lowerFirst`). Irregular names are
settled if what stands for them is in capitals, is not irregular again, and has no other
plural than itself (`Overrides.Settled`). Then what is derived from a derived name is this
name (`Naming.plural_of_pascal`), and so it is under the naming of hardware
(`Naming.derived_hardware`).
-/

namespace ObjectModel

namespace Spelling

/-! ## Letters -/

/-- What holds of each of the first 128 characters holds of whatever is in ASCII. -/
theorem forall_ascii {P : Char → Prop} (h : ∀ i : Fin 128, P (Char.ofNat (0 + i))) {c : Char}
    (hc : c.toNat < 128) : P c :=
  forall_among h (Nat.zero_le _) (Nat.zero_add 128 ▸ hc)

/-- A character of names that are put in capitals. -/
def IsPlain (c : Char) : Prop := c.toNat < 128 ∧ c ≠ '_'

instance : DecidablePred IsPlain := fun _ => inferInstanceAs (Decidable (_ ∧ _))

variable {c : Char} {l r : List Char} {name raw : String}

theorem isPlain_toUpper (hc : IsPlain c) : IsPlain c.toUpper ∧ c.toUpper.isLower = false :=
  forall_ascii (P := fun c => c ≠ '_' → IsPlain c.toUpper ∧ c.toUpper.isLower = false)
    (by decide +kernel) hc.1 hc.2

theorem isPlain_toLower (hc : IsPlain c) : IsPlain c.toLower :=
  forall_ascii (P := fun c => c ≠ '_' → IsPlain c.toLower) (by decide +kernel) hc.1 hc.2

theorem toUpper_of_not_isLower (hc : c.toNat < 128) (hlower : c.isLower = false) :
    c.toUpper = c ∧ c.toLower.toUpper = c :=
  forall_ascii (P := fun c => c.isLower = false → c.toUpper = c ∧ c.toLower.toUpper = c)
    (by decide +kernel) hc hlower

/-! ## Names in capitals -/

/-- No underscores, and no lower-case letter in front. -/
def InCapitals : List Char → Prop
  | [] => False
  | c :: r => c.isLower = false ∧ ∀ x ∈ c :: r, IsPlain x

instance : DecidablePred InCapitals
  | [] => .isFalse id
  -- The letters of the name are gone through, and not all characters that there are.
  | _ :: _ => @instDecidableAnd _ _ inferInstance (List.decidableBAll IsPlain _)

/-- Where no underscore stands, letters are left as they are. -/
theorem pascalChars_plain (hr : ∀ x ∈ r, IsPlain x) : pascalChars false r = r := by
  induction r with
  | nil => rfl
  | cons x r ih =>
    obtain ⟨hx, hr⟩ := List.forall_mem_cons.1 hr
    rw [pascalChars, if_neg hx.2, ih hr]
    rfl

theorem pascalChars_raised (hc : IsPlain c) (hr : ∀ x ∈ r, IsPlain x) :
    pascalChars true (c :: r) = c.toUpper :: r := by
  rw [pascalChars, if_neg hc.2, if_pos rfl, pascalChars_plain hr, upperCase, if_pos hc.1]
  rfl

/-- Only underscores are dropped, and what is raised stays in ASCII. -/
theorem isPlain_of_mem_pascalChars {start : Bool} (hl : ∀ x ∈ l, x.toNat < 128) :
    ∀ x ∈ pascalChars start l, IsPlain x := by
  induction l generalizing start with
  | nil => exact fun x hx => absurd hx List.not_mem_nil
  | cons c l ih =>
    obtain ⟨hc, hl⟩ := List.forall_mem_cons.1 hl
    rw [pascalChars]
    split
    · exact ih hl
    · rename_i hne
      refine List.forall_mem_append.2 ⟨?_, ih hl⟩
      cases start with
      | true =>
        rw [if_pos rfl, upperCase, if_pos hc]
        exact List.forall_mem_singleton.2 (isPlain_toUpper ⟨hc, hne⟩).1
      | false => exact List.forall_mem_singleton.2 ⟨hc, hne⟩

/-- The underscores in front are passed over, and the first other character is raised. -/
theorem inCapitals_pascalChars (hl : ∀ x ∈ l, x.toNat < 128) (hname : ∃ x ∈ l, x ≠ '_') :
    InCapitals (pascalChars true l) := by
  have hplain : ∀ x ∈ pascalChars true l, IsPlain x := isPlain_of_mem_pascalChars hl
  induction l with
  | nil => simp at hname
  | cons c l ih =>
    rw [pascalChars] at hplain ⊢
    split
    · rename_i hc
      rw [if_pos hc] at hplain
      refine ih (List.forall_mem_cons.1 hl).2 ?_ hplain
      simpa [hc] using hname
    · rename_i hc
      have hascii := (List.forall_mem_cons.1 hl).1
      rw [if_neg hc, if_pos rfl, upperCase, if_pos hascii] at hplain
      rw [if_pos rfl, upperCase, if_pos hascii]
      exact ⟨(isPlain_toUpper ⟨hascii, hc⟩).2, hplain⟩

theorem inCapitals_pascal (hraw : ∀ c ∈ raw.toList, c.toNat < 128)
    (hname : ∃ c ∈ raw.toList, c ≠ '_') : InCapitals (pascal raw).toList := by
  rw [pascal, String.toList_ofList]
  exact inCapitals_pascalChars hraw hname

theorem InCapitals.exists_cons (h : InCapitals l) : ∃ c r, l = c :: r ∧ c.isLower = false ∧
    IsPlain c ∧ ∀ x ∈ r, IsPlain x := by
  cases l with
  | nil => exact h.elim
  | cons c r => exact ⟨c, r, rfl, h.1, List.forall_mem_cons.1 h.2⟩

theorem InCapitals.pascal (h : InCapitals name.toList) : pascal name = name := by
  obtain ⟨c, r, hname, hlower, hc, hr⟩ := h.exists_cons
  rw [← String.toList_inj, Spelling.pascal, String.toList_ofList, hname, pascalChars_raised hc hr,
    (toUpper_of_not_isLower hc.1 hlower).1]

/-- Lowering the first letter is undone. -/
theorem InCapitals.pascal_lowerFirst (h : InCapitals name.toList) :
    Spelling.pascal (lowerFirst name) = name := by
  obtain ⟨c, r, hname, hlower, hc, hr⟩ := h.exists_cons
  rw [← String.toList_inj, Spelling.pascal, String.toList_ofList, lowerFirst, hname]
  dsimp only
  rw [lowerCase, if_pos hc.1, String.toList_ofList, List.singleton_append,
    pascalChars_raised (isPlain_toLower hc) hr, (toUpper_of_not_isLower hc.1 hlower).2]

theorem InCapitals.append (h : InCapitals l) (hr : ∀ x ∈ r, IsPlain x) : InCapitals (l ++ r) := by
  obtain ⟨c, l, rfl, hlower, hc, hl⟩ := h.exists_cons
  exact ⟨hlower, List.forall_mem_append.2 ⟨List.forall_mem_cons.2 ⟨hc, hl⟩, hr⟩⟩

end Spelling

open Spelling

/-! ## Irregular names -/

namespace Overrides

/-- What stands for an irregular name is in capitals and regular itself. If it stands for a
    plural, then it ends in `s`, or else its own plural is irregular and it stands for that
    too. -/
def Settled (o : Overrides) : Prop :=
  ∀ entry ∈ o, InCapitals entry.2.toList ∧ o.lookup entry.2 = none ∧
    (entry.1.toList.getLast? = some 's' →
      entry.2.toList.getLast? = some 's' ∨ o.lookup (entry.2 ++ "s") = some entry.2)

instance : DecidablePred Settled := fun o => inferInstanceAs (Decidable (∀ entry ∈ o, _))

variable {o : Overrides} {name value : String}

theorem apply_of_lookup (h : o.lookup name = some value) : o.apply name = value := by
  rw [apply, h, Option.getD_some]

theorem apply_of_not_lookup (h : o.lookup name = none) : o.apply name = name := by
  rw [apply, h, Option.getD_none]

/-- Names in capitals stay so, irregular or not. -/
theorem Settled.inCapitals (ho : o.Settled) (h : InCapitals name.toList) :
    InCapitals (o.apply name).toList := by
  rcases hname : o.lookup name with _ | value
  · rwa [apply_of_not_lookup hname]
  · rw [apply_of_lookup hname]
    exact (ho _ (Naming.mem_of_lookup hname)).1

/-- What is looked up is not irregular any more. -/
theorem Settled.lookup_apply (ho : o.Settled) (name : String) :
    o.lookup (o.apply name) = none := by
  rcases hname : o.lookup name with _ | value
  · rwa [apply_of_not_lookup hname]
  · rw [apply_of_lookup hname]
    exact (ho _ (Naming.mem_of_lookup hname)).2.1

theorem Settled.apply_apply (ho : o.Settled) (name : String) :
    o.apply (o.apply name) = o.apply name :=
  apply_of_not_lookup (ho.lookup_apply name)

end Overrides

namespace Naming

variable {o : Overrides} {raw : String} {card : Cardinality}

/-! ## Derived names -/

/-- The name with the `s` of the plural, where that is called for. -/
def suffixed (name : String) (card : Cardinality) : String :=
  if card = .many ∧ name.toList.getLast? ≠ some 's' then name ++ "s" else name

theorem plural_eq (o : Overrides) (raw : String) (card : Cardinality) :
    plural o raw card = o.apply (suffixed (o.apply (pascal raw)) card) := rfl

/-- A plural ends in an s. -/
theorem getLast?_suffixed_many (name : String) :
    (suffixed name .many).toList.getLast? = some 's' := by
  rw [suffixed]
  split
  · simp [String.toList_append]
  · rename_i h
    simpa using h

/-- After the plural is formed and looked up, it is the same as before. -/
theorem apply_suffixed_apply (ho : o.Settled) (name : String)
    (hname : card = .many → name.toList.getLast? = some 's') :
    o.apply (suffixed (o.apply name) card) = o.apply name := by
  rw [suffixed]
  split
  · rename_i hcard
    obtain ⟨hmany, hlast⟩ := hcard
    -- An irregular name stands here, as the regular one ends in `s`.
    rcases hlookup : o.lookup name with _ | value
    · rw [Overrides.apply_of_not_lookup hlookup] at hlast
      exact absurd (hname hmany) hlast
    · rw [Overrides.apply_of_lookup hlookup] at hlast ⊢
      have hsettled := (ho _ (mem_of_lookup hlookup)).2.2 (hname hmany)
      exact Overrides.apply_of_lookup (hsettled.resolve_left hlast)
  · exact ho.apply_apply name

/-- Plurals are in capitals. -/
theorem inCapitals_plural (ho : o.Settled) (h : InCapitals (pascal raw).toList)
    (card : Cardinality) : InCapitals (plural o raw card).toList := by
  rw [plural_eq]
  refine ho.inCapitals ?_
  rw [suffixed]
  split
  · rw [String.toList_append]
    exact (ho.inCapitals h).append (by simp [IsPlain])
  · exact ho.inCapitals h

/-- The plural of what is in the plural is the name itself, and so is the singular of what is
    in the singular, in whatever way the name is spelt. -/
theorem plural_of_pascal (ho : o.Settled) {name : String}
    (hname : pascal name = plural o raw card) :
    plural o name card = plural o raw card := by
  have hregular : o.apply (plural o raw card) = plural o raw card := by
    rw [plural_eq]
    exact ho.apply_apply _
  rw [plural_eq, hname, hregular]
  conv_lhs => rw [plural_eq]
  rw [apply_suffixed_apply ho, plural_eq]
  rintro rfl
  exact getLast?_suffixed_many _

variable {n : Naming}

theorem className_className (hn : n.classes.Settled) (h : InCapitals (pascal raw).toList) :
    n.className (n.className raw) = n.className raw := by
  have hcapitals : InCapitals (n.className raw).toList := hn.inCapitals h
  rw [className, hcapitals.pascal, className]
  exact hn.apply_apply _

theorem accessorName_accessorName (hn : n.accessors.Settled)
    (h : InCapitals (pascal raw).toList) :
    n.accessorName (n.accessorName raw card) card = n.accessorName raw card :=
  plural_of_pascal hn (inCapitals_plural hn h card).pascal

theorem memberName_memberName (hn : n.members.Settled) (h : InCapitals (pascal raw).toList) :
    n.memberName (n.memberName raw card) card = n.memberName raw card := by
  have hname : pascal (n.memberName raw card) = plural n.members raw card :=
    (inCapitals_plural hn h card).pascal_lowerFirst
  rw [memberName, plural_of_pascal hn hname, memberName]

/-- The irregular names of hardware are settled. -/
theorem settled_hardware :
    hardware.classes.Settled ∧ hardware.accessors.Settled ∧ hardware.members.Settled := by
  decide +kernel

/-- Under the naming of hardware, deriving a name from a derived name changes nothing. -/
theorem derived_hardware (hraw : ∀ c ∈ raw.toList, c.toNat < 128)
    (hname : ∃ c ∈ raw.toList, c ≠ '_') (card : Cardinality) :
    hardware.className (hardware.className raw) = hardware.className raw ∧
      hardware.accessorName (hardware.accessorName raw card) card =
        hardware.accessorName raw card ∧
      hardware.memberName (hardware.memberName raw card) card = hardware.memberName raw card := by
  have hcapitals := inCapitals_pascal hraw hname
  obtain ⟨hclasses, haccessors, hmembers⟩ := settled_hardware
  exact ⟨className_className hclasses hcapitals, accessorName_accessorName haccessors hcapitals,
    memberName_memberName hmembers hcapitals⟩

/-- The plural of children is irregular: its `s` is put on, and taken off again, each time. -/
theorem derived_hardware_children :
    (∀ c ∈ "_children".toList, c.toNat < 128) ∧ (∃ c ∈ "_children".toList, c ≠ '_') ∧
      hardware.accessorName "_children" .many = "Children" ∧
      hardware.className "Children" = "Children" ∧
      hardware.accessorName "Children" .many = "Children" ∧
      hardware.memberName "children" .many = "children" := by
  have hraw : ∀ c ∈ "_children".toList, c.toNat < 128 := by simp
  have hname : ∃ c ∈ "_children".toList, c ≠ '_' := by simp
  have hclass : hardware.className "_children" = "Children" := by decide +kernel
  have haccessor : hardware.accessorName "_children" .many = "Children" := by decide +kernel
  have hmember : hardware.memberName "_children" .many = "children" := by decide +kernel
  have hderived := derived_hardware hraw hname .many
  rw [hclass, haccessor, hmember] at hderived
  exact ⟨hraw, hname, haccessor, hderived⟩

/-- From underscores alone nothing is left but the `s` of a plural, which is taken for a name
    the next time. -/
example : hardware.accessorName "_" .many = "s" ∧ hardware.accessorName "s" .many = "Ss" := by
  decide +kernel

end Naming

end ObjectModel
