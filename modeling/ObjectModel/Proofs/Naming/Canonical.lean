import Mathlib.Data.String.Basic
import ObjectModel.Naming.Hardware
import ObjectModel.Proofs.Naming.Composed
import ObjectModel.Proofs.Naming.Words

/-!
# Canonical names

A canonical name is made of words in lower case that are joined by single
underscores, all of them but the last of more than one letter
(`Spelling.Canonical`). Written with capitals it can be taken apart again, so that
`Spelling.snake` undoes `Spelling.pascal` (`Spelling.Canonical.snake_pascal`). Where
nothing is irregular the functions on objects of an entity are thus named by the
entity; with the irregular names of hardware they are too, but for five entities that
lose a word (`Naming.typeStem_hardware`). Types are then called alike just if functions are
(`Naming.className_hardware_inj`).
-/

namespace ObjectModel

namespace Spelling

variable {w l : List Char} {raw : String}

/-- Words that are joined by single underscores; a letter alone is the last. -/
inductive IsCanonical : List Char → Prop
  | last {w : List Char} : IsWord w → IsCanonical w
  | cons {w l : List Char} : IsWord w → 2 ≤ w.length → IsCanonical l → IsCanonical (w ++ '_' :: l)

/-- The name is spelt in the way that is usual in schemas. -/
def Canonical (raw : String) : Prop := IsCanonical raw.toList

/-- The words of a canonical name are those between its underscores. -/
theorem isCanonical_iff : IsCanonical l ↔
    (∀ w ∈ l.splitOn '_', IsWord w) ∧ ∀ w ∈ (l.splitOn '_').dropLast, 2 ≤ w.length := by
  constructor
  · intro h
    induction h with
    | last hw =>
      rw [List.splitOn_eq_singleton hw.not_mem]
      exact ⟨List.forall_mem_singleton.2 hw, nofun⟩
    | @cons w l hw hlength _ ih =>
      rw [List.splitOn_append_cons_self_of_not_mem hw.not_mem,
        List.dropLast_cons_of_ne_nil (List.splitOn_ne_nil '_' l), List.forall_mem_cons,
        List.forall_mem_cons]
      exact ⟨⟨hw, ih.1⟩, hlength, ih.2⟩
  · have hne := List.splitOn_ne_nil '_' l
    have hjoined : ['_'].intercalate (l.splitOn '_') = l := List.intercalate_splitOn '_'
    rintro ⟨hwords, hlong⟩
    -- The words between underscores are the name again, so the name is taken apart by them.
    rw [← hjoined]
    generalize l.splitOn '_' = ws at hne hwords hlong
    induction ws with
    | nil => exact absurd rfl hne
    | cons w ws ih =>
      obtain ⟨hw, hws⟩ := List.forall_mem_cons.1 hwords
      cases ws with
      | nil =>
        rw [intercalate_cons, List.flatMap_nil, List.append_nil]
        exact .last hw
      | cons v ws =>
        rw [List.dropLast_cons_cons, List.forall_mem_cons] at hlong
        rw [List.intercalate_cons_cons, List.append_assoc]
        exact .cons hw hlong.1 (ih (List.cons_ne_nil v ws) hws hlong.2)

/-- Each word is one in lower case, and each but the last has several letters. -/
theorem canonical_iff : Canonical raw ↔
    (∀ w ∈ words raw, IsWord w) ∧ ∀ w ∈ (words raw).dropLast, 2 ≤ w.length := isCanonical_iff

instance : DecidablePred Canonical := fun _ => decidable_of_iff _ canonical_iff.symm

/-- The words of a canonical name are found again. -/
theorem Canonical.snake_pascal {raw : String} (h : Canonical raw) : snake (pascal raw) = raw := by
  obtain ⟨hwords, hlong⟩ := canonical_iff.1 h
  exact (snake_pascal_iff hwords).2 (isChain_apart hlong)

/-- A canonical name starts with a capital in place of its first letter. -/
theorem Canonical.exists_pascal {raw : String} (h : Canonical raw) :
    ∃ (c : Char) (r : List Char), c.isLower = true ∧ (pascal raw).toList = c.toUpper :: r := by
  have hfirst : ∃ w rest, IsWord w ∧ raw.toList = w ++ rest := by
    rw [Canonical] at h
    generalize raw.toList = l at h
    cases h with
    | last hw => exact ⟨_, [], hw, (List.append_nil _).symm⟩
    | cons hw _ _ => exact ⟨_, _, hw, rfl⟩
  obtain ⟨w, rest, hw, hraw⟩ := hfirst
  match w, hw with
  | c :: r, hw =>
    refine ⟨c, r ++ pascalChars false rest, hw.1, ?_⟩
    rw [pascal, String.toList_ofList, hraw, pascalChars_word hw]
    rfl

/-- The capital is lowered again. -/
theorem Canonical.lowerFirst_pascal {raw name : String} (h : Canonical raw)
    (hname : Canonical name) : lowerFirst (pascal raw) = lowerFirst (pascal name) ↔ raw = name := by
  have hlower : ∀ {c : Char}, c.isLower = true → lowerCase c.toUpper = [c] :=
    forall_isLower (P := fun c => lowerCase c.toUpper = [c]) (by decide +kernel)
  obtain ⟨c, r, hc, hraw⟩ := h.exists_pascal
  obtain ⟨c', r', hc', hraw'⟩ := hname.exists_pascal
  refine ⟨fun heq => ?_, fun heq => heq ▸ rfl⟩
  rw [lowerFirst, lowerFirst, hraw, hraw'] at heq
  dsimp only at heq
  rw [hlower hc, hlower hc', String.ofList_inj] at heq
  obtain ⟨rfl, rfl⟩ := List.cons.inj heq
  rw [← h.snake_pascal, ← hname.snake_pascal, String.toList_inj.1 (hraw.trans hraw'.symm)]

/-! ## Canonical names are no escaped keywords -/

/-- A word ends in a letter of lower case or a digit. -/
theorem getLast?_of_isWord (hw : IsWord w) : ∃ x, w.getLast? = some x ∧ isInner x = true := by
  match w, hw with
  | c :: r, hw =>
    refine ⟨r.getLast?.getD c, List.getLast?_cons, ?_⟩
    rcases hr : r.getLast? with _ | x
    · exact isInner_of_isLower hw.1
    · exact hw.2 x (List.mem_of_getLast? hr)

/-- What a canonical name is spelt with, and what it ends with. -/
theorem IsCanonical.characters (h : IsCanonical l) : (∀ x ∈ l, (isInner x || x == '_') = true) ∧
    ∃ x, l.getLast? = some x ∧ isInner x = true := by
  induction h with
  | last hw =>
    exact ⟨fun x hx => by rw [isInner_of_mem_word hw hx]; rfl, getLast?_of_isWord hw⟩
  | @cons w l hw _ _ ih =>
    obtain ⟨hl, x, hx, hinner⟩ := ih
    refine ⟨fun y hy => ?_, x, ?_, hinner⟩
    · rcases List.mem_append.1 hy with hy | hy
      · rw [isInner_of_mem_word hw hy]; rfl
      · rcases List.mem_cons.1 hy with rfl | hy
        · rfl
        · exact hl y hy
    · rw [List.getLast?_append, List.getLast?_cons, hx]
      rfl

/-- Escaping leads to no canonical name from another one. -/
theorem Canonical.eq_of_escape {a c : String} (hc : Canonical c) (h : escape a = c) : a = c := by
  by_contra hne
  have hkeywords : ∀ k ∈ keywords, ((escape k).toList.all fun x => isInner x || x == '_') = false ∨
      (escape k).toList.getLast?.any isInner = false := by decide +kernel
  obtain ⟨hall, x, hx, hinner⟩ := IsCanonical.characters hc
  rcases hkeywords a (mem_keywords_of_escape fun ha => hne (ha.symm.trans h)) with hnot | hnot
  · rw [h, List.all_eq_true.2 hall] at hnot
    cases hnot
  · rw [h, hx, Option.any_some, hinner] at hnot
    cases hnot

end Spelling

namespace Naming

open Spelling

variable {raw : String}

theorem typeStem_of_classes {n : Naming} (hn : n.classes = []) (h : Canonical raw) :
    n.typeStem raw = raw := by
  rw [typeStem, className, hn]
  exact h.snake_pascal

theorem typeStem_regular (h : Canonical raw) : regular.typeStem raw = raw :=
  typeStem_of_classes rfl h

/-- Canonical names are found again in capitals. So where no names of entities are irregular,
    functions are named alike for one entity only. -/
theorem typeStem_canonical_inj (h : Canonical raw) : snake (pascal raw) = raw ∧
    ∀ n : Naming, n.classes = [] → ∀ raw', Canonical raw' →
      (n.typeStem raw = n.typeStem raw' ↔ raw = raw') := by
  refine ⟨h.snake_pascal, fun n hn raw' h' => ?_⟩
  rw [typeStem_of_classes hn h, typeStem_of_classes hn h']

/-- A digit before the last word, which is a letter alone. -/
theorem typeStem_canonical_inj_port : Canonical "io_port2_x" ∧ Canonical "io_port2" ∧
    pascal "io_port2_x" = "IoPort2X" ∧ snake "IoPort2X" = "io_port2_x" ∧
    regular.typeStem "io_port2_x" ≠ regular.typeStem "io_port2" := by
  have hport : Canonical "io_port2_x" := by decide +kernel
  have hshort : Canonical "io_port2" := by decide +kernel
  have hpascal : pascal "io_port2_x" = "IoPort2X" := by decide +kernel
  obtain ⟨hsnake, hinj⟩ := typeStem_canonical_inj hport
  rw [hpascal] at hsnake
  exact ⟨hport, hshort, hpascal, hsnake, fun hstem =>
    absurd ((hinj regular rfl _ hshort).1 hstem) (by decide)⟩

/-- Entities of hardware whose functions are named by a part of their name. -/
def shortened : List (String × String) := [
  ("alias_stmt", "alias"),
  ("assert_stmt", "assert"),
  ("interface_inst", "interface"),
  ("process_stmt", "process"),
  ("thread_obj", "thread")]

theorem mem_of_lookup {l : Overrides} {name value : String} (h : l.lookup name = some value) :
    (name, value) ∈ l := by
  obtain ⟨pre, post, rfl, -⟩ := List.lookup_eq_some_iff.1 h
  exact List.mem_append_right _ List.mem_cons_self

theorem apply_eq_or_mem (o : Overrides) (name : String) :
    o.apply name = name ∨ o.apply name ∈ o.map (·.2) := by
  rw [Overrides.apply]
  rcases hname : o.lookup name with _ | value
  · exact .inl rfl
  · exact .inr (List.mem_map.2 ⟨_, mem_of_lookup hname, rfl⟩)

/-- The name of a list ends in `s` if it is regular. -/
theorem plural_many (o : Overrides) (raw : String) :
    (plural o raw .many).toList.getLast? = some 's' ∨ plural o raw .many ∈ o.map (·.2) := by
  rw [plural]
  refine (apply_eq_or_mem o _).imp (fun h => ?_) id
  rw [h]
  split
  · simp [String.toList_append]
  · rename_i hlast
    simpa using hlast

/-- Of the irregular names of hardware only those count that leave out a word. -/
theorem typeStem_hardware (h : Canonical raw) :
    hardware.typeStem raw = (shortened.lookup raw).getD raw := by
  have hirregular : ∀ p ∈ hardwareClasses,
      snake p.2 = (shortened.lookup (snake p.1)).getD (snake p.1) := by decide +kernel
  have hshortened : ∀ p ∈ shortened, hardwareClasses.lookup (pascal p.1) ≠ none := by
    decide +kernel
  change snake ((hardwareClasses.lookup (pascal raw)).getD (pascal raw)) = _
  rcases hname : hardwareClasses.lookup (pascal raw) with _ | value
  · rw [Option.getD_none, h.snake_pascal]
    rcases hshort : shortened.lookup raw with _ | value
    · rfl
    · have hsome := hshortened _ (mem_of_lookup hshort)
      dsimp only at hsome
      exact (hsome hname).elim
  · have hvalue := hirregular _ (mem_of_lookup hname)
    dsimp only at hvalue
    rw [h.snake_pascal] at hvalue
    rw [Option.getD_some, hvalue]

/-- The stems of canonical names are canonical. -/
theorem canonical_typeStem_hardware (h : Canonical raw) : Canonical (hardware.typeStem raw) := by
  have hwords : ∀ p ∈ shortened, IsWord p.2.toList := by decide +kernel
  rw [typeStem_hardware h]
  rcases hraw : shortened.lookup raw with _ | value
  · exact h
  · exact .last (hwords _ (mem_of_lookup hraw))

/-- So functions are named alike for two entities only if one of them loses a word and
    the other is called like what is left. -/
theorem typeStem_hardware_inj {raw' : String} (h : Canonical raw) (h' : Canonical raw') :
    hardware.typeStem raw = hardware.typeStem raw' ↔
      raw = raw' ∨ (raw, raw') ∈ shortened ∨ (raw', raw) ∈ shortened := by
  -- What a name is shortened to is not shortened itself, and no two are shortened alike.
  have hlookup : ∀ p ∈ shortened,
      shortened.lookup p.1 = some p.2 ∧ shortened.lookup p.2 = none := by decide
  have hinj : ∀ p ∈ shortened, ∀ q ∈ shortened, p.2 = q.2 → p.1 = q.1 := by decide
  rw [typeStem_hardware h, typeStem_hardware h']
  constructor
  · intro hstem
    rcases hraw : shortened.lookup raw with _ | value <;>
      rcases hraw' : shortened.lookup raw' with _ | value' <;>
      simp only [hraw, hraw', Option.getD_none, Option.getD_some] at hstem
    · exact .inl hstem
    · exact .inr (.inr (hstem ▸ mem_of_lookup hraw'))
    · exact .inr (.inl (hstem ▸ mem_of_lookup hraw))
    · exact .inl (hinj _ (mem_of_lookup hraw) _ (mem_of_lookup hraw') hstem)
  · rintro (rfl | hpair | hpair)
    · rfl
    · obtain ⟨hkey, hvalue⟩ := hlookup _ hpair
      rw [hkey, hvalue]
      rfl
    · obtain ⟨hkey, hvalue⟩ := hlookup _ hpair
      rw [hkey, hvalue]
      rfl

/-- Of canonical names, no other leads to the field `base`. -/
theorem memberName_hardware_base (h : Canonical raw) {card : Cardinality} :
    hardware.memberName raw card = "base" ↔ raw = "base" ∧ card = .one := by
  have hirregular : ∀ value ∈ hardwareMembers.map (·.2), lowerFirst value ≠ "base" := by
    decide +kernel
  have hbase : Canonical "base" := .last (by decide)
  constructor
  · intro hmember
    rw [memberName] at hmember
    cases card with
    | many =>
      rcases plural_many hardware.members raw with hlast | hmem
      · -- A regular plural ends in `s` still when its first letter is lowered.
        have hend := congrArg (·.toList.getLast?) hmember
        rw [lowerFirst] at hend
        generalize plural hardware.members raw .many = name at hlast hend
        match hname : name.toList with
        | [] => simp [hname] at hlast
        | [c] =>
          obtain rfl : c = 's' := by simpa [hname] using hlast
          rw [hname] at hend
          exact absurd hend (by decide)
        | c :: d :: r =>
          rw [hname, List.getLast?_cons_cons] at hlast
          rw [hname] at hend
          simp [List.getLast?_append, hlast] at hend
      · exact absurd hmember (hirregular _ hmem)
    | one =>
      have hone : plural hardware.members raw .one =
          hardware.members.apply (hardware.members.apply (pascal raw)) := rfl
      rcases apply_eq_or_mem hardware.members (hardware.members.apply (pascal raw))
        with hsame | hmem
      · rw [hone, hsame] at hmember
        rcases apply_eq_or_mem hardware.members (pascal raw) with hsame | hmem
        · rw [hsame] at hmember
          exact ⟨(h.lowerFirst_pascal hbase).1 (hmember.trans (by decide +kernel)), rfl⟩
        · exact absurd hmember (hirregular _ hmem)
      · exact absurd hmember (hirregular _ (hone ▸ hmem))
  · rintro ⟨rfl, rfl⟩
    decide +kernel

/-- Under the naming of hardware, types are called alike just if functions are. -/
theorem className_hardware_inj {raw' : String} (h : Canonical raw) (h' : Canonical raw') :
    hardware.className raw = hardware.className raw' ↔
      raw = raw' ∨ (raw, raw') ∈ shortened ∨ (raw', raw) ∈ shortened := by
  have hshortened : ∀ p ∈ shortened, hardware.className p.1 = hardware.className p.2 := by
    decide +kernel
  constructor
  · intro hclass
    refine (typeStem_hardware_inj h h').1 ?_
    rw [typeStem, typeStem, hclass]
  · rintro (rfl | hpair | hpair)
    · rfl
    · exact hshortened (raw, raw') hpair
    · exact (hshortened (raw', raw) hpair).symm

end Naming

end ObjectModel
