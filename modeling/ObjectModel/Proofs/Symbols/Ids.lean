import Mathlib.Algebra.Ring.Nat
import Mathlib.Data.Finset.Card
import ObjectModel.Proofs.Symbols

/-!
# Ids of texts

After texts have been interned in an empty table, ids and texts stand for each other
(`SymbolTable.Numbers`): zero and the empty text, and then the numbers from one on and the other
texts, in the order in which they occurred first. What a call of `intern` gave stays the id of
its text, whatever is interned later.
-/

namespace ObjectModel.SymbolTable

variable {t : SymbolTable} {s s' a : String} {texts : List String} {id id' i : Nat}

/-! ## Texts and ids -/

/-- In a proper table no text stands in two places, and the empty one in none. -/
theorem Proper.find?_eq_some (ht : Proper t.texts) :
    t.find? s = some id ↔ t.resolve? id = some s := by
  refine ⟨resolve?_of_find?, fun h => ?_⟩
  cases id with
  | zero =>
    cases h
    rfl
  | succ k =>
    have hmem : s ∈ t.texts := List.mem_of_getElem? h
    obtain ⟨id, hid⟩ := exists_find? (.inr hmem)
    cases id with
    | zero =>
      cases resolve?_of_find? hid
      exact absurd hmem ht.nonempty
    | succ j =>
      have hj : t.texts[j]? = some s := resolve?_of_find? hid
      -- No text is in the table twice, so both places are one.
      have hjk : t.texts[j]? = t.texts[k]? := hj.trans h.symm
      rw [hid, (List.getElem?_inj (List.getElem?_eq_some_iff.1 hj).1 ht.nodup).1 hjk]

/-- The id of a text is one more than its position in the table. -/
theorem Proper.idxOf_of_find? (ht : Proper t.texts) (hs : s ≠ "") (h : t.find? s = some id) :
    s ∈ t.texts ∧ id = t.texts.idxOf s + 1 := by
  cases id with
  | zero => exact absurd (Option.some.inj (resolve?_of_find? h)).symm hs
  | succ k =>
    obtain ⟨hk, rfl⟩ := List.getElem?_eq_some_iff.1 (resolve?_of_find? h)
    exact ⟨List.getElem_mem hk, by rw [ht.nodup.idxOf_getElem]⟩

/-- The ids of a table are the numbers up to its size. -/
theorem exists_resolve?_iff : (∃ s, t.resolve? id = some s) ↔ id ≤ t.size := by
  cases id with
  | zero => exact ⟨fun _ => Nat.zero_le _, fun _ => ⟨"", rfl⟩⟩
  | succ k =>
    rw [resolve?, ← Option.isSome_iff_exists, isSome_getElem?, size]
    exact Nat.succ_le_iff.symm

/-! ## The list of a table -/

theorem ids_toList (t : SymbolTable) : t.toList.map Prod.fst = List.range' 1 t.size := by
  have hsucc : t.toList.map Prod.fst = (t.texts.zipIdx.map Prod.snd).map (1 + ·) := by
    rw [toList, List.map_map, List.map_map]
    exact List.map_congr_left fun e _ => Nat.add_comm _ _
  rw [hsucc, List.zipIdx_map_snd, List.map_add_range', size]

theorem mem_toList : (id, s) ∈ t.toList ↔ id ≠ 0 ∧ t.resolve? id = some s := by
  rw [toList, List.mem_map]
  constructor
  · rintro ⟨e, he, heq⟩
    cases heq
    exact ⟨Nat.succ_ne_zero _, List.mem_zipIdx_iff_getElem?.1 he⟩
  · rintro ⟨hid, h⟩
    cases id with
    | zero => exact absurd rfl hid
    | succ k => exact ⟨(s, k), List.mem_zipIdx_iff_getElem?.2 h, rfl⟩

/-! ## Runs -/

/-- Interning leaves the ids that there are as they are. -/
theorem find?_internAll (ht : Proper t.texts) (h : t.find? s = some id) (texts : List String) :
    (t.internAll texts).find? s = some id := by
  rw [(ht.internAll texts).find?_eq_some]
  have hresolve := resolve?_of_find? h
  cases id with
  | zero => exact hresolve
  | succ k =>
    obtain ⟨hk, rfl⟩ := List.getElem?_eq_some_iff.1 hresolve
    exact List.prefix_iff_getElem?.1 prefix_internAll k hk

/-- Interning gives the id under which the text is found from then on. -/
theorem find?_intern (ht : Proper t.texts) (s : String) :
    (t.intern s).2.find? s = some (t.intern s).1 := by
  rw [ht.intern.find?_eq_some, intern]
  split
  · rename_i hfind
    exact resolve?_of_find? hfind
  · exact List.getElem?_concat_length

/-- Interning a text that has an id changes nothing. -/
theorem intern_of_find? (h : t.find? s = some id) : t.intern s = (id, t) := by
  rw [intern]
  split
  · rename_i hfind
    rw [Option.some.inj (h.symm.trans hfind)]
  · rename_i hfind
    cases h.symm.trans hfind

/-- What is put behind a list comes after all that was there before. -/
theorem idxOf_concat_lt {l : List String} (ha : a ∉ l) (hs : s ∈ l ++ [a]) (hs' : s' ∈ l ++ [a]) :
    (l ++ [a]).idxOf s < (l ++ [a]).idxOf s' ↔ s ∈ l ∧ (s' ∈ l → l.idxOf s < l.idxOf s') := by
  have hlast : (l ++ [a]).idxOf a = l.length := by
    rw [List.idxOf_append_of_notMem ha, List.idxOf_cons_self, Nat.add_zero]
  have hlt {x : String} (hx : x ∈ l) : (l ++ [a]).idxOf x = l.idxOf x ∧ l.idxOf x < l.length :=
    ⟨List.idxOf_append_of_mem hx, List.idxOf_lt_length_iff.2 hx⟩
  rw [List.mem_append, List.mem_singleton] at hs hs'
  rcases hs with hs | rfl <;> rcases hs' with hs' | rfl
  · rw [(hlt hs).1, (hlt hs').1]
    simp [hs, hs']
  · rw [(hlt hs).1, hlast]
    simp [hs, ha, (hlt hs).2]
  · rw [hlast, (hlt hs').1]
    simp [ha, (hlt hs').2.le]
  · simp [ha]

theorem mem_texts_internAll_empty :
    s ∈ (internAll {} texts).texts ↔ s ≠ "" ∧ s ∈ texts := by
  rw [mem_texts_internAll]
  exact or_iff_right List.not_mem_nil

/-- Texts are entered in the order in which they occur first. By induction from the end of the
    run, where a text is new to the table just if it has not occurred. -/
theorem idxOf_texts_internAll (hs : s ∈ (internAll {} texts).texts)
    (hs' : s' ∈ (internAll {} texts).texts) :
    (internAll {} texts).texts.idxOf s < (internAll {} texts).texts.idxOf s' ↔
      texts.idxOf s < texts.idxOf s' := by
  induction texts using List.reverseRecOn with
  | nil => cases hs
  | append_singleton texts a ih =>
    have hoccurs {x : String} (hx : x ∈ (internAll {} texts).texts) : x ∈ texts :=
      (mem_texts_internAll_empty.1 hx).2
    rw [texts_internAll_concat] at hs hs' ⊢
    -- A text that is known leaves the list as it is, and a new one is last on both sides.
    by_cases hold : a = "" ∨ a ∈ (internAll {} texts).texts
    · rw [if_pos hold] at hs hs' ⊢
      rw [List.idxOf_append_of_mem (hoccurs hs), List.idxOf_append_of_mem (hoccurs hs')]
      exact ih hs hs'
    · rw [if_neg hold] at hs hs' ⊢
      have hentered {x : String} (hx : x ∈ (internAll {} texts).texts ++ [a]) :
          x ∈ (internAll {} texts).texts ↔ x ∈ texts := by
        refine mem_texts_internAll_empty.trans (and_iff_right ?_)
        rcases List.mem_append.1 hx with hx | hx
        · exact (mem_texts_internAll_empty.1 hx).1
        · exact List.mem_singleton.1 hx ▸ (not_or.1 hold).1
      have hnew : a ∉ texts :=
        (hentered (List.mem_append_right _ List.mem_cons_self)).not.1 (not_or.1 hold).2
      have hsub {x : String} (hx : x ∈ (internAll {} texts).texts ++ [a]) : x ∈ texts ++ [a] :=
        List.mem_append.2 ((List.mem_append.1 hx).imp_left hoccurs)
      rw [idxOf_concat_lt (not_or.1 hold).2 hs hs', idxOf_concat_lt hnew (hsub hs) (hsub hs'),
        ← hentered hs, ← hentered hs']
      exact and_congr_right fun h => forall_congr' fun h' => ih h h'

/-! ## What a table knows -/

/-- What `t` knows after the texts have been interned, in this order. -/
structure Numbers (t : SymbolTable) (texts : List String) : Prop where
  /-- The texts that have been interned have ids, and so does the empty one. -/
  known : ∀ s, (∃ id, t.find? s = some id) ↔ s = "" ∨ s ∈ texts
  /-- The ids are zero and the numbers up to that of the texts. -/
  ids : ∀ id, (∃ s, t.resolve? id = some s) ↔ id ≤ t.size
  /-- Ids and texts stand for each other. -/
  inverse : ∀ s id, t.find? s = some id ↔ t.resolve? id = some s
  /-- The empty text takes no place. -/
  empty : t.find? "" = some 0
  /-- Ids ascend as texts occur first. -/
  order : ∀ s s' id id', s ≠ "" → s' ≠ "" → t.find? s = some id → t.find? s' = some id' →
    (id < id' ↔ texts.idxOf s < texts.idxOf s')
  /-- Interning a text gives the id that it has from then on. -/
  issued : ∀ i s, texts[i]? = some s →
    t.find? s = some ((internAll {} (texts.take i)).intern s).1
  /-- A text that has an id keeps it, and nothing is entered. -/
  again : ∀ s id, t.find? s = some id → t.intern s = (id, t)
  /-- The list has the ids from one on, each with its text. -/
  listed : t.toList.map Prod.fst = List.range' 1 t.size ∧
    ∀ id s, (id, s) ∈ t.toList ↔ id ≠ 0 ∧ t.resolve? id = some s

/-- The id of a text is the one that was given where it was interned. -/
theorem find?_of_getElem? (h : texts[i]? = some s) :
    (internAll {} texts).find? s = some ((internAll {} (texts.take i)).intern s).1 := by
  have hproper := Proper.empty.internAll (texts.take i)
  have htexts : texts.take i ++ s :: texts.drop (i + 1) = texts := by
    obtain ⟨hi, rfl⟩ := List.getElem?_eq_some_iff.1 h
    rw [List.getElem_cons_drop, List.take_append_drop]
  conv_lhs => rw [← htexts, ← internAll_internAll]
  exact find?_internAll hproper.intern (find?_intern hproper s) _

theorem size_internAll_le (texts : List String) :
    (internAll {} texts).size ≤ texts.toFinset.card := by
  rw [size, ← List.toFinset_card_of_nodup (Proper.empty.internAll texts).nodup]
  refine Finset.card_le_card fun s hs => ?_
  rw [List.mem_toFinset] at hs ⊢
  exact (mem_texts_internAll_empty.1 hs).2

theorem exists_find?_internAll :
    (∃ id, (internAll {} texts).find? s = some id) ↔ s = "" ∨ s ∈ texts := by
  rw [← Option.isSome_iff_exists, Option.isSome_iff_ne_none, ne_eq, find?_eq_none,
    mem_texts_internAll_empty]
  by_cases hs : s = "" <;> simp [hs]

/-- Ids are in the order in which their texts came first. -/
theorem lt_iff_of_find? (hs : s ≠ "") (hs' : s' ≠ "")
    (hid : (internAll {} texts).find? s = some id)
    (hid' : (internAll {} texts).find? s' = some id') :
    id < id' ↔ texts.idxOf s < texts.idxOf s' := by
  have hproper := Proper.empty.internAll texts
  obtain ⟨hmem, rfl⟩ := hproper.idxOf_of_find? hs hid
  obtain ⟨hmem', rfl⟩ := hproper.idxOf_of_find? hs' hid'
  rw [Nat.add_lt_add_iff_right]
  exact idxOf_texts_internAll hmem hmem'

/-- However texts are interned in an empty table, it numbers them. Ids fit in words of 32 bits
    as long as there are no more different texts than these can number. -/
theorem numbers_internAll (texts : List String) (hroom : texts.toFinset.card < 2 ^ 32) :
    (internAll {} texts).Numbers texts ∧ (internAll {} texts).size < 2 ^ 32 where
  left := {
    known := fun _ => exists_find?_internAll
    ids := fun _ => exists_resolve?_iff
    inverse := fun _ _ => (Proper.empty.internAll texts).find?_eq_some
    empty := rfl
    order := fun _ _ _ _ => lt_iff_of_find?
    issued := fun _ _ => find?_of_getElem?
    again := fun _ _ => intern_of_find?
    listed := ⟨ids_toList _, fun _ _ => mem_toList⟩ }
  right := (size_internAll_le texts).trans_lt hroom

/-- Two texts, one of them twice, and the empty one: they have the ids one, two and zero. -/
theorem numbers_internAll_letters :
    let texts := ["b", "", "a", "b"]
    texts.toFinset.card < 2 ^ 32 ∧ (internAll {} texts).Numbers texts ∧
      (internAll {} texts).toList = [(1, "b"), (2, "a")] := by
  intro texts
  have hroom : texts.toFinset.card < 2 ^ 32 := by decide +kernel
  exact ⟨hroom, (numbers_internAll texts hroom).1, by decide +kernel⟩

end ObjectModel.SymbolTable
