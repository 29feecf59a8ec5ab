import Mathlib.Data.Char
import Mathlib.Data.List.Chain
import Mathlib.Data.String.Basic
import ObjectModel.Naming.Spelling

/-!
# Words of a name

The words of a name are what stands between its underscores (`Spelling.words`). Put in
capitals the name has no underscores any more, and `Spelling.snake` has but the letters around
a capital to tell whether a word starts there. It does so for every word that comes after one
of several letters. After a word of a single letter, which is a capital then, it does so only
for a word that goes on with a letter (`Spelling.Apart`). So the words of a name are found
again just if they are told apart in this way (`Spelling.snake_pascal_iff`).
-/

namespace ObjectModel.Spelling

/-! ## Letters -/

theorem isLower_iff {c : Char} : c.isLower = true ↔ 97 ≤ c.toNat ∧ c.toNat ≤ 122 := by
  change (decide (97 ≤ c.val) && decide (c.val ≤ 122)) = true ↔ _
  rw [Bool.and_eq_true, decide_eq_true_iff, decide_eq_true_iff]
  rfl

theorem isDigit_iff {c : Char} : c.isDigit = true ↔ 48 ≤ c.toNat ∧ c.toNat ≤ 57 := by
  change (decide (48 ≤ c.val) && decide (c.val ≤ 57)) = true ↔ _
  rw [Bool.and_eq_true, decide_eq_true_iff, decide_eq_true_iff]
  rfl

theorem isUpper_iff {c : Char} : c.isUpper = true ↔ 65 ≤ c.toNat ∧ c.toNat ≤ 90 := by
  change decide (65 ≤ c.val ∧ c.val ≤ 90) = true ↔ _
  rw [decide_eq_true_iff]
  rfl

/-- What holds of each of the `n` characters from `a` on holds of whatever is among them. -/
theorem forall_among {P : Char → Prop} {a n : Nat} (h : ∀ i : Fin n, P (Char.ofNat (a + i)))
    {c : Char} (hlow : a ≤ c.toNat) (hhigh : c.toNat < a + n) : P c := by
  have hchar : Char.ofNat (a + (c.toNat - a)) = c := by
    rw [Nat.add_sub_cancel' hlow, Char.ofNat_toNat]
  exact hchar ▸ h ⟨c.toNat - a, by omega⟩

/-- What holds of each of the letters holds of whatever is in lower case. -/
theorem forall_isLower {P : Char → Prop} (h : ∀ i : Fin 26, P (Char.ofNat (97 + i))) {c : Char}
    (hc : c.isLower = true) : P c := by
  obtain ⟨hlow, hhigh⟩ := isLower_iff.1 hc
  exact forall_among h hlow (Nat.lt_succ_of_le hhigh)

variable {c x : Char} {w v r l rest : List Char} {ws : List (List Char)} {before : Option Char}

theorem ne_underscore_of_isLower (hc : c.isLower = true) : c ≠ '_' := by
  rintro rfl
  cases hc

theorem upperCase_of_isLower (hc : c.isLower = true) : upperCase c = [c.toUpper] :=
  forall_isLower (P := fun c => upperCase c = [c.toUpper]) (by decide +kernel) hc

theorem isUpper_toUpper (hc : c.isLower = true) : c.toUpper.isUpper = true :=
  forall_isLower (P := fun c => c.toUpper.isUpper = true) (by decide +kernel) hc

theorem toLower_toUpper (hc : c.isLower = true) : c.toUpper.toLower = c :=
  forall_isLower (P := fun c => c.toUpper.toLower = c) (by decide +kernel) hc

/-- A capital is neither a letter in lower case nor a digit. -/
theorem not_inner_toUpper (hc : c.isLower = true) :
    c.toUpper.isLower = false ∧ c.toUpper.isDigit = false :=
  forall_isLower (P := fun c => c.toUpper.isLower = false ∧ c.toUpper.isDigit = false)
    (by decide +kernel) hc

/-- What words go on with after their first letter. -/
def isInner (c : Char) : Bool := c.isLower || c.isDigit

theorem isInner_of_isLower (hc : c.isLower = true) : isInner c = true := by rw [isInner, hc]; rfl

theorem not_isUpper_of_isInner (hc : isInner c = true) : c.isUpper = false := by
  rw [isInner, Bool.or_eq_true, isLower_iff, isDigit_iff] at hc
  rw [← Bool.not_eq_true, isUpper_iff]
  omega

theorem ne_underscore_of_isInner (hc : isInner c = true) : c ≠ '_' := by
  rintro rfl
  cases hc

/-! ## Words -/

/-- A lower-case letter, followed by such letters and digits. -/
def IsWord : List Char → Prop
  | [] => False
  | c :: r => c.isLower = true ∧ ∀ x ∈ r, isInner x = true

instance : DecidablePred IsWord
  | [] => .isFalse id
  | c :: r => decidable_of_iff ((c.isLower && r.all isInner) = true) (by simp [IsWord])

/-- What stands between the underscores of a name. -/
def words (raw : String) : List (List Char) := raw.toList.splitOn '_'

/-- The word with a capital. -/
def capitalized : List Char → List Char
  | [] => []
  | c :: r => c.toUpper :: r

/-- A word starts with a letter of lower case. -/
theorem IsWord.exists_cons (hw : IsWord w) :
    ∃ c r, w = c :: r ∧ c.isLower = true ∧ ∀ x ∈ r, isInner x = true := by
  cases w with
  | nil => exact hw.elim
  | cons c r => exact ⟨c, r, rfl, hw.1, hw.2⟩

theorem isInner_of_mem_word (hw : IsWord w) (hx : x ∈ w) : isInner x = true := by
  obtain ⟨c, r, rfl, hc, hr⟩ := hw.exists_cons
  rcases List.mem_cons.1 hx with rfl | hx
  · exact isInner_of_isLower hc
  · exact hr x hx

theorem IsWord.not_mem (hw : IsWord w) : '_' ∉ w := fun hmem =>
  ne_underscore_of_isInner (isInner_of_mem_word hw hmem) rfl

theorem intercalate_cons (w : List Char) (ws : List (List Char)) :
    ['_'].intercalate (w :: ws) = w ++ ws.flatMap ('_' :: ·) := by
  induction ws generalizing w with
  | nil => simp [List.intercalate]
  | cons v ws ih =>
    rw [List.intercalate_cons_cons, ih, List.flatMap_cons, List.append_assoc]
    rfl

/-! ## Capitals in place of underscores -/

/-- Within a word, nothing changes. -/
theorem pascalChars_inner (hr : ∀ x ∈ r, isInner x = true) :
    pascalChars false (r ++ rest) = r ++ pascalChars false rest := by
  induction r with
  | nil => rfl
  | cons x r ih =>
    obtain ⟨hx, hr⟩ := List.forall_mem_cons.1 hr
    rw [List.cons_append, pascalChars, if_neg (ne_underscore_of_isInner hx), ih hr]
    rfl

theorem pascalChars_word (hw : IsWord w) :
    pascalChars true (w ++ rest) = capitalized w ++ pascalChars false rest := by
  obtain ⟨c, r, rfl, hc, hr⟩ := hw.exists_cons
  rw [List.cons_append, pascalChars, if_neg (ne_underscore_of_isLower hc), if_pos rfl,
    upperCase_of_isLower hc, pascalChars_inner hr]
  rfl

/-- Words are joined without their underscores. -/
theorem pascalChars_words (hws : ∀ w ∈ ws, IsWord w) :
    pascalChars false (ws.flatMap ('_' :: ·)) = ws.flatMap capitalized := by
  induction ws with
  | nil => rfl
  | cons w ws ih =>
    obtain ⟨hw, hws⟩ := List.forall_mem_cons.1 hws
    rw [List.flatMap_cons, List.flatMap_cons, List.cons_append, pascalChars, if_pos rfl,
      pascalChars_word hw, ih hws]

/-! ## Underscores in front of capitals -/

/-- Within a word, no underscore is put in. -/
theorem snakeChars_inner (hr : ∀ x ∈ r, isInner x = true) :
    snakeChars before (r ++ rest) = r ++ snakeChars (r.getLast?.or before) rest := by
  induction r generalizing before with
  | nil => rfl
  | cons x r ih =>
    obtain ⟨hx, hr⟩ := List.forall_mem_cons.1 hr
    rw [List.cons_append, snakeChars, not_isUpper_of_isInner hx, ih hr, List.getLast?_cons]
    cases r.getLast? <;> rfl

/-- In front of a word an underscore is put in if the letters around its capital
    tell that it starts there. -/
theorem snakeChars_word (hw : IsWord w) : snakeChars before (capitalized w ++ rest) =
    (if startsWord before (w.tail ++ rest).head? then ['_'] else []) ++
      (w ++ snakeChars (capitalized w).getLast? rest) := by
  obtain ⟨c, r, rfl, hc, hr⟩ := hw.exists_cons
  have hlast : (capitalized (c :: r)).getLast? = r.getLast?.or (some c.toUpper) := by
    rw [capitalized, List.getLast?_cons]
    cases r.getLast? <;> rfl
  rw [hlast, capitalized, List.cons_append, snakeChars, if_pos (isUpper_toUpper hc),
    toLower_toUpper hc, snakeChars_inner hr, List.tail_cons]
  cases startsWord before (r ++ rest).head? <;> rfl

/-! ## Words that are found again -/

/-- The capital of `v` is seen to start a word behind `w`. -/
def Apart (w v : List Char) : Prop := 2 ≤ w.length ∨ v[1]?.any Char.isLower = true

/-- Several letters in each word but the last are enough. -/
theorem isChain_apart (h : ∀ w ∈ ws.dropLast, 2 ≤ w.length) : ws.IsChain Apart := by
  induction ws with
  | nil => exact .nil
  | cons w ws ih =>
    cases ws with
    | nil => exact .singleton w
    | cons v ws =>
      rw [List.dropLast_cons_cons, List.forall_mem_cons] at h
      exact .cons_cons (.inl h.1) (ih h.2)

/-- Words that follow begin with a capital, if there are any. -/
theorem head?_flatMap_capitalized (hws : ∀ w ∈ ws, IsWord w) :
    (ws.flatMap capitalized).head?.any Char.isLower = false := by
  cases ws with
  | nil => rfl
  | cons w ws =>
    obtain ⟨c, r, rfl, hc, -⟩ := (List.forall_mem_cons.1 hws).1.exists_cons
    exact (not_inner_toUpper hc).1

/-- Only behind a word of one letter the next one has to be looked at. -/
theorem startsWord_iff (hw : IsWord w) (hv : IsWord v) (hws : ∀ w ∈ ws, IsWord w) :
    startsWord (capitalized w).getLast? (v.tail ++ ws.flatMap capitalized).head? = true ↔
      Apart w v := by
  obtain ⟨c, r, rfl, hc, hr⟩ := hw.exists_cons
  obtain ⟨d, s, rfl, -, -⟩ := hv.exists_cons
  -- A word of one letter is the case to watch: only then does the next letter decide.
  rcases hlast : r.getLast? with _ | x
  · obtain rfl := List.getLast?_eq_none_iff.1 hlast
    have hnext : (s ++ ws.flatMap capitalized).head?.any Char.isLower = s[0]?.any Char.isLower := by
      cases s with
      | nil => exact head?_flatMap_capitalized hws
      | cons => rfl
    obtain ⟨hlower, hdigit⟩ := not_inner_toUpper hc
    rw [capitalized, List.getLast?_singleton, startsWord, Option.any_some, hlower, hdigit,
      isUpper_toUpper hc, List.tail_cons, hnext]
    simp [Apart]
  · have hinner : isInner x = true := hr x (List.mem_of_getLast? hlast)
    have hlong : 2 ≤ (c :: r).length := by
      rw [List.length_cons]
      exact Nat.succ_le_succ (List.length_pos_of_mem (List.mem_of_getLast? hlast))
    rw [isInner] at hinner
    rw [capitalized, List.getLast?_cons, hlast, startsWord, Option.any_some, Option.getD_some,
      hinner]
    exact iff_of_true rfl (.inl hlong)

/-- By induction on the words behind `w`. -/
theorem snakeChars_words (hw : IsWord w) (hws : ∀ v ∈ ws, IsWord v) :
    snakeChars (capitalized w).getLast? (ws.flatMap capitalized) = ws.flatMap ('_' :: ·) ↔
      (w :: ws).IsChain Apart := by
  induction ws generalizing w with
  | nil => exact iff_of_true rfl (.singleton w)
  | cons v ws ih =>
    obtain ⟨hv, hws⟩ := List.forall_mem_cons.1 hws
    rw [List.flatMap_cons, List.flatMap_cons, snakeChars_word hv, List.isChain_cons_cons,
      ← startsWord_iff hw hv hws, ← ih hv hws]
    split
    · rename_i hstarts
      rw [and_iff_right hstarts]
      exact List.append_right_inj ('_' :: v)
    · rename_i hstarts
      -- The word is taken for a part of the one before, and there is no underscore.
      obtain ⟨c, r, rfl, hc, -⟩ := hv.exists_cons
      exact iff_of_false (fun h => ne_underscore_of_isLower hc (List.cons.inj h).1)
        fun h => hstarts h.1

/-- The words of a name are found again just if they are told apart in capitals. -/
theorem snake_pascal_iff {raw : String} (hraw : ∀ w ∈ words raw, IsWord w) :
    snake (pascal raw) = raw ↔ (words raw).IsChain Apart := by
  have hjoined : ['_'].intercalate (words raw) = raw.toList := List.intercalate_splitOn '_'
  rw [← String.toList_inj, snake, pascal, String.toList_ofList, String.toList_ofList, ← hjoined]
  generalize words raw = ws at hraw
  cases ws with
  | nil => exact iff_of_true rfl .nil
  | cons w ws =>
    obtain ⟨hw, hws⟩ := List.forall_mem_cons.1 hraw
    rw [intercalate_cons, pascalChars_word hw, pascalChars_words hws, snakeChars_word hw,
      ← snakeChars_words hw hws]
    exact List.append_right_inj w

/-- After a letter alone, a word is found by its second letter. -/
example : snake (pascal "x_axis_y") = "x_axis_y" ∧ snake (pascal "x_y2") = "xy2" := by
  decide +kernel

end ObjectModel.Spelling
