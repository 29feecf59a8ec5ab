import Mathlib.Data.List.Infix
import Mathlib.Data.List.Nodup
import Mathlib.Data.List.TakeWhile
import ObjectModel.Text.Template

/-!
# Markers of a template

The markers of a template are those that stand anywhere in its text
(`Template.mem_markers`). There are no brackets in the name of a marker, so two of them
never overlap, and a text is made up of markers and other characters in one way only
(`Template.pieces`).
-/

namespace ObjectModel

namespace Template

/-- A marker as it stands in a text. -/
def bracketed (name : String) : List Char := '<' :: (name.toList ++ ['>'])

/-- A name of which all characters may stand in a marker. -/
def Plain (name : String) : Prop := ∀ c ∈ name.toList, isMarkerChar c = true

/-- A name that a marker may have. -/
structure IsMarker (name : String) : Prop where
  plain : Plain name
  long : 3 ≤ name.toList.length
  capital : name.toList.head?.any Char.isUpper = true

variable {name m n : String} {names found : List String} {c : Char} {l r x w : List Char}

theorem bracketed_append (m : String) (l : List Char) :
    bracketed m ++ l = '<' :: (m.toList ++ '>' :: l) := by
  rw [bracketed, List.cons_append, List.append_assoc, List.singleton_append]

/-! ## Finding markers -/

theorem takeWhile_plain (h : Plain name) (l : List Char) :
    (name.toList ++ '>' :: l).takeWhile isMarkerChar = name.toList := by
  rw [List.takeWhile_append_of_pos h, List.takeWhile_cons_of_neg (by decide), List.append_nil]

/-- A bracket opens a marker if a name and a closing bracket follow. -/
theorem markerAfterBracket?_eq_some : markerAfterBracket? r = some name ↔
    IsMarker name ∧ name.toList ++ ['>'] <+: r := by
  rw [markerAfterBracket?, Option.ite_none_right_eq_some, Option.some.injEq]
  constructor
  · rintro ⟨⟨hclosed, hlong, hcapital⟩, rfl⟩
    rw [String.toList_ofList]
    refine ⟨⟨fun c hc => ?_, ?_, ?_⟩, ?_⟩
    · rw [String.toList_ofList] at hc
      exact List.mem_takeWhile_imp hc
    · rwa [String.toList_ofList]
    · rwa [String.toList_ofList]
    · obtain ⟨t, ht⟩ := List.head?_eq_some_iff.1 hclosed
      have hsplit := List.takeWhile_append_dropWhile (p := isMarkerChar) (l := r)
      rw [ht] at hsplit
      exact ⟨t, by rw [List.append_assoc]; exact hsplit⟩
  · rintro ⟨h, t, rfl⟩
    rw [List.append_assoc, List.singleton_append, takeWhile_plain h.plain,
      List.dropWhile_append_of_pos h.plain, List.dropWhile_cons_of_neg (by decide)]
    exact ⟨⟨rfl, h.long, h.capital⟩, String.ofList_toList⟩

theorem bracketed_prefix_cons : bracketed m <+: c :: r ↔ c = '<' ∧ m.toList ++ ['>'] <+: r := by
  rw [bracketed, List.cons_prefix_cons, eq_comm]

theorem markerHere_eq_some : (if c = '<' then markerAfterBracket? r else none) = some name ↔
    IsMarker name ∧ bracketed name <+: c :: r := by
  rw [Option.ite_none_right_eq_some, markerAfterBracket?_eq_some, bracketed_prefix_cons]
  tauto

/-- What is found are the markers that stand
    anywhere in the text, and those found before. -/
theorem mem_markersFrom : m ∈ markersFrom found l ↔
    m ∈ found ∨ IsMarker m ∧ bracketed m <:+: l := by
  induction l generalizing found with
  | nil => simp [markersFrom, bracketed]
  | cons c r ih =>
    rw [markersFrom, List.infix_cons_iff, and_or_left, ← markerHere_eq_some]
    split
    · rename_i name hname
      rw [ih, hname, Option.some.injEq]
      split
      · rename_i hfound
        constructor
        · tauto
        · rintro (h | rfl | h)
          · exact .inl h
          · exact .inl hfound
          · exact .inr h
      · rw [List.mem_cons, @eq_comm _ m]
        tauto
    · rename_i hname
      rw [ih, hname]
      simp

/-- No marker is listed twice. -/
theorem nodup_markersFrom (h : found.Nodup) : (markersFrom found l).Nodup := by
  induction l generalizing found with
  | nil => exact List.nodup_reverse.2 h
  | cons c r ih =>
    rw [markersFrom]
    split
    · refine ih ?_
      split
      · exact h
      · exact List.nodup_cons.2 ⟨‹_›, h⟩
    · exact ih h

/-- What is found is just what stands in the text. -/
theorem mem_markers {t : Template} :
    m ∈ t.markers ↔ IsMarker m ∧ bracketed m <:+: t.text.toList := by
  rw [markers, mem_markersFrom, or_iff_right List.not_mem_nil]

theorem nodup_markers (t : Template) : t.markers.Nodup := nodup_markersFrom List.nodup_nil

/-! ## Occurrences -/

/-- How often `w` stands in a text. -/
def occurrences (w l : List Char) : Nat := l.tails.countP (w.isPrefixOf ·)

theorem occurrences_cons : occurrences w (c :: l) =
    occurrences w l + if w <+: c :: l then 1 else 0 := by
  simp only [occurrences, List.tails_cons, List.countP_cons, List.isPrefixOf_iff_prefix]

theorem occurrences_pos : 0 < occurrences w l ↔ w <:+: l := by
  simp only [occurrences, List.countP_pos_iff, List.mem_tails, List.isPrefixOf_iff_prefix,
    List.infix_iff_prefix_suffix, and_comm]

theorem occurrences_le_append (x : List Char) : occurrences w l ≤ occurrences w (x ++ l) := by
  induction x with
  | nil => exact Nat.le_refl _
  | cons c x ih =>
    rw [List.cons_append, occurrences_cons]
    exact Nat.le_add_right_of_le ih

/-- No marker starts in a text without an opening bracket. -/
theorem occurrences_append_of_not_mem (hx : '<' ∉ x) :
    occurrences (bracketed m) (x ++ l) = occurrences (bracketed m) l := by
  induction x with
  | nil => rfl
  | cons c x ih =>
    rw [List.mem_cons, not_or] at hx
    have hc : ¬ bracketed m <+: c :: (x ++ l) := fun h => hx.1 (bracketed_prefix_cons.1 h).1.symm
    rw [List.cons_append, occurrences_cons, if_neg hc, ih hx.2]
    rfl

/-- A name has no characters but those of markers. -/
theorem Plain.not_mem (h : Plain name) (hc : isMarkerChar c = false) : c ∉ name.toList := by
  intro hmem
  rw [h c hmem] at hc
  cases hc

/-- A marker that starts where another one does is the same. -/
theorem bracketed_prefix_bracketed (hm : Plain m) (hn : Plain n) :
    bracketed m <+: bracketed n ++ l ↔ n = m := by
  constructor
  · intro h
    rw [bracketed_append, bracketed_prefix_cons] at h
    obtain ⟨-, t, ht⟩ := h
    have hname := congrArg (List.takeWhile isMarkerChar) ht
    rw [List.append_assoc, List.singleton_append, takeWhile_plain hm, takeWhile_plain hn] at hname
    exact (String.toList_injective hname).symm
  · rintro rfl
    exact List.prefix_append _ _

/-- A marker adds an occurrence of itself, and none of any other. -/
theorem occurrences_bracketed (hm : Plain m) (hn : Plain n) :
    occurrences (bracketed m) (bracketed n ++ l) =
      occurrences (bracketed m) l + if n = m then 1 else 0 := by
  have hrest : '<' ∉ n.toList ++ ['>'] := by
    rw [List.mem_append, not_or]
    exact ⟨hn.not_mem (by decide), by decide⟩
  have hbracketed : bracketed n ++ l = '<' :: ((n.toList ++ ['>']) ++ l) := rfl
  simp only [← bracketed_prefix_bracketed (l := l) hm hn, hbracketed, occurrences_cons,
    occurrences_append_of_not_mem hrest]

/-- A character that is not in a marker cuts off whatever follows it. -/
theorem prefix_append_cons (hc : c ∉ '<' :: m.toList) {x l : List Char} :
    bracketed m <+: x ++ c :: l ↔ bracketed m <+: x ++ [c] := by
  rw [List.append_cons]
  constructor
  · intro h
    by_cases hlength : (bracketed m).length ≤ (x ++ [c]).length
    · exact List.prefix_of_prefix_length_le h (List.prefix_append _ _) hlength
    · -- Then the marker goes on after `c`, which is none of its characters but the last.
      have hdropLast : bracketed m = ('<' :: m.toList) ++ ['>'] := rfl
      have hx : x ++ [c] <+: bracketed m :=
        List.prefix_of_prefix_length_le (List.prefix_append _ _) h (by omega)
      rw [hdropLast, List.length_append, List.length_singleton] at hlength
      rw [hdropLast] at hx
      have hx := List.prefix_of_prefix_length_le hx (List.prefix_append _ _) (by omega)
      exact absurd (hx.subset (by simp)) hc
  · exact fun h => h.trans (List.prefix_append _ _)

/-- Markers do not stand across a character that none has inside. -/
theorem occurrences_append_cons (hc : c ∉ '<' :: m.toList) (x l : List Char) :
    occurrences (bracketed m) (x ++ c :: l) =
      occurrences (bracketed m) (x ++ [c]) + occurrences (bracketed m) l := by
  induction x with
  | nil =>
    have hnot (r : List Char) : ¬ bracketed m <+: c :: r := fun h =>
      hc ((bracketed_prefix_cons.1 h).1 ▸ List.mem_cons_self)
    have hnil : occurrences (bracketed m) [] = 0 := rfl
    rw [List.nil_append, List.nil_append, occurrences_cons, occurrences_cons, if_neg (hnot l),
      if_neg (hnot []), hnil, Nat.zero_add, Nat.add_zero]
  | cons d x ih =>
    have hstarts : bracketed m <+: d :: (x ++ c :: l) ↔ bracketed m <+: d :: (x ++ [c]) :=
      prefix_append_cons hc (x := d :: x)
    rw [List.cons_append, List.cons_append, occurrences_cons, occurrences_cons, ih]
    simp only [hstarts]
    omega

/-- Nor does one end with a character that none ends with. -/
theorem occurrences_concat (hc : c ≠ '>') (x : List Char) :
    occurrences (bracketed m) (x ++ [c]) = occurrences (bracketed m) x := by
  have hstarts (y : List Char) : bracketed m <+: y ++ [c] ↔ bracketed m <+: y := by
    refine List.prefix_concat_iff.trans (or_iff_right fun h => hc ?_)
    have hlast := congrArg List.getLast? h
    rw [bracketed, ← List.cons_append, List.getLast?_concat, List.getLast?_concat] at hlast
    exact (Option.some.inj hlast).symm
  induction x with
  | nil =>
    have hnot : ¬ bracketed m <+: [c] := fun h => by simpa [bracketed] using (hstarts []).1 h
    rw [List.nil_append, occurrences_cons, if_neg hnot]
    rfl
  | cons d x ih =>
    rw [List.cons_append, occurrences_cons, occurrences_cons, ih]
    simp only [← List.cons_append, hstarts]

/-! ## Pieces -/

/-- A part of a text: a character, or a marker. -/
inductive Piece
  | char (c : Char)
  | marker (name : String)
deriving DecidableEq, Repr

/-- The piece as it stands in a text. -/
def Piece.source : Piece → List Char
  | .char c => [c]
  | .marker name => bracketed name

/-- The pieces of a text, with the markers in `names`, after some characters that
    belong to a marker. -/
def piecesAfter (names : List String) : Nat → List Char → List Piece
  | _, [] => []
  | skip + 1, _ :: r => piecesAfter names skip r
  | 0, c :: r =>
    match names.find? fun name => (bracketed name).isPrefixOf (c :: r) with
    | some name => .marker name :: piecesAfter names (name.toList.length + 1) r
    | none => .char c :: piecesAfter names 0 r

/-- The pieces of a text, with the markers in `names`. -/
def pieces (names : List String) (text : List Char) : List Piece := piecesAfter names 0 text

/-- Skipping some characters is to go on behind them. -/
theorem piecesAfter_eq (skip : Nat) (l : List Char) :
    piecesAfter names skip l = pieces names (l.drop skip) := by
  induction l generalizing skip with
  | nil => cases skip <;> rfl
  | cons c r ih =>
    cases skip with
    | zero => rfl
    | succ skip => exact ih skip

/-- Where no marker starts, the next piece is a character. -/
theorem pieces_char (h : ∀ n ∈ names, ¬ bracketed n <+: c :: r) :
    pieces names (c :: r) = .char c :: pieces names r := by
  have hnone : (names.find? fun name => (bracketed name).isPrefixOf (c :: r)) = none :=
    List.find?_eq_none.2 fun n hn hstarts => h n hn (List.isPrefixOf_iff_prefix.1 hstarts)
  rw [pieces, piecesAfter, hnone]
  rfl

/-- Where no marker starts, there are characters only. -/
theorem pieces_append (hx : '<' ∉ x) : pieces names (x ++ l) = x.map .char ++ pieces names l := by
  induction x with
  | nil => rfl
  | cons c x ih =>
    rw [List.mem_cons, not_or] at hx
    rw [List.cons_append, pieces_char fun n _ h => hx.1 (bracketed_prefix_cons.1 h).1.symm, ih hx.2]
    rfl

/-- A text begins with a marker or with another character. -/
@[elab_as_elim]
theorem pieces_induction (names : List String) {P : List Char → Prop} (nil : P [])
    (marker : ∀ m ∈ names, ∀ l, P l → P (bracketed m ++ l))
    (char : ∀ c l, (∀ n ∈ names, ¬ bracketed n <+: c :: l) → P l → P (c :: l)) (l : List Char) :
    P l := by
  induction hlength : l.length using Nat.strong_induction_on generalizing l with
  | _ k ih =>
    by_cases h : ∃ m ∈ names, bracketed m <+: l
    · obtain ⟨m, hm, l, rfl⟩ := h
      refine marker m hm l (ih l.length ?_ l rfl)
      rw [← hlength, bracketed_append]
      simp
      omega
    · cases l with
      | nil => exact nil
      | cons c l =>
        refine char c l (fun n hn hstarts => h ⟨n, hn, hstarts⟩) (ih l.length ?_ l rfl)
        rw [← hlength]
        exact Nat.lt_succ_self _

variable (hnames : ∀ n ∈ names, Plain n)

include hnames

/-- Where one starts, it is the next piece. -/
theorem pieces_marker (hm : m ∈ names) (l : List Char) :
    pieces names (bracketed m ++ l) = .marker m :: pieces names l := by
  have hfind :
      (names.find? fun name => (bracketed name).isPrefixOf (bracketed m ++ l)) = some m := by
    obtain ⟨n, hn⟩ : ∃ n, (names.find? fun name =>
        (bracketed name).isPrefixOf (bracketed m ++ l)) = some n := by
      refine Option.isSome_iff_exists.1 (List.find?_isSome.2 ⟨m, hm, ?_⟩)
      exact List.isPrefixOf_iff_prefix.2 (List.prefix_append _ _)
    -- Names have no brackets, so one name in brackets is not the start of another.
    have hstarts := List.isPrefixOf_iff_prefix.1
      (List.find?_some (p := fun name => (bracketed name).isPrefixOf (bracketed m ++ l)) hn)
    rw [hn, (bracketed_prefix_bracketed (hnames n (List.mem_of_find?_eq_some hn))
      (hnames m hm)).1 hstarts]
  rw [bracketed_append] at hfind ⊢
  rw [pieces, piecesAfter, hfind]
  dsimp only
  have hdrop : (m.toList ++ '>' :: l).drop (m.toList.length + 1) = l := by
    rw [List.append_cons, List.drop_left' (by simp)]
  rw [piecesAfter_eq, hdrop]

/-- Nothing of the text is lost. -/
theorem source_pieces (l : List Char) : (pieces names l).flatMap Piece.source = l := by
  induction l using pieces_induction names with
  | nil => rfl
  | marker m hm l ih => rw [pieces_marker hnames hm, List.flatMap_cons, ih, Piece.source]
  | char c l h ih => rw [pieces_char h, List.flatMap_cons, ih]; rfl

/-- Only markers that are looked for are pieces. -/
theorem mem_of_marker_mem_pieces {l : List Char} (h : .marker m ∈ pieces names l) : m ∈ names := by
  induction l using pieces_induction names with
  | nil => exact absurd h List.not_mem_nil
  | marker n hn l ih =>
    rw [pieces_marker hnames hn, List.mem_cons] at h
    obtain h | h := h
    · exact Piece.marker.inj h ▸ hn
    · exact ih h
  | char c l hc ih =>
    rw [pieces_char hc, List.mem_cons] at h
    exact h.elim nofun ih

/-- Each occurrence of a marker is a piece. -/
theorem count_pieces (hm : m ∈ names) (l : List Char) :
    (pieces names l).count (.marker m) = occurrences (bracketed m) l := by
  induction l using pieces_induction names with
  | nil => rfl
  | marker n hn l ih =>
    rw [pieces_marker hnames hn, List.count_cons, ih,
      occurrences_bracketed (hnames m hm) (hnames n hn)]
    simp
  | char c l h ih => rw [pieces_char h, List.count_cons, ih, occurrences_cons, if_neg (h m hm)]; rfl

end Template

end ObjectModel
