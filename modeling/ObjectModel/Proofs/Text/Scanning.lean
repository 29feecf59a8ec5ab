import Mathlib.Data.List.Infix
import Mathlib.Data.List.Sort
import Mathlib.Data.String.Basic
import ObjectModel.Proofs.Naming.Words
import ObjectModel.Proofs.Text.Markers

/-!
# Scanning a text for markers

The markers of a template are listed in the order in which they first stand in its text
(`Template.ascending_markers`). With what they are this makes up the list: there is no other
one like it (`Template.markers_eq_iff`).

A text need not be gone through character by character. It may be read as bytes, and behind a
marker the search may go on at its end (`Template.scanAhead`). Nothing is missed, as no marker
starts inside another one, and nothing else is found, as the bytes of a character outside ASCII
are none of those that markers are made of (`Template.scanAhead_octets`).
-/

namespace ObjectModel

namespace Template

/-- Where `w` first stands in a text. -/
def firstAt (w l : List Char) : Nat := l.tails.findIdx (w.isPrefixOf ·)

/-- The marker `m` stands in a text before the first `n` does. -/
def Before (text : List Char) (m n : String) : Prop :=
  firstAt (bracketed m) text < firstAt (bracketed n) text

instance (text : List Char) : Std.Irrefl (Before text) := ⟨fun _ => Nat.lt_irrefl _⟩

instance (text : List Char) : Std.Antisymm (Before text) :=
  ⟨fun _ _ h h' => absurd h' (Nat.lt_asymm h)⟩

/-- The markers in a text after those in `found`, as with `markersFrom`, but the next `skip`
    characters are passed over: they belong to the marker that was found last. -/
def scanAhead (found : List String) : Nat → List Char → List String
  | _, [] => found.reverse
  | skip + 1, _ :: r => scanAhead found skip r
  | 0, c :: r =>
    match if c = '<' then markerAfterBracket? r else none with
    | some name =>
      scanAhead (if name ∈ found then found else name :: found) (name.toList.length + 1) r
    | none => scanAhead found 0 r

/-- The bytes of a character, as characters. -/
def octetsOf (c : Char) : List Char := (String.utf8EncodeChar c).map Char.ofUInt8

/-- The bytes of a text, as characters. -/
def octets (text : String) : List Char := text.toUTF8.data.toList.map Char.ofUInt8

variable {m n : String} {found : List String} {c : Char} {l r x w p : List Char}

/-! ## The order of markers -/

theorem firstAt_of_prefix (h : w <+: l) : firstAt w l = 0 := by
  have hhere : w.isPrefixOf l = true := List.isPrefixOf_iff_prefix.2 h
  cases l <;> simp [firstAt, List.findIdx_cons, hhere]

/-- What does not stand at the front stands one further behind. -/
theorem firstAt_cons (h : ¬ w <+: c :: r) : firstAt w (c :: r) = firstAt w r + 1 := by
  have hhere : w.isPrefixOf (c :: r) = false := by
    rwa [← Bool.not_eq_true, List.isPrefixOf_iff_prefix]
  rw [firstAt, List.tails_cons, List.findIdx_cons, hhere, cond_false]
  rfl

/-- What stands further on keeps its order. -/
theorem Before.cons (h : Before r m n) (hm : ¬ bracketed m <+: c :: r)
    (hn : ¬ bracketed n <+: c :: r) : Before (c :: r) m n := by
  rw [Before, firstAt_cons hm, firstAt_cons hn]
  exact Nat.succ_lt_succ h

/-- Where one marker starts there is no other. -/
theorem eq_of_bracketed_prefix (hm : Plain m) (hn : Plain n) (h : bracketed m <+: l)
    (h' : bracketed n <+: l) : m = n := by
  obtain ⟨rest, rfl⟩ := h
  exact (bracketed_prefix_bracketed hn hm).1 h'

/-- What was found before is kept, and not listed again. -/
theorem markersFrom_eq (found : List String) (l : List Char) :
    markersFrom found l = found.reverse ++ (markersFrom [] l).filter (· ∉ found) := by
  induction l generalizing found with
  | nil => simp [markersFrom]
  | cons c r ih =>
    rw [markersFrom, markersFrom]
    split
    · rename_i name _
      rw [ih, ih (if name ∈ [] then [] else [name]), if_neg List.not_mem_nil,
        List.reverse_singleton, List.singleton_append]
      by_cases hname : name ∈ found
      · rw [if_pos hname, List.filter_cons_of_neg (by simpa using hname), List.filter_filter]
        refine congrArg (found.reverse ++ ·) (List.filter_congr fun m _ => ?_)
        have hne : m ∉ found → m ≠ name := fun hm heq => hm (heq ▸ hname)
        simpa using hne
      · rw [if_neg hname, List.filter_cons_of_pos (by simpa using hname), List.filter_filter,
          List.reverse_cons, List.append_assoc, List.singleton_append]
        refine congrArg (found.reverse ++ name :: ·) (List.filter_congr fun m _ => ?_)
        simp [Bool.and_comm]
    · exact ih found

/-- By induction on the text: a marker in front is listed first, and no other starts there. -/
theorem ascending_markersFrom (l : List Char) : (markersFrom [] l).Pairwise (Before l) := by
  induction l with
  | nil => exact .nil
  | cons c r ih =>
    rw [markersFrom]
    split
    · rename_i name hname
      obtain ⟨hmarker, hprefix⟩ := markerHere_eq_some.1 hname
      -- At one place there is at most one marker, so the others are met later.
      have hothers : ∀ m ∈ (markersFrom [] r).filter (· ∉ [name]), ¬ bracketed m <+: c :: r := by
        intro m hm hprefix'
        rw [List.mem_filter, mem_markersFrom] at hm
        have hplain : Plain m := (hm.1.resolve_left List.not_mem_nil).1.plain
        have heq := eq_of_bracketed_prefix hmarker.plain hplain hprefix hprefix'
        simp [heq] at hm
      rw [if_neg List.not_mem_nil, markersFrom_eq, List.reverse_singleton, List.singleton_append,
        List.pairwise_cons]
      refine ⟨fun m hm => ?_, (ih.filter _).imp_of_mem fun hm hn h => ?_⟩
      · rw [Before, firstAt_of_prefix hprefix, firstAt_cons (hothers m hm)]
        exact Nat.succ_pos _
      · exact h.cons (hothers _ hm) (hothers _ hn)
    · rename_i hnone
      have hnot : ∀ m ∈ markersFrom [] r, ¬ bracketed m <+: c :: r := by
        intro m hm hprefix
        have hmarker := (mem_markersFrom.1 hm).resolve_left List.not_mem_nil
        have hsome := markerHere_eq_some.2 ⟨hmarker.1, hprefix⟩
        rw [hnone] at hsome
        cases hsome
      exact ih.imp_of_mem fun hm hn h => h.cons (hnot _ hm) (hnot _ hn)

/-! ## Going on behind a marker -/

/-- No marker starts in a text without an opening bracket. -/
theorem markersFrom_append (hx : '<' ∉ x) : markersFrom found (x ++ l) = markersFrom found l := by
  induction x with
  | nil => rfl
  | cons c x ih =>
    rw [List.mem_cons, not_or] at hx
    rw [List.cons_append, markersFrom, if_neg (Ne.symm hx.1)]
    exact ih hx.2

/-- Going on behind a marker misses none, as none starts inside of another. -/
theorem scanAhead_eq (found : List String) (skip : Nat) (l : List Char) :
    scanAhead found skip l = markersFrom found (l.drop skip) := by
  induction l generalizing found skip with
  | nil => rw [List.drop_nil, scanAhead, markersFrom]
  | cons c r ih =>
    cases skip with
    | succ skip => exact ih found skip
    | zero =>
      rw [List.drop_zero, scanAhead, markersFrom]
      rcases hhere : if c = '<' then markerAfterBracket? r else none with _ | name
      · exact ih found 0
      · obtain ⟨hmarker, hprefix⟩ := markerHere_eq_some.1 hhere
        obtain ⟨rest, hrest⟩ := (bracketed_prefix_cons.1 hprefix).2
        -- Nothing is missed by going on behind a marker, since no other starts within it.
        have hbrackets : '<' ∉ name.toList ++ ['>'] := by
          rw [List.mem_append, not_or]
          exact ⟨hmarker.plain.not_mem (by decide), by decide⟩
        dsimp only
        rw [ih, ← hrest, List.drop_left' (by simp), markersFrom_append hbrackets]

/-! ## Going through the bytes -/

/-- The bytes of a text are those of its characters, one after the other. -/
theorem octets_eq (text : String) : octets text = text.toList.flatMap octetsOf := by
  have hbytes : text.toUTF8.data.toList = text.toList.flatMap String.utf8EncodeChar := by
    conv_lhs => rw [← String.ofList_toList (s := text)]
    rw [String.toUTF8_eq_toByteArray, String.toByteArray_ofList, List.utf8Encode,
      List.data_toByteArray]
  rw [octets, hbytes, List.map_flatMap]
  rfl

theorem toNat_ofUInt8 (b : UInt8) : (Char.ofUInt8 b).toNat = b.toNat := rfl

theorem octetsOf_ascii (hc : c.toNat < 128) : octetsOf c = [c] := by
  have hlow : c.val.toNat ≤ 127 := Nat.le_of_lt_succ hc
  rw [octetsOf, String.utf8EncodeChar, if_pos hlow, List.map_singleton, List.singleton_inj,
    ← Char.toNat_inj, toNat_ofUInt8, UInt8.toNat_ofNat']
  exact Nat.mod_eq_of_lt (hc.trans (by decide))

/-- Outside ASCII all bytes have their first bit set, be they two, three or four. -/
theorem le_of_mem_octetsOf (hc : 128 ≤ c.toNat) : ∀ x ∈ octetsOf c, 128 ≤ x.toNat := by
  have hhigh : ¬ c.val.toNat ≤ 127 := Nat.not_le_of_lt hc
  rw [octetsOf, List.forall_mem_map, String.utf8EncodeChar, if_neg hhigh]
  split_ifs <;>
  · simp only [List.forall_mem_cons, List.not_mem_nil, false_implies, implies_true, and_true,
      toNat_ofUInt8, UInt8.toNat_ofNat']
    omega

theorem octetsOf_ne_nil (c : Char) : octetsOf c ≠ [] := by
  rw [octetsOf, Ne, List.map_eq_nil_iff, ← List.length_eq_zero_iff, String.length_utf8EncodeChar]
  exact c.utf8Size_pos.ne'

/-- Markers are made of ASCII. -/
theorem isMarkerChar_lt (hc : isMarkerChar c = true) : c.toNat < 128 := by
  rw [isMarkerChar, Bool.or_eq_true, Bool.or_eq_true, beq_iff_eq] at hc
  obtain (hupper | hdigit) | rfl := hc
  · exact Nat.lt_of_le_of_lt (Spelling.isUpper_iff.1 hupper).2 (by decide)
  · exact Nat.lt_of_le_of_lt (Spelling.isDigit_iff.1 hdigit).2 (by decide)
  · decide

/-- What is in ASCII starts in the bytes of a text where it starts in the text. -/
theorem prefix_octets (hp : ∀ c ∈ p, c.toNat < 128) : p <+: l.flatMap octetsOf ↔ p <+: l := by
  induction p generalizing l with
  | nil => simp
  | cons a p ih =>
    obtain ⟨ha, hp⟩ := List.forall_mem_cons.1 hp
    cases l with
    | nil => rfl
    | cons c r =>
      rw [List.flatMap_cons]
      rcases Nat.lt_or_ge c.toNat 128 with hc | hc
      · -- An ASCII character is one octet, and no octet of another character is ASCII.
        rw [octetsOf_ascii hc, List.singleton_append, List.cons_prefix_cons, List.cons_prefix_cons,
          ih hp]
      · obtain ⟨d, s, hoctets⟩ := List.exists_cons_of_ne_nil (octetsOf_ne_nil c)
        have hd : 128 ≤ d.toNat := le_of_mem_octetsOf hc d (hoctets ▸ List.mem_cons_self)
        rw [hoctets, List.cons_append, List.cons_prefix_cons, List.cons_prefix_cons]
        refine iff_of_false (fun h => ?_) fun h => ?_
        · exact absurd (h.1 ▸ ha) (Nat.not_lt_of_ge hd)
        · exact absurd (h.1 ▸ ha) (Nat.not_lt_of_ge hc)

/-- A bracket opens the same marker among the bytes. -/
theorem markerAfterBracket?_octets (r : List Char) :
    markerAfterBracket? (r.flatMap octetsOf) = markerAfterBracket? r := by
  ext name
  rw [markerAfterBracket?_eq_some, markerAfterBracket?_eq_some]
  refine and_congr_right fun hmarker => prefix_octets fun c hc => ?_
  rcases List.mem_append.1 hc with hc | hc
  · exact isMarkerChar_lt (hmarker.plain c hc)
  · obtain rfl := List.mem_singleton.1 hc
    decide

/-- By induction on the text: in ASCII a character is its byte, and outside it neither the
    character nor any of its bytes is a bracket. -/
theorem markersFrom_octets (found : List String) (l : List Char) :
    markersFrom found (l.flatMap octetsOf) = markersFrom found l := by
  induction l generalizing found with
  | nil => rfl
  | cons c r ih =>
    rw [List.flatMap_cons]
    rcases Nat.lt_or_ge c.toNat 128 with hc | hc
    · rw [octetsOf_ascii hc, List.singleton_append, markersFrom, markersFrom,
        markerAfterBracket?_octets]
      split
      · exact ih _
      · exact ih found
    · have hoctets : '<' ∉ octetsOf c := fun h => absurd (le_of_mem_octetsOf hc _ h) (by decide)
      have hchar : '<' ∉ [c] := by
        rw [List.mem_singleton]
        rintro rfl
        exact absurd hc (by decide)
      rw [markersFrom_append hoctets, ih, ← markersFrom_append hchar (l := r)]
      rfl

/-- Reading bytes and going on behind each marker, one finds the markers of the text. -/
theorem scanAhead_octets (t : Template) : scanAhead [] 0 (octets t.text) = t.markers := by
  rw [scanAhead_eq, List.drop_zero, octets_eq, markersFrom_octets, markers]

/-! ## The list of markers -/

/-- Markers are listed in the order in which they stand first. -/
theorem ascending_markers (t : Template) : t.markers.Pairwise (Before t.text.toList) :=
  ascending_markersFrom _

/-- The markers of a template are listed once each, in order of their first occurrence, and
    they are all that stand in its text: this is the list. Reading the bytes of the text and
    going on behind each marker leads to the same one. -/
theorem markers_eq_iff (t : Template) (names : List String) :
    (t.markers = names ↔ names.Nodup ∧
      (∀ m, m ∈ names ↔ IsMarker m ∧ bracketed m <:+: t.text.toList) ∧
      names.Pairwise (Before t.text.toList)) ∧
    scanAhead [] 0 (octets t.text) = t.markers := by
  refine ⟨⟨?_, ?_⟩, scanAhead_octets t⟩
  · rintro rfl
    exact ⟨nodup_markers t, fun m => mem_markers, ascending_markers t⟩
  · rintro ⟨-, hmem, hascending⟩
    exact (ascending_markers t).eq_of_mem_iff hascending fun m => mem_markers.trans (hmem m).symm

/-- A bracket that opens no marker may stand just before one, also after part of a name. -/
example : markers { name := "", text := "<<ONE> ä<Ä<TWO_2>> <ONE <ONE><T> <ab>" } =
    ["ONE", "TWO_2"] := by decide +kernel

end Template

end ObjectModel
