import ObjectModel.Generation.Generator
import ObjectModel.Proofs.Text.Rendering

/-!
# Fixed texts of files

The markers of a template made from code are found line by line
(`Code.mem_markers_textBy`), so it is the pieces of the code that tell which there are.
A frame `Fits` keys if these are just its markers, and then takes values for them
(`Blueprint.exists_fillFrame`).
-/

namespace ObjectModel.Generation

open Template

variable {m : String} {ms : List String}

/-! ## Markers of code -/

/-- What stands in a line. -/
def Line.chars : Line → List Char
  | .text _ written => written.toList
  | .hole marker => bracketed marker

/-- The markers in a line. -/
def Line.markers (l : Line) : List String := markersFrom [] l.chars

/-- What is put around a line makes up no marker
    with it, neither blanks nor the line break. -/
theorem Line.occurrences_append (hm : Plain m) (width : Nat) (l : Line) (r : List Char) :
    occurrences (bracketed m) ((Code.lineText width l).toList ++ r) =
      occurrences (bracketed m) l.chars + occurrences (bracketed m) r := by
  -- Neither `>` nor a line break can stand within
  -- `<m`, so no marker runs over the end of a line.
  have hbracket (c : Char) (hc : isMarkerChar c = false) (hopen : c ≠ '<') :
      c ∉ '<' :: m.toList := by
    rw [List.mem_cons, not_or]
    exact ⟨hopen, hm.not_mem hc⟩
  cases l with
  | hole marker =>
    rw [Code.lineText, toList_brackets, chars, bracketed_append,
      ← List.cons_append, occurrences_append_cons (hbracket '>' (by decide) (by decide))]
    rfl
  | text depth written =>
    have hline : (Code.lineText width (.text depth written)).toList ++ r =
        (if written = "" then [] else List.replicate (width * depth) ' ') ++
          (written.toList ++ '\n' :: r) := by
      rw [Code.lineText]
      split
      · rename_i h
        rw [h]
        rfl
      · simp
    have hblanks : '<' ∉ if written = "" then [] else List.replicate (width * depth) ' ' := by
      split
      · exact List.not_mem_nil
      · exact fun h => absurd (List.eq_of_mem_replicate h) (by decide)
    rw [hline, occurrences_append_of_not_mem hblanks,
      occurrences_append_cons (hbracket '\n' (by decide) (by decide)),
      occurrences_concat (by decide), chars]

theorem Code.textBy_cons {width : Nat} {l : Line} {code : Code} :
    textBy width (l :: code) = lineText width l ++ textBy width code := by
  rw [textBy, List.map_cons, String.join_cons, textBy]

theorem Code.textBy_append {width : Nat} {code more : Code} :
    textBy width (code ++ more) = textBy width code ++ textBy width more := by
  rw [textBy, List.map_append, String.join_append, textBy, textBy]

/-- A marker stands in a text if it stands in one of the lines. -/
theorem Code.infix_textBy (hm : Plain m) {width : Nat} {code : Code} :
    bracketed m <:+: (code.textBy width).toList ↔ ∃ l ∈ code, bracketed m <:+: l.chars := by
  induction code with
  | nil => simp [textBy, String.join, bracketed]
  | cons l code ih =>
    rw [textBy_cons, String.toList_append, ← occurrences_pos, Line.occurrences_append hm,
      Nat.add_pos_iff_pos_or_pos, occurrences_pos, occurrences_pos, ih, List.exists_mem_cons_iff]

/-- There is no bracket in the line that could open a marker. -/
def Line.isQuiet : Line → Bool
  | .text _ written => !written.toList.contains '<'
  | .hole _ => false

/-- In code without brackets there is none. -/
theorem Code.not_mem_textBy {width : Nat} {code : Code} (h : ∀ l ∈ code, l.isQuiet = true) :
    '<' ∉ (code.textBy width).toList := by
  induction code with
  | nil => simp [textBy, String.join]
  | cons l code ih =>
    obtain ⟨hl, hrest⟩ := List.forall_mem_cons.1 h
    rw [textBy_cons, String.toList_append, List.mem_append, not_or]
    refine ⟨?_, ih hrest⟩
    cases l with
    | hole => cases hl
    | text depth written =>
      have hwritten : '<' ∉ written.toList := by simpa [Line.isQuiet] using hl
      rw [lineText]
      split
      · decide
      · simp [hwritten]

theorem Line.mem_markers {l : Line} : m ∈ l.markers ↔ IsMarker m ∧ bracketed m <:+: l.chars := by
  rw [markers, mem_markersFrom, or_iff_right List.not_mem_nil]

/-- A template made from code has the markers of its lines. -/
theorem Code.mem_markers_textBy {width : Nat} {code : Code} {t : Template}
    (ht : t.text = code.textBy width) : m ∈ t.markers ↔ ∃ l ∈ code, m ∈ l.markers := by
  simp only [mem_markers, Line.mem_markers, ht]
  constructor
  · rintro ⟨hm, h⟩
    obtain ⟨l, hl, h⟩ := (infix_textBy hm.plain).1 h
    exact ⟨l, hl, hm, h⟩
  · rintro ⟨l, hl, hm, h⟩
    exact ⟨hm, (infix_textBy hm.plain).2 ⟨l, hl, h⟩⟩

/-! ## Frames -/

/-- The markers of code are among `keys`. -/
def Code.Known (keys : List String) (code : Code) : Prop := ∀ l ∈ code, ∀ m ∈ l.markers, m ∈ keys

/-- The markers of code are just the keys. -/
structure Code.Fits (code : Code) (keys : List String) : Prop where
  /-- There is no other marker. -/
  known : code.Known keys
  /-- There is each of them. -/
  used : ∀ m ∈ keys, ∃ l ∈ code, m ∈ l.markers

/-- A template made from a frame has the keys for markers. -/
theorem Code.Fits.mem_markers {width : Nat} {code : Code} {keys : List String} {t : Template}
    (h : code.Fits keys) (ht : t.text = code.textBy width) : m ∈ t.markers ↔ m ∈ keys := by
  rw [mem_markers_textBy ht]
  exact ⟨fun ⟨l, hl, hm⟩ => h.known l hl m hm, h.used m⟩

theorem Code.Fits.exists_fillAll {code : Code} {values : List (String × String)}
    (h : code.Fits (values.map Prod.fst)) (width : Nat) (name : String) :
    ∃ s, Template.fillAll { name, text := code.textBy width } values = .ok s :=
  Template.exists_fillAll fun _ => (h.mem_markers rfl).symm

/-- A frame takes values for its markers. -/
theorem Blueprint.exists_fillFrame (b : Blueprint) {frame : Code} {keys : List String}
    (h : frame.Fits ("BANNER" :: keys)) {values : List (String × String)}
    (hvalues : values.map Prod.fst = keys) (name subject : String) :
    ∃ s, b.fillFrame frame name subject values = .ok s := by
  subst hvalues
  have hfits : frame.Fits ((("BANNER", (b.banner subject).text) :: values).map Prod.fst) := h
  exact hfits.exists_fillAll 4 name

/-! ## Frames piece by piece -/

/-- The markers in a text are among `keys`. -/
structure KnownIn (keys : List String) (written : String) : Prop where
  mem : ∀ m ∈ markersFrom [] written.toList, m ∈ keys

variable {keys : List String}

/-- In a text without markers there is nothing to know. -/
theorem knownIn_of_quiet {cs : List Char} (h : markersFrom [] cs = []) :
    KnownIn keys (String.ofList cs) := by
  refine ⟨?_⟩
  rw [String.toList_ofList, h]
  exact List.forall_mem_nil _

theorem knownIn_append {cs cs' : List Char} (h : markersFrom [] (cs ++ cs') = []) :
    KnownIn keys (String.ofList cs ++ String.ofList cs') := by
  rw [← String.ofList_append]
  exact knownIn_of_quiet h

theorem knownIn_ofList {cs : List Char} (h : ∀ m ∈ markersFrom [] cs, m ∈ keys) :
    KnownIn keys (String.ofList cs) := by
  refine ⟨?_⟩
  rw [String.toList_ofList]
  exact h

/-- The markers in a text are those that occur in it. -/
theorem knownIn_iff {written : String} :
    KnownIn keys written ↔
      ∀ m, IsMarker m → 0 < occurrences (bracketed m) written.toList → m ∈ keys := by
  refine ⟨fun ⟨h⟩ m hm hpos => h m ?_, fun h => ⟨fun m hm => ?_⟩⟩
  · exact mem_markersFrom.2 (.inr ⟨hm, occurrences_pos.1 hpos⟩)
  · obtain h' | ⟨hm, hinfix⟩ := mem_markersFrom.1 hm
    · exact absurd h' List.not_mem_nil
    · exact h m hm (occurrences_pos.2 hinfix)

/-- Braces bring in no marker. -/
theorem knownIn_opening {head : String} :
    KnownIn keys (if head = "" then "\x7b" else head ++ " \x7b") ↔ KnownIn keys head := by
  split
  · rename_i h
    subst h
    exact iff_of_true (knownIn_of_quiet rfl) (knownIn_of_quiet rfl)
  · rw [knownIn_iff, knownIn_iff]
    refine forall₂_congr fun m hm => ?_
    have hspace : ' ' ∉ '<' :: m.toList := by
      rw [List.mem_cons, not_or]
      exact ⟨by decide, hm.plain.not_mem (by decide)⟩
    have hbrace : occurrences (bracketed m) ['\x7b'] = 0 := by
      rw [← List.nil_append ['\x7b'], occurrences_concat (by decide)]
      rfl
    have htext : (head ++ " \x7b").toList = head.toList ++ ' ' :: ['\x7b'] := String.toList_append
    rw [htext, occurrences_append_cons hspace, occurrences_concat (by decide), hbrace, Nat.add_zero]

theorem knownIn_closing {stop : String} : KnownIn keys ("\x7d" ++ stop) ↔ KnownIn keys stop := by
  rw [knownIn_iff, knownIn_iff]
  refine forall₂_congr fun m _ => ?_
  have htext : ("\x7d" ++ stop).toList = ['\x7d'] ++ stop.toList := String.toList_append
  rw [htext, occurrences_append_of_not_mem (by decide)]

namespace Code

theorem known_line {written : String} : Known keys (line written) ↔ KnownIn keys written :=
  List.forall_mem_singleton.trans ⟨fun h => ⟨h⟩, fun h => h.mem⟩

theorem known_hole : Known keys (hole m) ↔ ∀ n ∈ markersFrom [] (bracketed m), n ∈ keys :=
  List.forall_mem_singleton

theorem known_append {code more : Code} :
    Known keys (code ++ more) ↔ Known keys code ∧ Known keys more := List.forall_mem_append

theorem known_all {parts : List Code} : Known keys (all parts) ↔ ∀ c ∈ parts, Known keys c := by
  simp only [Known, all, List.mem_flatten]
  exact ⟨fun h c hc l hl => h l ⟨c, hc, hl⟩, fun h l ⟨c, hc, hl⟩ => h c hc l hl⟩

theorem known_indent {code : Code} {depth : Nat} :
    Known keys (indent depth code) ↔ Known keys code := by
  rw [Known, indent, List.forall_mem_map]
  refine forall₂_congr fun l _ => ?_
  cases l <;> rfl

theorem known_blockUpTo {head stop : String} {body : List Code} :
    Known keys (blockUpTo head body stop) ↔
      KnownIn keys head ∧ (∀ c ∈ body, Known keys c) ∧ KnownIn keys stop := by
  rw [blockUpTo, known_append, known_append, known_indent, known_all, opening, known_line,
    known_line, knownIn_opening, knownIn_closing, and_assoc]

theorem known_block {head : String} {body : List Code} :
    Known keys (block head body) ↔ KnownIn keys head ∧ ∀ c ∈ body, Known keys c := by
  rw [block, known_blockUpTo]
  exact and_congr_right fun _ => and_iff_left (knownIn_of_quiet rfl)

theorem known_choice {head stop : String} {body otherwise : List Code} :
    Known keys (choice head body otherwise stop) ↔ KnownIn keys head ∧
      (∀ c ∈ body, Known keys c) ∧ (∀ c ∈ otherwise, Known keys c) ∧ KnownIn keys stop := by
  rw [choice, known_append, known_append, known_blockUpTo, known_indent, known_all, opening,
    known_line, knownIn_opening, and_assoc]
  refine and_congr_right fun _ => and_congr_right fun _ => ?_
  exact and_iff_right (knownIn_of_quiet (by decide))

end Code

/-- A hole for a key is a use of it. -/
theorem used_of_holes (keys : List String) {code : Code}
    (h : ∀ m ∈ keys, Line.hole m ∈ code ∧ m ∈ (Line.hole m).markers) :
    ∀ m ∈ keys, ∃ l ∈ code, m ∈ l.markers :=
  fun m hm => ⟨_, h m hm⟩

/-- So is a line with its marker. -/
theorem used_of_text {code : Code} {depth : Nat} {cs : List Char}
    (h : Line.text depth (String.ofList cs) ∈ code) (hm : m ∈ markersFrom [] cs) :
    ∃ l ∈ code, m ∈ l.markers := by
  refine ⟨_, h, ?_⟩
  rw [Line.markers, Line.chars, String.toList_ofList]
  exact hm

/-- Code without other markers fits its keys if one line and holes use them. -/
theorem Code.Known.fits {code : Code} {depth : Nat} {cs : List Char} (h : Known keys code)
    (hline : Line.text depth (String.ofList cs) ∈ code)
    (hused : ∀ m ∈ keys, m ∈ markersFrom [] cs ∨
      Line.hole m ∈ code ∧ m ∈ (Line.hole m).markers) : Fits code keys where
  known := h
  used m hm := (hused m hm).elim (used_of_text hline) fun hhole => ⟨_, hhole⟩

end ObjectModel.Generation
