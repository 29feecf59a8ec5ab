import ObjectModel.Proofs.Generation.Frames
import ObjectModel.Proofs.Outcome

/-!
# The file of modules

What a text declares is read off its lines (`declared`). The file that is added to all
others declares the module of each, and that of clones written by hand just if one is
called for (`Generator.declares_declarations`). Its heading quotes the name of the
schema in a comment. If there are line breaks in this name, the comment has lines that are
none: the file as a whole declares nothing else just if these do not declare anything
(`Generator.Declares.heading_iff`).
-/

namespace ObjectModel.Generation

/-! ## Lines of a text -/

/-- The lines of a text. -/
def lines (text : String) : List (List Char) := text.toList.splitOn '\n'

/-- The module that a line declares after `head`, if it declares one in another file. -/
def declaredIn (head : String) (row : List Char) : Option String :=
  (head.toList.isPrefixOf? row).bind fun name =>
    if name.getLast? = some ';' then some (String.ofList name.dropLast) else none

/-- The modules in other files that a text declares in lines that start with `head`. -/
def declared (head text : String) : List String := (lines text).filterMap (declaredIn head)

/-- What stands in a line of written code, the line break left out. -/
def Line.row (width : Nat) : Line → List Char
  | .text depth written =>
    if written = "" then [] else List.replicate (width * depth) ' ' ++ written.toList
  | .hole marker => '<' :: (marker.toList ++ ['>'])

/-- The line is one in the text, too. -/
def Line.isPlain : Line → Bool
  | .text _ written => !written.toList.contains '\n'
  | .hole _ => false

variable {head name text : String} {width : Nat} {code : Code} {row : List Char}

/-- A line of this form declares what it names. -/
theorem declaredIn_append (head name : String) :
    declaredIn head (head ++ (name ++ ";")).toList = some name := by
  have hname : head.toList.isPrefixOf? (head ++ (name ++ ";")).toList =
      some (name.toList ++ [';']) :=
    List.isPrefixOf?_eq_some_iff_append_eq.2 (by simp)
  rw [declaredIn, hname]
  simp

/-- A line of another form declares nothing. -/
theorem declaredIn_eq_none (h : ¬ head.toList <+: row) : declaredIn head row = none := by
  have hrow : head.toList.isPrefixOf? row = none :=
    Option.eq_none_iff_forall_ne_some.2 fun name hname =>
      h ⟨name, List.isPrefixOf?_eq_some_iff_append_eq.1 hname⟩
  rw [declaredIn, hrow]
  rfl

/-! ## What is declared -/

/-- A line that is not moved in is what is written. -/
theorem Line.row_zero (width : Nat) (written : String) :
    Line.row width (.text 0 written) = written.toList := by
  rw [row]
  split
  · next h => rw [h, String.toList_empty]
  · rfl

theorem Code.textBy_row {depth : Nat} {written : String} :
    textBy width (.text depth written :: code) =
      String.ofList (Line.row width (.text depth written)) ++ "\n" ++ textBy width code := by
  rw [textBy_cons, lineText, Line.row]
  split
  · rw [String.ofList_nil, String.empty_append]
  · rw [String.ofList_append, String.ofList_toList]

/-- What is declared line by line. -/
theorem declared_append (head text rest : String) :
    declared head (text ++ "\n" ++ rest) = declared head text ++ declared head rest := by
  have htext : (text ++ "\n" ++ rest).toList = text.toList ++ '\n' :: rest.toList := by
    rw [String.toList_append, String.toList_append, List.append_assoc]
    rfl
  rw [declared, lines, htext, List.splitOn_append_cons_self, List.filterMap_append]
  rfl

theorem declared_line (h : '\n' ∉ row) :
    declared head (String.ofList row) = (declaredIn head row).toList := by
  rw [declared, lines, String.toList_ofList, List.splitOn_eq_singleton h, List.filterMap_cons]
  cases declaredIn head row <;> rfl

/-- What is declared in a text that goes on after code. -/
theorem Code.declared_textBy (hcode : ∀ l ∈ code, l.isPlain = true) :
    declared head (textBy width code ++ text) =
      code.filterMap (declaredIn head ∘ Line.row width) ++ declared head text := by
  induction code with
  | nil => rfl
  | cons l code ih =>
    obtain ⟨hl, hrest⟩ := List.forall_mem_cons.1 hcode
    cases l with
    | hole => cases hl
    | text depth written =>
      have hrow : '\n' ∉ Line.row width (.text depth written) := by
        rw [Line.row]
        split
        · exact List.not_mem_nil
        · rw [List.mem_append, not_or]
          constructor
          · exact fun hc => absurd (List.eq_of_mem_replicate hc) (by decide)
          · simpa [Line.isPlain] using hl
      rw [textBy_row, String.append_assoc, declared_append, declared_line hrow, ih hrest,
        List.filterMap_cons, Function.comp]
      cases declaredIn head (Line.row width (.text depth written)) <;> rfl

/-- The line for a module. -/
theorem row_declaration (name : String) :
    Line.row 4 (.text 0 s!"pub mod {name};") = ("pub mod " ++ (name ++ ";")).toList := by
  rw [Line.row_zero]
  exact congrArg String.toList String.append_assoc

/-- The lines of declarations declare the modules that they are for. -/
theorem filterMap_declarations (names : List String) :
    (names.flatMap fun name => Code.line s!"pub mod {name};").filterMap
      (declaredIn "pub mod " ∘ Line.row 4) = names := by
  induction names with
  | nil => rfl
  | cons name names ih =>
    rw [List.flatMap_cons, List.filterMap_append, ih, Code.line, List.filterMap_cons,
      Function.comp, row_declaration, declaredIn_append]
    rfl

/-- None of them declares a private one. -/
theorem filterMap_declarations_private (names : List String) :
    (names.flatMap fun name => Code.line s!"pub mod {name};").filterMap
      (declaredIn "mod " ∘ Line.row 4) = [] := by
  refine List.filterMap_eq_nil_iff.2 fun l hl => ?_
  obtain ⟨name, -, hl⟩ := List.mem_flatMap.1 hl
  obtain rfl := List.mem_singleton.1 hl
  rw [Function.comp, row_declaration, String.toList_append]
  exact declaredIn_eq_none fun h => by cases (List.cons_prefix_cons.1 h).1

/-- Names without line breaks make single lines. -/
theorem isPlain_declarations {names : List String} (h : ∀ n ∈ names, '\n' ∉ n.toList) :
    ∀ l ∈ names.flatMap fun name => Code.line s!"pub mod {name};", l.isPlain = true := by
  intro l hl
  obtain ⟨name, hname, hl⟩ := List.mem_flatMap.1 hl
  obtain rfl := List.mem_singleton.1 hl
  have htext : s!"pub mod {name};" = "pub mod " ++ (name ++ ";") := String.append_assoc
  rw [Line.isPlain, htext, String.toList_append, String.toList_append]
  simp [h name hname]

/-- The heading declares what the lines of its summary do, save for the first one, which
    goes on after the mark of a comment. -/
theorem declared_banner (summary text : String) (hhead : head = "pub mod " ∨ head = "mod ") :
    declared head ((Code.banner summary).text ++ text) =
      (lines summary).tail.filterMap (declaredIn head) ++ declared head text := by
  have hbanner : (Code.banner summary).text ++ text = ("//! " ++ summary) ++ "\n" ++
      ("//!" ++ "\n" ++ ("//! Generated by hdmgen. Do not edit." ++ "\n" ++
        ("" ++ "\n" ++ text))) := by
    have hcode : Code.banner summary = [.text 0 ("//! " ++ summary), .text 0 "//!",
      .text 0 "//! Generated by hdmgen. Do not edit.", .text 0 ""] := rfl
    rw [Code.text, hcode]
    simp only [Code.textBy_row, Line.row_zero, String.ofList_toList, String.append_assoc]
    rfl
  obtain ⟨first, rest, hlines⟩ := List.exists_cons_of_ne_nil
    (List.splitOn_ne_nil '\n' summary.toList)
  have hsummary : lines ("//! " ++ summary) = ("//! ".toList ++ first) :: rest := by
    rw [lines, String.toList_append]
    simp [List.splitOn_cons_eq_if_modifyHead, hlines]
  -- The first line of the summary stays behind the
  -- comment sign, and only the others can declare.
  have hfirst : declaredIn head ("//! ".toList ++ first) = none := by
    refine declaredIn_eq_none fun h => ?_
    rcases hhead with rfl | rfl <;> cases (List.cons_prefix_cons.1 h).1
  have hfixed : declared head "//!" = [] ∧
      declared head "//! Generated by hdmgen. Do not edit." = [] ∧ declared head "" = [] := by
    rcases hhead with rfl | rfl <;> decide +kernel
  rw [hbanner, declared_append, declared_append, declared_append, declared_append, hfixed.1,
    hfixed.2.1, hfixed.2.2, List.nil_append, List.nil_append, List.nil_append, declared, hsummary,
    List.filterMap_cons, hfirst, lines, hlines]
  rfl

/-- No line of the summary of a heading declares a module, save for the first one. -/
def Harmless (summary : String) : Prop :=
  ∀ row ∈ (lines summary).tail, declaredIn "pub mod " row = none ∧ declaredIn "mod " row = none

/-- What follows on the first line of a summary is looked at line by line. -/
theorem harmless_iff {summary : String} :
    Harmless summary ↔ (lines summary).tail.filterMap (declaredIn "pub mod ") = [] ∧
      (lines summary).tail.filterMap (declaredIn "mod ") = [] := by
  rw [List.filterMap_eq_nil_iff, List.filterMap_eq_nil_iff, ← forall₂_and]
  rfl

/-- A summary that is one line has no others. -/
theorem harmless_of_line {summary : String} (h : '\n' ∉ summary.toList) : Harmless summary := by
  rw [Harmless, lines, List.splitOn_eq_singleton h]
  exact fun row hrow => absurd hrow List.not_mem_nil

/-! ## Clones written by hand -/

/-- Objects of the entity are handed over to a function written by hand. -/
def Clone.HandsOver (b : Blueprint) (e : Entity) : Prop := ∃ kind : CustomClone,
  special? b e = some (Code.line s!"super::custom_clone::{kind.name}(self, obj, parent)")

/-- An entity is handed over if the policy has its clones written by hand. -/
theorem Clone.handsOver_iff {b : Blueprint} {e : Entity} :
    HandsOver b e ↔ ∃ kind, b.policy.entityCloneOf (b.chain e) = .custom kind := by
  rw [HandsOver, special?]
  cases b.policy.entityCloneOf (b.chain e) with
  | generic => simp
  | custom kind => exact iff_of_true ⟨kind, rfl⟩ ⟨kind, rfl⟩
  | dedupByName kind =>
    refine iff_of_false (fun ⟨custom, h⟩ => ?_) (fun ⟨custom, h⟩ => by cases h)
    dsimp only at h
    cases hname : b.nameMember? e with
    | some name =>
      rw [hname] at h
      -- A body that deduplicates has more lines than one that hands over.
      have hlength := congrArg List.length (Option.some.inj h)
      simp [dedup, Code.all, Code.block, Code.blockUpTo, Code.opening, Code.line] at hlength
    | none =>
      rw [hname] at h
      have hline := Line.text.inj (List.cons.inj (Option.some.inj h)).1
      have hchars := congrArg String.toList hline.2
      simp only [String.toList_append, List.append_assoc] at hchars
      cases (List.cons.inj (List.cons.inj hchars).2).1

theorem Clone.delegates_iff {b : Blueprint} :
    delegates b = true ↔ ∃ e ∈ b.concrete, HandsOver b e := by
  rw [delegates, List.any_eq_true]
  refine exists_congr fun e => and_congr_right fun _ => ?_
  rw [handsOver_iff]
  cases b.policy.entityCloneOf (b.chain e) <;> simp

namespace Generator

variable (g : Generator) (artifacts : List Artifact)

/-- The file of modules below its heading. -/
def declarations : Code := .all [
  (artifacts.filterMap (·.module?)).flatMap fun name => s!"pub mod {name};",
  handWritten g artifacts,
  wireModule artifacts]

/-- What the heading of the file of modules says. -/
def summary (b : Blueprint) : String := s!"The `{b.schema.name}` object model."

/-- A name without line breaks makes a heading of one line. -/
theorem harmless_summary {b : Blueprint} (h : '\n' ∉ b.schema.name.toList) :
    Harmless (summary b) := by
  refine harmless_of_line ?_
  rw [summary, String.toList_append, String.toList_append, List.mem_append, List.mem_append]
  exact not_or.2 ⟨not_or.2 ⟨by decide, h⟩, by decide⟩

/-- What the schema is called stands in the heading only. -/
theorem content_moduleFile : (g.moduleFile artifacts).content =
    (Code.banner (summary g.blueprint)).text ++ (g.declarations artifacts).text := by
  rw [Code.text, Code.text, ← Code.textBy_append]
  rfl

variable {g artifacts}

/-- All lines of the declarations are single ones. -/
theorem isPlain_of_mem_declarations (hnames : ∀ a ∈ artifacts, '\n' ∉ a.name.toList) :
    ∀ l ∈ g.declarations artifacts, l.isPlain = true := by
  have hhand : ∀ l ∈ handWritten g artifacts, l.isPlain = true := by
    rw [handWritten]
    split <;> decide +kernel
  have hwire : ∀ l ∈ wireModule artifacts, l.isPlain = true := by
    rw [wireModule]
    split <;> decide +kernel
  have hmodules : ∀ l ∈ (artifacts.filterMap (·.module?)).flatMap fun name =>
      Code.line s!"pub mod {name};", l.isPlain = true := isPlain_declarations fun n hn => by
    obtain ⟨a, ha, hmodule⟩ := List.mem_filterMap.1 hn
    rw [Artifact.module?, Option.ite_none_right_eq_some] at hmodule
    exact Option.some.inj hmodule.2 ▸ hnames a ha
  simp only [declarations, Code.all, List.flatten_cons, List.flatten_nil, List.append_nil,
    List.forall_mem_append]
  exact ⟨hmodules, hhand, hwire⟩

/-- The declarations declare the modules of the files, and that of clones written by
    hand if it is called for. -/
theorem declared_declarations (hnames : ∀ a ∈ artifacts, '\n' ∉ a.name.toList) :
    declared "pub mod " (g.declarations artifacts).text = artifacts.filterMap (·.module?) ∧
    declared "mod " (g.declarations artifacts).text =
      if artifacts.any (·.module? == some "clone") && Clone.delegates g.blueprint
      then ["custom_clone"] else [] := by
  have htext (head : String) (hhead : head = "pub mod " ∨ head = "mod ") :
      declared head (g.declarations artifacts).text =
        (g.declarations artifacts).filterMap (declaredIn head ∘ Line.row 4) := by
    have h : declared head (Code.textBy 4 (g.declarations artifacts) ++ "") =
        (g.declarations artifacts).filterMap (declaredIn head ∘ Line.row 4) ++ declared head "" :=
      Code.declared_textBy (isPlain_of_mem_declarations hnames)
    have hempty : declared head "" = [] := by rcases hhead with rfl | rfl <;> rfl
    rwa [String.append_empty, hempty, List.append_nil] at h
  -- The module of the wire schema has its body in place, so it is not declared as a file.
  have hwire (head : String) (hhead : head = "pub mod " ∨ head = "mod ") :
      (wireModule artifacts).filterMap (declaredIn head ∘ Line.row 4) = [] := by
    rw [wireModule]
    split <;> rcases hhead with rfl | rfl <;> decide +kernel
  rw [htext _ (.inl rfl), htext _ (.inr rfl)]
  simp only [declarations, Code.all, List.flatten_cons, List.flatten_nil, List.append_nil,
    List.filterMap_append, filterMap_declarations, filterMap_declarations_private,
    hwire _ (.inl rfl), hwire _ (.inr rfl), List.nil_append]
  rw [handWritten]
  split
  · have hpublic : (Code.all ["", "// Hand-written clone bodies.", "mod custom_clone;"]).filterMap
        (declaredIn "pub mod " ∘ Line.row 4) = [] := by decide +kernel
    have hprivate : (Code.all ["", "// Hand-written clone bodies.", "mod custom_clone;"]).filterMap
        (declaredIn "mod " ∘ Line.row 4) = ["custom_clone"] := by decide +kernel
    exact ⟨by rw [hpublic, List.append_nil], hprivate⟩
  · exact ⟨List.append_nil _, rfl⟩

/-- What a text declares to go with the files in `others`. -/
structure Declares (b : Blueprint) (others : List Artifact) (text : String) : Prop where
  /-- The modules of the files, in their order. -/
  modules : declared "pub mod " text = others.filterMap (·.module?)
  /-- None is declared twice. -/
  once : (declared "pub mod " text).Nodup
  /-- The file of clones written by hand, if one of the files hands objects over. -/
  handWritten : (∃ a ∈ others, a.module? = some "clone") ∧ (∃ e ∈ b.concrete, Clone.HandsOver b e) →
    declared "mod " text = ["custom_clone"]
  /-- Nothing else. -/
  nothing : ¬ ((∃ a ∈ others, a.module? = some "clone") ∧ ∃ e ∈ b.concrete, Clone.HandsOver b e) →
    declared "mod " text = []

/-- Files with different paths are different modules. -/
theorem nodup_modules (h : (artifacts.map (·.path)).Nodup) :
    (artifacts.filterMap (·.module?)).Nodup := by
  have hpath {a : Artifact} {name : String} (ha : a.module? = some name) :
      a.path = name ++ "." ++ Format.source.extension := by
    rw [Artifact.module?, Option.ite_none_right_eq_some] at ha
    rw [Artifact.path, ha.1, Option.some.inj ha.2]
  rw [List.Nodup, List.pairwise_map] at h
  exact List.pairwise_filterMap.2 (h.imp fun hne name ha name' ha' heq =>
    hne ((hpath ha).trans (heq ▸ (hpath ha').symm)))

/-- The declarations declare what is to go with the files, and nothing else. -/
theorem declares_declarations (hnames : ∀ a ∈ artifacts, '\n' ∉ a.name.toList)
    (hpaths : (artifacts.map (·.path)).Nodup) :
    Declares g.blueprint artifacts (g.declarations artifacts).text := by
  obtain ⟨hmodules, hprivate⟩ := declared_declarations (g := g) hnames
  have hcond : (artifacts.any (·.module? == some "clone") && Clone.delegates g.blueprint) = true ↔
      (∃ a ∈ artifacts, a.module? = some "clone") ∧
        ∃ e ∈ g.blueprint.concrete, Clone.HandsOver g.blueprint e := by
    rw [Bool.and_eq_true, List.any_eq_true, Clone.delegates_iff]
    simp only [beq_iff_eq]
  exact {
    modules := hmodules
    once := hmodules ▸ nodup_modules hpaths
    handWritten := fun h => by rw [hprivate, if_pos (hcond.2 h)]
    nothing := fun h => by rw [hprivate, if_neg (mt hcond.1 h)] }

/-- With a heading that is harmless, and with no other, nothing else is declared. -/
theorem Declares.heading_iff {b : Blueprint} {summary : String} (h : Declares b artifacts text) :
    Declares b artifacts ((Code.banner summary).text ++ text) ↔ Harmless summary := by
  have hpublic := declared_banner summary text (.inl rfl)
  have hprivate := declared_banner summary text (.inr rfl)
  rw [harmless_iff]
  constructor
  · intro hall
    rw [hall.modules, h.modules, List.self_eq_append_left] at hpublic
    refine ⟨hpublic, ?_⟩
    -- Whichever private modules there are, the heading must add none.
    by_cases hcalled : (∃ a ∈ artifacts, a.module? = some "clone") ∧
        ∃ e ∈ b.concrete, Clone.HandsOver b e
    · rwa [hall.handWritten hcalled, h.handWritten hcalled, List.self_eq_append_left] at hprivate
    · rwa [hall.nothing hcalled, h.nothing hcalled, List.self_eq_append_left] at hprivate
  · intro ⟨hfirst, hsecond⟩
    rw [hfirst, List.nil_append] at hpublic
    rw [hsecond, List.nil_append] at hprivate
    exact {
      modules := hpublic.trans h.modules
      once := hpublic.symm ▸ h.once
      handWritten := fun hcalled => hprivate.trans (h.handWritten hcalled)
      nothing := fun hcalled => hprivate.trans (h.nothing hcalled) }

end Generator

end ObjectModel.Generation
