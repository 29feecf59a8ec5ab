import ObjectModel.Proofs.Generation.Filling

/-!
# The file of the wire schema

The wire schema consists of a struct for references, the base record, a struct for each
entity and the root (`WireSchema.structs`). The structs of entities and the lists in the
root are put into a frame that has the others. As long as no bracket comes in with a
name, what is written is the code of all structs (`WireSchema.wireSchema_eq`).
-/

namespace ObjectModel.Generation.WireSchema

open Code Template

/-! ## Parts of the frame -/

/-- The text in front of the name of the schema. -/
def start : String := "# Wire schema of the `"

/-- The text between the name of the schema and the number. -/
def middle : String := "` object model.\n#\n# Generated by hdmgen. Do not edit.\n\n@"

/-- The structs in front of those of entities. -/
def records : Code := all [referenceStruct.code [], "", headerStruct.code [], ""]

/-- The beginning of the root. -/
def rootStart : Code := opening "struct HdmRoot" ++ indent 1 (rootStruct.fields.flatMap (·.code))

/-- The text between the number and the structs of entities. -/
def recordText : String := ";\n\n" ++ textBy 2 records

/-- The text behind the lists in the root. -/
def stop : String := "\x7d\n"

section

variable (b : Blueprint)

/-- The number of the schema. -/
def number : String := "0x" ++ hexText 16 (fileId b.schema.name).toNat

/-- The structs of entities. -/
def entityCode : Code := b.schema.entities.flatMap fun e => (entityStruct b e).code [] ++ line ""

/-- The lists in the root. -/
def factoryCode : Code := indent 1 ((factories b).flatMap (·.code))

/-- The frame with its values. -/
def filled : Template where
  name := "model.capnp"
  text := textBy 2 frame
  values := [
    ("FACTORIES", textBy 2 (factoryCode b)),
    ("STRUCTS", textBy 2 (entityCode b)),
    ("FILE_ID", number b),
    ("SCHEMA", b.schema.name)]

/-- The root with the lists of objects. -/
def root : Struct := { rootStruct with fields := rootStruct.fields ++ factories b }

/-- All structs, in the order in which they are declared. -/
def structs : List Struct :=
  [referenceStruct, headerStruct] ++ b.schema.entities.map (entityStruct b) ++ [root b]

/-- What stands in front of the structs. -/
def heading : Code := all [
  s!"# Wire schema of the `{b.schema.name}` object model.",
  "#",
  "# Generated by hdmgen. Do not edit.",
  "",
  s!"@{number b};",
  ""]

/-- All structs, with a blank line between two of them. -/
def document : Code := heading b ++ (line "").intercalate ((structs b).map (·.code []))

end

variable {b : Blueprint} {m : String}

/-! ## Pieces of the frame -/

theorem mem_markers_filled :
    m ∈ (filled b).markers ↔ m ∈ ["SCHEMA", "FILE_ID", "STRUCTS", "FACTORIES"] :=
  fits_frame.mem_markers rfl

/-- The file is the frame, filled with the parts for this schema. -/
theorem wireSchema_eq_render : wireSchema b = (filled b).render := by
  have hkeys : ∀ m ∈ ["SCHEMA", "FILE_ID", "STRUCTS", "FACTORIES"],
      m ∈ Template.markers { name := "model.capnp", text := textBy 2 frame } :=
    fun m hm => (fits_frame.mem_markers (by rfl)).2 hm
  rw [wireSchema, fillAll_eq (by simpa using hkeys), filled]
  rfl

/-- The frame is four markers with fixed text between them. -/
theorem toList_frame : (textBy 2 frame).toList = start.toList ++ (bracketed "SCHEMA" ++
    (middle.toList ++ (bracketed "FILE_ID" ++ (recordText.toList ++ (bracketed "STRUCTS" ++
      ((textBy 2 rootStart).toList ++ (bracketed "FACTORIES" ++ stop.toList))))))) := by
  let top : Code := all [
    "# Wire schema of the `<SCHEMA>` object model.",
    "#",
    "# Generated by hdmgen. Do not edit.",
    "",
    "@<FILE_ID>;",
    ""]
  have hframe : frame = top ++ (records ++ (hole "STRUCTS" ++ (rootStart ++
      (hole "FACTORIES" ++ line "\x7d")))) := rfl
  have htop : (textBy 2 top).toList = start.toList ++ (bracketed "SCHEMA" ++
      (middle.toList ++ (bracketed "FILE_ID" ++ ";\n\n".toList))) := by decide +kernel
  have hstructs : (textBy 2 (hole "STRUCTS")).toList = bracketed "STRUCTS" := by decide
  have hfactories : (textBy 2 (hole "FACTORIES")).toList = bracketed "FACTORIES" := by decide
  have hstop : (textBy 2 (line "\x7d")).toList = stop.toList := by decide
  rw [hframe]
  simp only [textBy_append, String.toList_append, htop, hstructs, hfactories, hstop, recordText,
    List.append_assoc]

/-- There are no brackets but those of markers. -/
theorem parts_filled : (filled b).parts = start.toList.map .char ++ .marker "SCHEMA" ::
    (middle.toList.map .char ++ .marker "FILE_ID" :: (recordText.toList.map .char ++
      .marker "STRUCTS" :: ((textBy 2 rootStart).toList.map .char ++
        .marker "FACTORIES" :: stop.toList.map .char))) := by
  have hmarker {m : String} (hm : m ∈ ["SCHEMA", "FILE_ID", "STRUCTS", "FACTORIES"])
      (l : List Char) : pieces (filled b).markers (bracketed m ++ l) =
        .marker m :: pieces (filled b).markers l :=
    pieces_marker (fun _ => plain_of_mem) (mem_markers_filled.2 hm) l
  have hrecords : '<' ∉ recordText.toList := by
    rw [recordText, String.toList_append, List.mem_append, not_or]
    exact ⟨by decide, not_mem_textBy (by decide +kernel)⟩
  have hroot : '<' ∉ (textBy 2 rootStart).toList := not_mem_textBy (by decide +kernel)
  have hstop : pieces (filled b).markers (stop.toList ++ []) = stop.toList.map .char ++ [] :=
    pieces_append (by decide)
  rw [List.append_nil, List.append_nil] at hstop
  change pieces (filled b).markers (textBy 2 frame).toList = _
  rw [toList_frame, pieces_append (by decide), hmarker (by simp), pieces_append (by decide),
    hmarker (by simp), pieces_append hrecords, hmarker (by simp), pieces_append hroot,
    hmarker (by simp), hstop]

/-! ## The code of all structs -/

theorem intercalate_concat {α : Type} (sep x : List α) (l : List (List α)) :
    sep.intercalate (l ++ [x]) = l.flatMap (· ++ sep) ++ x := by
  induction l with
  | nil => rw [List.nil_append, List.intercalate_singleton, List.flatMap_nil, List.nil_append]
  | cons a l ih =>
    rw [List.cons_append, List.intercalate_cons_of_ne_nil (by simp), ih, List.flatMap_cons]
    simp

theorem textBy_heading :
    textBy 2 (heading b) = start ++ b.schema.name ++ middle ++ number b ++ ";\n\n" := by
  have hline {written : String} (h : written ≠ "") : textBy 2 (line written) = written ++ "\n" := by
    rw [line, textBy, List.map_singleton, lineText, if_neg h]
    simp [String.join]
  have hheading : heading b =
      line ("# Wire schema of the `" ++ b.schema.name ++ "` object model.") ++
        (all ["#", "# Generated by hdmgen. Do not edit.", ""] ++
          (line ("@" ++ number b ++ ";") ++ line "")) := rfl
  have hmiddle : textBy 2 (all ["#", "# Generated by hdmgen. Do not edit.", ""]) =
      "#\n# Generated by hdmgen. Do not edit.\n\n" := by decide +kernel
  have hblank : textBy 2 (line "") = "\n" := by decide
  rw [hheading, textBy_append, textBy_append, textBy_append, hline (by simp), hline (by simp),
    hmiddle, hblank]
  refine String.toList_inj.1 ?_
  simp [start, middle]

theorem code_root : (root b).code [] = rootStart ++ (factoryCode b ++ line "\x7d") := by
  rw [Struct.code, block, blockUpTo, all, root, List.flatMap_append, rootStart, factoryCode]
  simp only [indent, List.map_append, List.flatten_cons, List.flatten_nil, List.append_nil,
    List.append_assoc]
  rfl

/-- The code of all structs has the same parts as the frame. -/
theorem document_eq :
    document b = heading b ++ (records ++ (entityCode b ++ (root b).code [])) := by
  rw [document, structs, List.map_append, List.map_singleton, intercalate_concat, entityCode]
  simp [records, all, List.flatMap_map]

theorem toList_document : (textBy 2 (document b)).toList = start.toList ++
    (b.schema.name.toList ++ (middle.toList ++ ((number b).toList ++ (recordText.toList ++
      ((textBy 2 (entityCode b)).toList ++ ((textBy 2 rootStart).toList ++
        ((textBy 2 (factoryCode b)).toList ++ stop.toList))))))) := by
  have hstop : textBy 2 (line "\x7d") = stop := by decide
  rw [document_eq, code_root]
  simp only [textBy_append, textBy_heading, hstop, recordText, String.toList_append,
    List.append_assoc]

/-! ## The file -/

theorem filled_filled : (filled b).Filled := by
  intro m hm
  have hkey := mem_markers_filled.1 hm
  simp only [List.mem_cons, List.not_mem_nil, or_false] at hkey
  rcases hkey with rfl | rfl | rfl | rfl <;> rfl

/-- Put in at once, the values make the code of all structs. -/
theorem simultaneous_filled : (filled b).simultaneous = textBy 2 (document b) := by
  have hfill (m : String) {a : String} (h : (filled b).values.lookup m = some a) :
      Piece.fill ((filled b).values.lookup ·) (.marker m) = a.toList := fill_of_value h
  refine String.toList_inj.1 ?_
  rw [simultaneous, parts_filled, String.toList_ofList, toList_document]
  simp only [List.flatMap_append, List.flatMap_cons, fill_chars]
  rw [hfill "SCHEMA" rfl, hfill "FILE_ID" rfl, hfill "STRUCTS" rfl, hfill "FACTORIES" rfl]

/-- The file has just the structs, as long as no bracket comes in with a name. -/
theorem wireSchema_eq (h : '<' ∉ (textBy 2 (document b)).toList) :
    wireSchema b = .ok (textBy 2 (document b)) := by
  rw [toList_document] at h
  simp only [List.mem_append, not_or] at h
  obtain ⟨hstart, hschema, hmiddle, hnumber, hrecords, hstructs, hroot, hfactories, hstop⟩ := h
  have hchars : .char '<' ∉ (filled b).parts := by
    rw [parts_filled]
    simp only [List.mem_append, List.mem_cons, List.mem_map, Piece.char.injEq, exists_eq_right,
      reduceCtorEq, false_or, not_or]
    exact ⟨hstart, hmiddle, hrecords, hroot, hstop⟩
  have hvalues : ∀ e ∈ (filled b).values, '<' ∉ e.2.toList := by
    simp only [filled, List.forall_mem_cons, List.not_mem_nil, false_imp_iff, implies_true,
      and_true]
    exact ⟨hfactories, hstructs, hnumber, hschema⟩
  rw [wireSchema_eq_render,
    render_of_undisturbed filled_filled (undisturbed_of_plain hchars hvalues), simultaneous_filled]

end ObjectModel.Generation.WireSchema
