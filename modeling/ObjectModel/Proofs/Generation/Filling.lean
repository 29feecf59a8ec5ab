import ObjectModel.Proofs.Generation.Frames

/-!
# Filling the fixed texts

Each frame has just the markers that its file gives values for
(`FixedText.fits_frame`, `WireSchema.fits_frame`). So all files are written, whatever
the blueprint (`TypeTable.exists_types` and so on).
-/

namespace ObjectModel.Generation

open Code Template

variable (b : Blueprint)

/-! ## Source files -/

/-- The source files that are a frame with holes. -/
inductive FixedText
  /-- The file `types.rs`. -/
  | types
  /-- The file `store.rs`. -/
  | store
  /-- The file `listener.rs`. -/
  | listener
  /-- The file `listener_tracer.rs`. -/
  | tracer
  /-- The file `handle_listener.rs`. -/
  | handles
  /-- The file `clone.rs`. -/
  | clone
  /-- The file `compare.rs`. -/
  | compare
  /-- The file `containers.rs`. -/
  | containers
  /-- The file `visitor.rs`. -/
  | visitor
  /-- The file `archive.rs`. -/
  | archive

namespace FixedText

/-- The frame of the file. -/
def frame : FixedText → Code
  | types => TypeTable.frame
  | store => Store.frame
  | listener => Listener.frame
  | tracer => Listener.tracerFrame
  | handles => HandleListener.frame
  | clone => Clone.frame
  | compare => Compare.frame
  | containers => Containers.frame
  | visitor => TreeDump.frame
  | archive => Archive.frame

/-- What the file gives values for. -/
def keys : FixedText → List String
  | types => ["BANNER", "VARIANTS", "COUNT", "ALL_TAGS", "FROM_ARMS", "NAME_ARMS", "TYPE_NAMES",
      "PREDICATES"]
  | store => ["BANNER", "CLASSES", "FIELDS", "ACCESSORS", "MAKE_ARMS", "COUNT_ARMS", "HEADER_ARMS",
      "HEADER_MUT_ARMS", "REFERENCE_ARMS", "TEXT_ARMS"]
  | listener => ["BANNER", "CLASSES", "HOOKS", "VISIT_ARMS", "VISIT_FNS"]
  | tracer => ["BANNER", "CLASSES", "TRACER_HOOKS"]
  | handles => ["BANNER", "HOOKS", "VISIT_ARMS", "VISIT_FNS"]
  | clone => ["BANNER", "CLONE_ARMS", "CLONE_FNS"]
  | compare => ["BANNER", "COMPARE_ARMS", "COMPARE_FNS"]
  | containers => ["BANNER", "ADDED_ARMS", "REMOVED_ARMS"]
  | visitor => ["BANNER", "DUMP_ARMS", "DUMP_FNS"]
  | archive => ["BANNER", "VERSION", "SAVE_BLOCKS", "ALLOCATE", "RESTORE_BLOCKS"]

/-- There is no marker but those of the file. -/
theorem known_frame (f : FixedText) : Known f.keys f.frame := by
  cases f
  -- The builders of code are followed down to the texts of lines, which have few markers.
  all_goals
    simp only [frame, keys, TypeTable.frame, Store.frame, Listener.frame, Listener.tracerFrame,
      HandleListener.frame, Clone.frame, Compare.frame, Containers.frame, TreeDump.frame,
      Archive.frame, known_all, known_block, known_blockUpTo, known_choice, known_line,
      known_hole, List.forall_mem_cons, List.not_mem_nil, false_imp_iff, implies_true, and_true]
    and_intros
    all_goals first
      | exact knownIn_of_quiet (by decide)
      | exact knownIn_append (by decide)
      | exact knownIn_ofList (by decide)
      | decide

/-- A few markers stand within a line. The others are holes. -/
theorem fits_frame (f : FixedText) : Fits f.frame f.keys := by
  have hknown := f.known_frame
  -- A key that no hole is for stands within a line of the frame.
  cases f with
  | types =>
    have hline : Line.text 1 "pub const ALL: [Self; <COUNT>] = [" ∈ frame .types := by
      simp [frame, TypeTable.frame, all, line, block, blockUpTo, indent, moveIn]
    exact hknown.fits hline (by decide)
  | store =>
    have hline : Line.text 0 "use super::objects::\x7b<CLASSES>\x7d;" ∈ frame .store := by
      simp [frame, Store.frame, all, line]
    exact hknown.fits hline (by decide)
  | listener =>
    have hline : Line.text 0 "use super::objects::\x7b<CLASSES>\x7d;" ∈ frame .listener := by
      simp [frame, Listener.frame, all, line]
    exact hknown.fits hline (by decide)
  | tracer =>
    have hline : Line.text 0 "use super::objects::\x7b<CLASSES>\x7d;" ∈ frame .tracer := by
      simp [frame, Listener.tracerFrame, all, line]
    exact hknown.fits hline (by decide)
  | archive =>
    have hline : Line.text 0 "pub const VERSION: u32 = <VERSION>;" ∈ frame .archive := by
      simp [frame, Archive.frame, all, line]
    exact hknown.fits hline (by decide)
  | handles | clone | compare | containers | visitor => exact ⟨hknown, used_of_holes _ (by decide)⟩

end FixedText

theorem TypeTable.exists_types : ∃ s, TypeTable.types b = .ok s :=
  b.exists_fillFrame FixedText.types.fits_frame rfl _ _

theorem Store.exists_store : ∃ s, Store.store b = .ok s :=
  b.exists_fillFrame FixedText.store.fits_frame rfl _ _

theorem Listener.exists_listener : ∃ s, Listener.listener b = .ok s :=
  b.exists_fillFrame FixedText.listener.fits_frame rfl _ _

theorem Listener.exists_tracer : ∃ s, Listener.tracer b = .ok s :=
  b.exists_fillFrame FixedText.tracer.fits_frame rfl _ _

theorem HandleListener.exists_listener : ∃ s, HandleListener.listener b = .ok s :=
  b.exists_fillFrame FixedText.handles.fits_frame rfl _ _

theorem Clone.exists_clone : ∃ s, Clone.clone b = .ok s :=
  b.exists_fillFrame FixedText.clone.fits_frame rfl _ _

theorem Compare.exists_comparer : ∃ s, Compare.comparer b = .ok s :=
  b.exists_fillFrame FixedText.compare.fits_frame rfl _ _

theorem Containers.exists_containers : ∃ s, Containers.containers b = .ok s :=
  b.exists_fillFrame FixedText.containers.fits_frame rfl _ _

theorem TreeDump.exists_visitor : ∃ s, TreeDump.visitor b = .ok s :=
  b.exists_fillFrame FixedText.visitor.fits_frame rfl _ _

theorem Archive.exists_archive : ∃ s, Archive.archive b = .ok s :=
  b.exists_fillFrame FixedText.archive.fits_frame rfl _ _

/-! ## The wire schema -/

namespace WireSchema

theorem known_struct {keys : List String} {s : Struct} {more : Code} :
    Known keys (s.code more) ↔ KnownIn keys ("struct " ++ s.name) ∧
      Known keys (s.fields.flatMap (·.code)) ∧ Known keys more := by
  simp only [Struct.code, known_block, List.forall_mem_cons, List.not_mem_nil, false_imp_iff,
    implies_true, and_true]

/-- The frame of `model.capnp`. -/
theorem fits_frame : Fits frame ["SCHEMA", "FILE_ID", "STRUCTS", "FACTORIES"] where
  known := by
    have hfields (keys : List String) :
        ∀ s ∈ fixedStructs, Known keys (s.fields.flatMap (·.code)) := by
      have hquiet : ∀ s ∈ fixedStructs, ∀ l ∈ s.fields.flatMap (·.code), l.markers = [] := by
        decide
      intro s hs l hl m hm
      rw [hquiet s hs l hl] at hm
      exact absurd hm List.not_mem_nil
    simp only [frame, known_all, known_struct, known_line, known_hole, List.forall_mem_cons,
      List.not_mem_nil, false_imp_iff, implies_true, and_true]
    and_intros
    all_goals first
      | exact knownIn_of_quiet (by decide)
      | exact knownIn_append (by decide)
      | exact knownIn_ofList (by decide)
      | exact hfields _ _ (by simp [fixedStructs])
      | exact List.forall_mem_nil _
      | decide
  used := by
    intro m hm
    obtain rfl | rfl | hm : m = "SCHEMA" ∨ m = "FILE_ID" ∨ m ∈ ["STRUCTS", "FACTORIES"] := by
      simpa using hm
    · have hline : Line.text 0 "# Wire schema of the `<SCHEMA>` object model." ∈ frame := by
        simp [frame, all, line]
      exact used_of_text hline (by decide)
    · have hline : Line.text 0 "@<FILE_ID>;" ∈ frame := by
        simp [frame, all, line]
      exact used_of_text hline (by decide)
    · exact used_of_holes _ (by decide) m hm

end WireSchema

theorem WireSchema.exists_wireSchema : ∃ s, WireSchema.wireSchema b = .ok s :=
  WireSchema.fits_frame.exists_fillAll 2 _

end ObjectModel.Generation
