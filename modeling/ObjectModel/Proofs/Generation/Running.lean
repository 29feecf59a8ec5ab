import Mathlib.Data.List.Flatten
import ObjectModel.Proofs.Generation.Building
import ObjectModel.Proofs.Generation.Filling
import ObjectModel.Proofs.Generation.Modules
import ObjectModel.Proofs.Graph.Design
import ObjectModel.Proofs.Schema.Closures

/-!
# Running generators

A generator that could be made does not fail (`Generator.run_of_build`): groups are
spelt out to entities that there are (`Groups.exists_groups`), frames take the values
for their markers, so that each emitter makes its files (`Emitter.exists_emit`), and no
two files have the same path (`Generator.nodup_paths`). Files are in the order of their
paths, and the file of modules goes with the others (`Generator.Complete`).
-/

namespace ObjectModel

/-! ## Groups -/

/-- Whatever the groups are called, a resolution knows the closure of each. -/
theorem Resolution.exists_closure_of_mem {s : Schema} {r : Resolution} (h : ofSchema s = .ok r)
    {g : Group} (hg : g ∈ r.schema.groups) :
    ∃ names, r.closure g.name = .ok names ∧ ∀ a ∈ names, r.schema.hasEntity a := by
  obtain ⟨rfl, entries, hclosures, hentries, hkeys⟩ := closures_of_ofSchema h
  obtain ⟨set, hset, hget⟩ := SortedMap.exists_get?_ofList (hkeys ▸ List.mem_map_of_mem hg)
  obtain ⟨g', -, hg'⟩ := exists_of_mem_mapM hentries hset
  obtain ⟨names, hnames, hexpand⟩ := bind_eq_ok.1 (closureEntry_eq_ok.1 hg').2
  obtain rfl : SortedSet.ofList names = set := pure_eq_ok.1 hexpand
  refine ⟨_, closure_eq_ok.2 ⟨_, hclosures ▸ hget, rfl⟩, fun a ha => ?_⟩
  rw [SortedSet.mem_keys_ofList] at ha
  obtain ⟨x, hx, rfl⟩ := RawSchema.exists_entity_of_expandGroup hnames ha
  exact r.schema.indexed.hasEntity_of_mem hx

namespace Generation

/-- The file of groups can be made once the schema is resolved. -/
theorem Groups.exists_groups {s : Schema} {b : Blueprint}
    (h : Resolution.ofSchema s = .ok b.resolution) : ∃ text, Groups.groups b = .ok text := by
  have htags (g : Group) (hg : g ∈ b.schema.groups) : ∃ code, predicate b g = .ok code := by
    obtain ⟨names, hnames, hentities⟩ := Resolution.exists_closure_of_mem h hg
    obtain ⟨tags, htags⟩ := exists_mapM (f := fun name => return (← b.schema.entity name).tag)
      fun a ha => by
        obtain ⟨e, he⟩ := b.schema.indexed.exists_entity (hentities a ha)
        exact ⟨e.tag, bind_eq_ok.2 ⟨e, RawSchema.entity_eq_ok.2 he, rfl⟩⟩
    exact ⟨_, bind_eq_ok.2 ⟨_, bind_eq_ok.2 ⟨names, hnames, bind_eq_ok.2 ⟨tags, htags, rfl⟩⟩, rfl⟩⟩
  obtain ⟨codes, hcodes⟩ := exists_mapM htags
  exact ⟨_, bind_eq_ok.2 ⟨codes, hcodes, rfl⟩⟩

/-! ## Emitters -/

/-- The names and formats of the files that an emitter makes. -/
def Emitter.files : Emitter → List (String × Format)
  | typeTable => [("types", .source), ("forward", .source)]
  | model => [("objects", .source), ("store", .source), ("groups", .source)]
  | dispatch => [("listener", .source), ("handle_listener", .source)]
  | clone => [("clone", .source)]
  | compare => [("compare", .source)]
  | serialization => [("model", .wireSchema), ("archive", .source)]
  | containerAdoption => [("containers", .source)]
  | visitor => [("visitor", .source)]
  | tracer => [("listener_tracer", .source)]

/-- Each emitter makes its files. -/
theorem Emitter.exists_emit {s : Schema} {b : Blueprint}
    (h : Resolution.ofSchema s = .ok b.resolution) (e : Emitter) :
    ∃ artifacts, e.emit b = .ok artifacts ∧
      artifacts.map (fun a => (a.name, a.format)) = e.files := by
  have hfilled {name : String} {format : Format} {content : Except TemplateError String}
      (hcontent : ∃ text, content = .ok text) :
      ∃ text, filled name format content = .ok ⟨name, format, text⟩ := by
    obtain ⟨text, rfl⟩ := hcontent
    exact ⟨text, rfl⟩
  have hgroups : ∃ text, groupsFile b = .ok ⟨"groups", .source, text⟩ := by
    obtain ⟨text, htext⟩ := Groups.exists_groups h
    exact ⟨text, by rw [groupsFile, htext]; rfl⟩
  -- Every frame is filled with the keys it has, so no emitter fails.
  cases e with
  | typeTable =>
    obtain ⟨types, htypes⟩ := hfilled (TypeTable.exists_types b)
    exact ⟨_, bind_eq_ok.2 ⟨_, htypes, rfl⟩, rfl⟩
  | model =>
    obtain ⟨store, hstore⟩ := hfilled (Store.exists_store b)
    obtain ⟨groups, hgroups⟩ := hgroups
    exact ⟨_, bind_eq_ok.2 ⟨_, hstore, bind_eq_ok.2 ⟨_, hgroups, rfl⟩⟩, rfl⟩
  | dispatch =>
    obtain ⟨listener, hlistener⟩ := hfilled (Listener.exists_listener b)
    obtain ⟨handles, hhandles⟩ := hfilled (HandleListener.exists_listener b)
    exact ⟨_, bind_eq_ok.2 ⟨_, hlistener, bind_eq_ok.2 ⟨_, hhandles, rfl⟩⟩, rfl⟩
  | clone =>
    obtain ⟨clone, hclone⟩ := hfilled (Clone.exists_clone b)
    exact ⟨_, bind_eq_ok.2 ⟨_, hclone, rfl⟩, rfl⟩
  | compare =>
    obtain ⟨compare, hcompare⟩ := hfilled (Compare.exists_comparer b)
    exact ⟨_, bind_eq_ok.2 ⟨_, hcompare, rfl⟩, rfl⟩
  | serialization =>
    obtain ⟨model, hmodel⟩ := hfilled (WireSchema.exists_wireSchema b)
    obtain ⟨archive, harchive⟩ := hfilled (Archive.exists_archive b)
    exact ⟨_, bind_eq_ok.2 ⟨_, hmodel, bind_eq_ok.2 ⟨_, harchive, rfl⟩⟩, rfl⟩
  | containerAdoption =>
    obtain ⟨containers, hcontainers⟩ := hfilled (Containers.exists_containers b)
    exact ⟨_, bind_eq_ok.2 ⟨_, hcontainers, rfl⟩, rfl⟩
  | visitor =>
    obtain ⟨visitor, hvisitor⟩ := hfilled (TreeDump.exists_visitor b)
    exact ⟨_, bind_eq_ok.2 ⟨_, hvisitor, rfl⟩, rfl⟩
  | tracer =>
    obtain ⟨tracer, htracer⟩ := hfilled (Listener.exists_tracer b)
    exact ⟨_, bind_eq_ok.2 ⟨_, htracer, rfl⟩, rfl⟩

/-! ## Files in order -/

namespace Generator

variable {artifacts : List Artifact} {g : Generator}

/-- Files are put in the order of their paths. -/
theorem sort_sorted : (sort artifacts).Pairwise (·.path ≤ ·.path) := by
  refine (List.pairwise_mergeSort (fun a b c hab hbc => ?_) (fun a b => ?_) artifacts).imp
    of_decide_eq_true
  · rw [decide_eq_true_eq] at hab hbc ⊢
    exact String.le_trans hab hbc
  · rw [Bool.or_eq_true, decide_eq_true_eq, decide_eq_true_eq]
    exact String.le_total a.path b.path

theorem sort_ascending (h : (artifacts.map (·.path)).Nodup) :
    (sort artifacts).Pairwise (·.path < ·.path) := by
  have hnodup : ((sort artifacts).map (·.path)).Nodup :=
    ((List.mergeSort_perm artifacts _).map _).nodup_iff.2 h
  exact sort_sorted.imp₂ (fun a c hac hne => lt_of_le_of_ne hac hne) (List.pairwise_map.1 hnodup)

/-- Where paths ascend, none is repeated. -/
theorem repeated?_eq_none (h : artifacts.Pairwise (·.path < ·.path)) :
    repeated? artifacts = none := by
  induction artifacts with
  | nil => rfl
  | cons a l ih =>
    cases l with
    | nil => rfl
    | cons c l =>
      have hne : a.path ≠ c.path := (List.rel_of_pairwise_cons h List.mem_cons_self).ne
      rw [repeated?, if_neg hne]
      exact ih h.of_cons

/-- What is left from a path on comes after it. -/
theorem lt_of_mem_dropWhile {path : String} (h : artifacts.Pairwise (·.path < ·.path))
    (hne : ∀ a ∈ artifacts, a.path ≠ path) {a : Artifact}
    (ha : a ∈ artifacts.dropWhile fun a => decide (a.path < path)) : path < a.path := by
  induction artifacts with
  | nil => exact absurd ha List.not_mem_nil
  | cons c l ih =>
    rw [List.forall_mem_cons] at hne
    by_cases hc : c.path < path
    · have hdrop := List.dropWhile_cons_of_pos (p := fun a : Artifact => decide (a.path < path))
        (l := l) (decide_eq_true hc)
      exact ih h.of_cons hne.2 (hdrop ▸ ha)
    · have hdrop := List.dropWhile_cons_of_neg (p := fun a : Artifact => decide (a.path < path))
        (l := l) (by simpa using hc)
      rw [hdrop] at ha
      have hlt : path < c.path := lt_of_le_of_ne (not_lt.1 hc) hne.1.symm
      obtain rfl | ha := List.mem_cons.1 ha
      · exact hlt
      · exact hlt.trans (List.rel_of_pairwise_cons h ha)

theorem path_moduleFile : (g.moduleFile artifacts).path = "mod.rs" := rfl

/-- The file of modules goes where its path belongs. -/
theorem withModuleFile_ascending (h : artifacts.Pairwise (·.path < ·.path))
    (hne : ∀ a ∈ artifacts, a.path ≠ "mod.rs") :
    (g.withModuleFile artifacts).Pairwise (·.path < ·.path) := by
  rw [withModuleFile]
  split
  · exact .nil
  · have hbefore : ∀ a ∈ artifacts.takeWhile fun a => decide (a.path < "mod.rs"),
        a.path < "mod.rs" := fun a ha => by simpa using List.mem_takeWhile_imp ha
    have hafter : ∀ a ∈ artifacts.dropWhile fun a => decide (a.path < "mod.rs"),
        "mod.rs" < a.path := fun a ha => lt_of_mem_dropWhile h hne ha
    refine List.pairwise_append.2 ⟨h.sublist (List.takeWhile_sublist _),
      List.pairwise_cons.2 ⟨hafter, h.sublist (List.dropWhile_sublist _)⟩, fun a ha c hc => ?_⟩
    obtain rfl | hc := List.mem_cons.1 hc
    · exact hbefore a ha
    · exact (hbefore a ha).trans (hafter c hc)

theorem mem_withModuleFile (h : artifacts ≠ []) {a : Artifact} :
    a ∈ g.withModuleFile artifacts ↔ a = g.moduleFile artifacts ∨ a ∈ artifacts := by
  rw [withModuleFile, if_neg (by simpa using h), List.mem_append, List.mem_cons, or_left_comm,
    ← List.mem_append, List.takeWhile_append_dropWhile]

/-- The other files stay in order. -/
theorem filter_withModuleFile (hne : ∀ a ∈ artifacts, a.path ≠ "mod.rs") :
    (g.withModuleFile artifacts).filter (·.path ≠ "mod.rs") = artifacts := by
  have hkept {l : List Artifact} (hl : l ⊆ artifacts) : l.filter (·.path ≠ "mod.rs") = l :=
    List.filter_eq_self.2 fun a ha => decide_eq_true (hne a (hl ha))
  have hfile (l : List Artifact) :
      (g.moduleFile artifacts :: l).filter (·.path ≠ "mod.rs") = l.filter (·.path ≠ "mod.rs") :=
    List.filter_cons_of_neg (by simpa using path_moduleFile)
  rw [withModuleFile]
  split
  · rename_i h
    rw [List.isEmpty_iff.1 h]
    rfl
  · rw [List.filter_append, hfile, hkept (List.takeWhile_subset _),
      hkept (List.dropWhile_subset _), List.takeWhile_append_dropWhile]

/-! ## Running -/

/-- What a generator is to make of a blueprint. -/
structure Complete (g : Generator) (out : Output) : Prop where
  /-- There is a report on each emitter. -/
  emitters : out.reports.map (·.emitter) = g.emitters
  /-- Each emitter has made its files. -/
  succeeds : ∀ r ∈ out.reports, ∃ artifacts, r.outcome = .ok artifacts ∧
    artifacts.map (fun a => (a.name, a.format)) = r.emitter.files
  ascending : out.artifacts.Pairwise (·.path < ·.path)
  /-- Besides the file of modules there are just the files of emitters. -/
  others : (out.artifacts.filter (·.path ≠ "mod.rs")).Perm (out.reports.flatMap (·.artifacts))
  /-- There is a file of modules if some emitter has run. -/
  moduleFile : (∃ a ∈ out.artifacts, a.path = "mod.rs") ↔ g.emitters ≠ []
  /-- Below a heading that quotes the name of the schema, it declares what goes with the
      other files. The file as a whole does just if the heading is harmless. -/
  declares : ∀ a ∈ out.artifacts, a.path = "mod.rs" → ∃ below,
    a.content = (Code.banner (summary g.blueprint)).text ++ below ∧
    Declares g.blueprint (out.artifacts.filter (·.path ≠ "mod.rs")) below ∧
    (Declares g.blueprint (out.artifacts.filter (·.path ≠ "mod.rs")) a.content ↔
      Harmless (summary g.blueprint))

/-- The emitters are those that were asked for, or all. -/
theorem mem_emitters {s : Schema} {naming : Naming} {policy : PolicyTable}
    {only : Option (List Emitter)} (h : build s naming policy only = .ok g) {e : Emitter} :
    e ∈ g.emitters ↔ ∀ chosen, only = some chosen → e ∈ chosen := by
  have hall : e ∈ Emitter.all := by cases e <;> decide
  unfold build at h
  split at h
  · obtain rfl := pure_eq_ok.1 h
    cases only <;> simp [hall]
  · cases h

theorem emitters_sublist {s : Schema} {naming : Naming} {policy : PolicyTable}
    {only : Option (List Emitter)} (h : build s naming policy only = .ok g) :
    g.emitters.Sublist Emitter.all := by
  unfold build at h
  split at h
  · obtain rfl := pure_eq_ok.1 h
    cases only with
    | none => exact .refl _
    | some => exact List.filter_sublist
  · cases h

/-- The file that is called so. -/
def pathOf (file : String × Format) : String := file.1 ++ "." ++ file.2.extension

/-- The files of all emitters have different paths, none of which is that of the file of
    modules. -/
theorem nodup_paths : ((Emitter.all.flatMap Emitter.files).map pathOf).Nodup ∧
    ∀ file ∈ Emitter.all.flatMap Emitter.files, pathOf file ≠ "mod.rs" ∧ '\n' ∉ file.1.toList := by
  decide +kernel

/-- Files of emitters, each of which has run once, are told apart by their paths. -/
theorem paths_of_files {emitters : List Emitter} (hsub : emitters.Sublist Emitter.all)
    (h : artifacts.map (fun a => (a.name, a.format)) = emitters.flatMap Emitter.files) :
    (artifacts.map (·.path)).Nodup ∧
      ∀ a ∈ artifacts, a.path ≠ "mod.rs" ∧ '\n' ∉ a.name.toList := by
  have hfiles : (emitters.flatMap Emitter.files).Sublist (Emitter.all.flatMap Emitter.files) :=
    hsub.flatMap _
  constructor
  · have hpaths : artifacts.map (·.path) = (emitters.flatMap Emitter.files).map pathOf := by
      rw [← h, List.map_map]
      rfl
    rw [hpaths]
    exact nodup_paths.1.sublist (hfiles.map _)
  · intro a ha
    have hfile := List.mem_map_of_mem (f := fun a : Artifact => (a.name, a.format)) ha
    rw [h] at hfile
    exact nodup_paths.2 _ (hfiles.subset hfile)

/-- With all emitters done, files are put in order and the file of modules is added. -/
theorem run_eq {files : Emitter → List Artifact}
    (hfiles : ∀ e : Emitter, e.emit g.blueprint = .ok (files e))
    (hrepeated : repeated? (sort (g.emitters.flatMap files)) = none) :
    g.run = .ok {
      artifacts := g.withModuleFile (sort (g.emitters.flatMap files))
      reports := g.emitters.map fun e => ⟨e, .ok (files e)⟩ } := by
  have hreports : g.reports = g.emitters.map fun e => ⟨e, .ok (files e)⟩ := by
    simp only [reports, hfiles]
  have hnone : (g.reports.any (·.error?.isSome)) = false := by
    rw [hreports, List.any_map]
    exact List.any_eq_false.2 fun e _ => by simp [Report.error?]
  have hmade : g.reports.flatMap (·.artifacts) = g.emitters.flatMap files := by
    rw [hreports, List.flatMap_map]
    rfl
  rw [run, hnone, hmade, if_neg (by decide)]
  dsimp only
  rw [hrepeated, hreports]
  rfl

/-- What emitters make, put in order and with the file of modules, is a complete output. -/
theorem complete_of_files {files : Emitter → List Artifact} (hsub : g.emitters.Sublist Emitter.all)
    (hfiles : ∀ e, (files e).map (fun a => (a.name, a.format)) = e.files) :
    repeated? (sort (g.emitters.flatMap files)) = none ∧ Complete g {
      artifacts := g.withModuleFile (sort (g.emitters.flatMap files))
      reports := g.emitters.map fun e => ⟨e, .ok (files e)⟩ } := by
  have hperm : (sort (g.emitters.flatMap files)).Perm (g.emitters.flatMap files) :=
    List.mergeSort_perm _ _
  obtain ⟨hnodup, hnames⟩ : ((g.emitters.flatMap files).map (·.path)).Nodup ∧
      ∀ a ∈ g.emitters.flatMap files, a.path ≠ "mod.rs" ∧ '\n' ∉ a.name.toList :=
    paths_of_files hsub (by rw [List.map_flatMap]; exact List.flatMap_congr fun e _ => hfiles e)
  have hascending := sort_ascending hnodup
  have hne : ∀ a ∈ sort (g.emitters.flatMap files), a.path ≠ "mod.rs" := fun a ha =>
    (hnames a (hperm.subset ha)).1
  -- Every emitter has a file, so nothing is generated only if nothing is asked for.
  have hempty : sort (g.emitters.flatMap files) = [] ↔ g.emitters = [] := by
    constructor
    · intro h
      rw [h] at hperm
      have hnil := List.flatMap_eq_nil_iff.1 hperm.nil_eq.symm
      refine List.eq_nil_iff_forall_not_mem.2 fun e he => ?_
      have hfile := hfiles e
      rw [hnil e he] at hfile
      cases e <;> cases hfile
    · intro h
      rw [h, List.flatMap_nil, sort, List.mergeSort_nil]
  have hdeclares := declares_declarations (g := g)
    (fun a ha => (hnames a (hperm.subset ha)).2) ((hperm.map (·.path)).nodup_iff.2 hnodup)
  have hothers := filter_withModuleFile (g := g) hne
  generalize sort (g.emitters.flatMap files) = sorted at *
  refine ⟨repeated?_eq_none hascending, {
    emitters := by
      rw [List.map_map]
      exact List.map_id _
    succeeds := fun r hr => ?_
    ascending := withModuleFile_ascending hascending hne
    others := ?_
    moduleFile := ?_
    declares := fun a ha hpath => ?_ }⟩
  · obtain ⟨e, -, rfl⟩ := List.mem_map.1 hr
    exact ⟨_, rfl, hfiles e⟩
  · rw [hothers, List.flatMap_map]
    exact hperm
  · rw [ne_eq, ← hempty]
    constructor
    · rintro ⟨a, ha, -⟩ rfl
      exact List.not_mem_nil ha
    · exact fun h => ⟨_, (mem_withModuleFile h).2 (.inl rfl), rfl⟩
  · have hsorted : sorted ≠ [] := fun h => by
      subst h
      exact List.not_mem_nil ha
    obtain rfl | ha := (mem_withModuleFile hsorted).1 ha
    · rw [hothers]
      refine ⟨_, content_moduleFile .., hdeclares, ?_⟩
      rw [content_moduleFile]
      exact hdeclares.heading_iff
    · exact absurd hpath (hne a ha)

/-- A generator that could be made does not fail. -/
theorem exists_run {s : Schema} {naming : Naming} {policy : PolicyTable}
    {only : Option (List Emitter)} (h : build s naming policy only = .ok g) :
    ∃ out, g.run = .ok out ∧ Complete g out := by
  choose files hemit hfiles using Emitter.exists_emit (build_eq_ok h).2.2.1
  obtain ⟨hrepeated, hcomplete⟩ := complete_of_files (emitters_sublist h) hfiles
  exact ⟨_, run_eq hemit hrepeated, hcomplete⟩

/-- The modules of an emitter that has run are there. -/
theorem Complete.exists_module {out : Output} (h : Complete g out) {e : Emitter} {name : String}
    (he : e ∈ g.emitters) (hname : (name, .source) ∈ e.files) :
    ∃ a ∈ out.artifacts.filter (·.path ≠ "mod.rs"), a.module? = some name := by
  rw [← h.emitters] at he
  obtain ⟨r, hr, rfl⟩ := List.mem_map.1 he
  obtain ⟨artifacts, houtcome, hfiles⟩ := h.succeeds r hr
  rw [← hfiles] at hname
  obtain ⟨a, ha, hfile⟩ := List.mem_map.1 hname
  obtain ⟨rfl, hformat⟩ := Prod.mk.inj hfile
  have hmade : a ∈ r.artifacts := by rwa [Report.artifacts, houtcome]
  refine ⟨a, h.others.mem_iff.2 (List.mem_flatMap.2 ⟨r, hr, hmade⟩), ?_⟩
  rw [Artifact.module?, if_pos hformat]

/-- Running a generator that could be made succeeds, with all that there is to be. -/
theorem run_of_build {s : Schema} {naming : Naming} {policy : PolicyTable}
    {only : Option (List Emitter)} (h : build s naming policy only = .ok g) :
    (∀ e, e ∈ g.emitters ↔ ∀ chosen, only = some chosen → e ∈ chosen) ∧
      ∃ out, g.run = .ok out ∧ Complete g out := by
  constructor
  · intro e
    exact mem_emitters h
  · exact exists_run h

/-- Cells are cloned by a function written by hand. -/
def handOverCells : PolicyTable := PolicyTable.empty.add (.entityClone "cell" (.custom .constant))

/-- Cells whose clones are written by hand have a module for these. -/
theorem run_of_build_design : ∃ g out,
    build Design.schema .hardware handOverCells (some [.serialization, .clone]) = .ok g ∧
      g.run = .ok out ∧ Complete g out ∧
      ∃ a ∈ out.artifacts, a.path = "mod.rs" ∧ declared "mod " a.content = ["custom_clone"] := by
  obtain ⟨g, hbuild, hg⟩ : ∃ g,
      build Design.schema .hardware handOverCells (some [.serialization, .clone]) = .ok g ∧
        g.blueprint = ⟨⟨Design.schema, ∅⟩, .hardware, handOverCells⟩ :=
    build_of_resolve (by decide +kernel)
  obtain ⟨hemitters, out, hrun, hcomplete⟩ := run_of_build hbuild
  have hclone : Emitter.clone ∈ g.emitters := (hemitters _).2 fun chosen h => by
    rw [← Option.some.inj h]
    decide
  obtain ⟨file, hfile, hpath⟩ := hcomplete.moduleFile.2 (List.ne_nil_of_mem hclone)
  obtain ⟨below, -, -, hdeclares⟩ := hcomplete.declares file hfile hpath
  have hheading : Harmless (summary g.blueprint) := harmless_summary (by rw [hg]; decide +kernel)
  refine ⟨g, out, hbuild, hrun, hcomplete, file, hfile, hpath,
    (hdeclares.2 hheading).handWritten ⟨hcomplete.exists_module hclone (by decide), ?_⟩⟩
  rw [hg]
  exact ⟨Design.declarations.entity Design.declarations.entities[1] 1, by decide +kernel,
    Clone.handsOver_iff.2 ⟨.constant, by decide +kernel⟩⟩

/-- The name of a schema that goes over several lines, of which one declares a module. -/
def spilling : Declarations where
  name := "spilling\npub mod types;\n//"
  entities := [{ name := "node" }]

/-- A module may be declared twice. -/
theorem module_declared_twice : spilling.toSchema .hardware = .ok spilling.assemble ∧
    ∃ g out, build spilling.assemble .hardware .empty (some [.typeTable]) = .ok g ∧
      g.run = .ok out ∧ ∃ a ∈ out.artifacts, a.path = "mod.rs" ∧
        (declared "pub mod " a.content).count "types" = 2 := by
  obtain ⟨g, hbuild, hg⟩ : ∃ g,
      build spilling.assemble .hardware .empty (some [.typeTable]) = .ok g ∧
        g.blueprint = ⟨⟨spilling.assemble, ∅⟩, .hardware, .empty⟩ :=
    build_of_resolve (by decide +kernel)
  obtain ⟨out, hrun, hcomplete⟩ := exists_run hbuild
  have htypes : Emitter.typeTable ∈ g.emitters := (mem_emitters hbuild).2 fun chosen h => by
    rw [← Option.some.inj h]
    decide
  obtain ⟨file, hfile, hpath⟩ := hcomplete.moduleFile.2 (List.ne_nil_of_mem htypes)
  obtain ⟨below, hcontent, hbelow, -⟩ := hcomplete.declares file hfile hpath
  -- The second line of the name declares the module, and below the heading it is declared again.
  have hheading : (lines (summary g.blueprint)).tail.filterMap (declaredIn "pub mod ") =
      ["types"] := by
    rw [hg]
    decide +kernel
  have honce : (declared "pub mod " below).count "types" = 1 := by
    refine List.count_eq_one_of_mem hbelow.once ?_
    rw [hbelow.modules, List.mem_filterMap]
    exact hcomplete.exists_module htypes (by decide)
  refine ⟨by decide +kernel, g, out, hbuild, hrun, file, hfile, hpath, ?_⟩
  rw [hcontent, declared_banner _ _ (.inl rfl), hheading, List.count_append, honce]
  rfl

end Generator

end Generation

end ObjectModel
