import ObjectModel.Files.Path
import ObjectModel.Proofs.Generation.Running

/-!
# Paths of generated files

Files that a generator has made go to different places
(`Generator.nodup_places_of_run`). What a run sorts and checks are the spellings of
their paths (`Generator.ascending_of_run`). These are known for each emitter, whatever
it is run on (`Emitter.files_of_emit`), and no two of them are one path.
-/

namespace ObjectModel

namespace Generation

/-! ## Files of an emitter -/

/-- What is filled goes to the file that it was meant for. -/
theorem Emitter.filled_eq_ok {name : String} {format : Format}
    {content : Except TemplateError String} {a : Artifact}
    (h : filled name format content = .ok a) : a.name = name ∧ a.format = format := by
  cases content with
  | ok text =>
    obtain rfl := pure_eq_ok.1 h
    exact ⟨rfl, rfl⟩
  | error e => cases h

theorem Emitter.groupsFile_eq_ok {b : Blueprint} {a : Artifact} (h : groupsFile b = .ok a) :
    a.name = "groups" ∧ a.format = .source := by
  rw [groupsFile] at h
  split at h
  · obtain rfl := pure_eq_ok.1 h
    exact ⟨rfl, rfl⟩
  · cases h

/-- What an emitter has made are its files, on whatever blueprint. -/
theorem Emitter.files_of_emit {b : Blueprint} {e : Emitter} {artifacts : List Artifact}
    (h : e.emit b = .ok artifacts) : artifacts.map (fun a => (a.name, a.format)) = e.files := by
  -- The names are written out in each emitter, so they are read off from its success.
  cases e with
  | typeTable =>
    obtain ⟨types, htypes, h⟩ := bind_eq_ok.1 h
    obtain rfl := pure_eq_ok.1 h
    simp [files, filled_eq_ok htypes]
  | model =>
    obtain ⟨store, hstore, h⟩ := bind_eq_ok.1 h
    obtain ⟨groups, hgroups, h⟩ := bind_eq_ok.1 h
    obtain rfl := pure_eq_ok.1 h
    simp [files, filled_eq_ok hstore, groupsFile_eq_ok hgroups]
  | dispatch =>
    obtain ⟨listener, hlistener, h⟩ := bind_eq_ok.1 h
    obtain ⟨handles, hhandles, h⟩ := bind_eq_ok.1 h
    obtain rfl := pure_eq_ok.1 h
    simp [files, filled_eq_ok hlistener, filled_eq_ok hhandles]
  | serialization =>
    obtain ⟨model, hmodel, h⟩ := bind_eq_ok.1 h
    obtain ⟨archive, harchive, h⟩ := bind_eq_ok.1 h
    obtain rfl := pure_eq_ok.1 h
    simp [files, filled_eq_ok hmodel, filled_eq_ok harchive]
  | clone | compare | containerAdoption | visitor | tracer =>
    obtain ⟨file, hfile, h⟩ := bind_eq_ok.1 h
    obtain rfl := pure_eq_ok.1 h
    simp [files, filled_eq_ok hfile]

/-! ## Files of a run -/

namespace Generator

variable {g : Generator} {out : Output} {artifacts : List Artifact}

/-- Among sorted files, the check finds all that have one path. -/
theorem ascending_of_repeated? (hsorted : artifacts.Pairwise (·.path ≤ ·.path))
    (h : repeated? artifacts = none) : artifacts.Pairwise (·.path < ·.path) := by
  induction artifacts with
  | nil => exact .nil
  | cons a l ih =>
    cases l with
    | nil => exact List.pairwise_singleton _ _
    | cons c l =>
      rw [repeated?] at h
      split at h
      · cases h
      · rename_i hne
        have hrest := ih hsorted.of_cons h
        have hac : a.path < c.path :=
          lt_of_le_of_ne (List.rel_of_pairwise_cons hsorted List.mem_cons_self) hne
        refine List.pairwise_cons.2 ⟨fun d hd => ?_, hrest⟩
        obtain rfl | hd := List.mem_cons.1 hd
        · exact hac
        · exact hac.trans (List.rel_of_pairwise_cons hrest hd)

/-- A run that succeeds has found no two files of one path among those of its emitters. -/
theorem run_eq_ok (h : g.run = .ok out) : ∃ artifacts, out.artifacts = g.withModuleFile artifacts ∧
    artifacts.Pairwise (·.path < ·.path) ∧
    ∀ a ∈ artifacts, ∃ e : Emitter, (a.name, a.format) ∈ e.files := by
  rw [run] at h
  split at h
  · cases h
  rename_i hnone
  dsimp only at h
  split at h
  · cases h
  rename_i hrepeated
  obtain rfl := pure_eq_ok.1 h
  -- The files are sorted, so paths that are equal would stand side by side.
  refine ⟨_, rfl, ascending_of_repeated? sort_sorted ?_, fun a ha => ?_⟩
  · exact Option.eq_none_iff_forall_ne_some.2 hrepeated
  · obtain ⟨r, hr, ha⟩ := List.mem_flatMap.1 ((List.mergeSort_perm _ _).subset ha)
    obtain ⟨e, -, rfl⟩ := List.mem_map.1 hr
    rcases hemit : e.emit g.blueprint with error | made
    · rw [Report.artifacts, hemit] at ha
      exact absurd ha List.not_mem_nil
    · rw [Report.artifacts, hemit] at ha
      exact ⟨e, Emitter.files_of_emit hemit ▸ List.mem_map_of_mem ha⟩

/-- The paths that a file may have. -/
def paths : List String := "mod.rs" :: (Emitter.all.flatMap Emitter.files).map pathOf

theorem path_mem_paths {e : Emitter} {a : Artifact} (h : (a.name, a.format) ∈ e.files) :
    a.path ∈ (Emitter.all.flatMap Emitter.files).map pathOf :=
  List.mem_map_of_mem (f := pathOf) (List.mem_flatMap.2 ⟨e, by cases e <;> decide, h⟩)

/-- Files come in the order of their paths, which are different. -/
theorem ascending_of_run (h : g.run = .ok out) :
    out.artifacts.Pairwise (·.path < ·.path) ∧ ∀ a ∈ out.artifacts, a.path ∈ paths := by
  obtain ⟨artifacts, hout, hascending, hfiles⟩ := run_eq_ok h
  have hpaths : ∀ a ∈ artifacts, a.path ∈ (Emitter.all.flatMap Emitter.files).map pathOf :=
    fun a ha => path_mem_paths (hfiles a ha).choose_spec
  have hne : ∀ a ∈ artifacts, a.path ≠ "mod.rs" := fun a ha hpath => by
    obtain ⟨file, hfile, hfilePath⟩ := List.mem_map.1 (hpaths a ha)
    exact (nodup_paths.2 file hfile).1 (hfilePath.trans hpath)
  rw [hout]
  refine ⟨withModuleFile_ascending hascending hne, fun a ha => ?_⟩
  by_cases hempty : artifacts = []
  · subst hempty
    exact absurd ha List.not_mem_nil
  · obtain rfl | ha := (mem_withModuleFile hempty).1 ha
    · exact List.mem_cons_self
    · exact List.mem_cons_of_mem _ (hpaths a ha)

/-- None of these paths is another spelling of one of the others. -/
theorem nodup_places_paths : (paths.map Files.Path.steps).Nodup := by
  decide +kernel

/-- The files of a run go to different places. -/
theorem nodup_places_of_run (h : g.run = .ok out) :
    (out.artifacts.map fun a => Files.Path.steps a.path).Nodup := by
  obtain ⟨hascending, hpaths⟩ := ascending_of_run h
  refine List.pairwise_map.2 (hascending.imp_of_mem fun {a c} ha hc hlt hplace => ?_)
  exact hlt.ne (List.inj_on_of_nodup_map nodup_places_paths (hpaths a ha) (hpaths c hc) hplace)

end Generator

end Generation

end ObjectModel
