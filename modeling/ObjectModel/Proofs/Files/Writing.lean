import ObjectModel.Files.Memory
import ObjectModel.Proofs.Generation.Paths
import ObjectModel.Proofs.SortedMap

/-!
# Writing generated files

Files that go to different places of a memory are all there in the end, and nothing
else is touched (`Written`). What each write does is settled by what was at its place
before all of them (`Memory.outcome`), as no write gets in the way of another
(`Memory.get?_files_write`); the summary counts this.

Files that are there already are left as they are (`run_writeAll_of_content`). So to
write the files of a run again does nothing (`writeAll_of_run`).
-/

namespace ObjectModel.Files

open Generation

variable {m m' : Memory} {artifacts : List Artifact} {s : Summary}

/-! ## One file -/

theorem Outcome.of_eq_unchanged {before : Option String} {content : String} :
    Outcome.of before content = .unchanged ↔ before = some content := by
  cases before <;> simp [Outcome.of]

theorem Outcome.of_eq_created {before : Option String} {content : String} :
    Outcome.of before content = .created ↔ before = none := by
  cases before with
  | none => simp [Outcome.of]
  | some old => by_cases h : old = content <;> simp [Outcome.of, h]

theorem Outcome.of_eq_rewritten {before : Option String} {content : String} :
    Outcome.of before content = .rewritten ↔ before ≠ none ∧ before ≠ some content := by
  cases before with
  | none => simp [Outcome.of]
  | some old => by_cases h : old = content <;> simp [Outcome.of, h]

namespace Memory

/-- What it does to write a file. -/
def outcome (m : Memory) (a : Artifact) : Outcome := Outcome.of (m.content? a.path) a.content

/-- How the path of a file is spelt: as it was when the file was first written. -/
def spelling (m : Memory) (path : String) : String :=
  ((m.files.get? (Path.steps path)).map (·.path)).getD path

/-- A write changes what is at its path, and nothing else. -/
theorem get?_files_write (path content : String) (place : List Step) :
    (m.write path content).2.files.get? place =
      if place = Path.steps path then some ⟨m.spelling path, content⟩ else m.files.get? place := by
  rw [write]
  dsimp only
  split
  · rename_i h
    rw [Outcome.of_eq_unchanged, content?, Option.map_eq_some_iff] at h
    obtain ⟨file, hfile, rfl⟩ := h
    split
    · rename_i hplace
      rw [hplace, spelling, hfile]
      rfl
    · rfl
  · exact SortedMap.get?_insert ..

theorem content?_write_self (path content : String) :
    (m.write path content).2.content? path = some content := by
  rw [content?, get?_files_write, if_pos rfl]
  rfl

/-- Writing one file does not bear on what another will come to. -/
theorem outcome_write {a c : Artifact} (h : Path.steps c.path ≠ Path.steps a.path) :
    (m.write a.path a.content).2.outcome c = m.outcome c := by
  rw [outcome, content?, get?_files_write, if_neg h]
  rfl

/-- A write does not fail, and is counted. -/
theorem run_write (s : Summary) (m : Memory) (a : Artifact) :
    (do return s.add (← Destination.write a.path a.content) :
      ExceptT Refused (StateM Memory) Summary).run m =
        (.ok (s.add (m.outcome a)), (m.write a.path a.content).2) := rfl

/-- To write what is there leaves all files as they are. -/
theorem write_of_content {path content : String} (h : m.content? path = some content) :
    (m.write path content).2 = { m with outcomes := m.outcomes ++ [(path, .unchanged)] } := by
  have hunchanged := Outcome.of_eq_unchanged.2 h
  rw [write, hunchanged]
  rfl

end Memory

/-! ## Files in turn -/

/-- A summary has the number of each outcome. -/
theorem Summary.foldl_add (outcomes : List Outcome) (s : Summary) :
    outcomes.foldl Summary.add s = {
      created := s.created + outcomes.count .created
      rewritten := s.rewritten + outcomes.count .rewritten
      unchanged := s.unchanged + outcomes.count .unchanged } := by
  induction outcomes generalizing s with
  | nil => rfl
  | cons o l ih =>
    rw [List.foldl_cons, ih]
    cases o <;> simp [add, Nat.add_assoc, Nat.add_comm 1]

/-- Each outcome is one of the three. -/
theorem Outcome.count_add_count (outcomes : List Outcome) :
    outcomes.count .created + outcomes.count .rewritten + outcomes.count .unchanged =
      outcomes.length := by
  induction outcomes with
  | nil => rfl
  | cons o l ih =>
    rw [List.length_cons, ← ih, List.count_cons, List.count_cons, List.count_cons]
    cases o <;> simp only [beq_self_eq_true, if_true, reduceCtorEq, beq_iff_eq, if_false] <;> omega

/-- Files that go to different places do not get in each other's way. -/
theorem exists_run_foldlM (hplaces : (artifacts.map fun a => Path.steps a.path).Nodup)
    (s : Summary) (m : Memory) :
    ∃ m', (artifacts.foldlM (fun s a => return s.add (← Destination.write a.path a.content)) s :
        ExceptT Refused (StateM Memory) Summary).run m =
          (.ok ((artifacts.map m.outcome).foldl Summary.add s), m') ∧
      (∀ a ∈ artifacts, m'.content? a.path = some a.content) ∧
      (∀ place, (∀ a ∈ artifacts, Path.steps a.path ≠ place) →
        m'.files.get? place = m.files.get? place) ∧
      m'.outcomes = m.outcomes ++ artifacts.map fun a => (a.path, m.outcome a) := by
  induction artifacts generalizing s m with
  | nil => exact ⟨m, rfl, fun _ ha => absurd ha List.not_mem_nil, fun _ _ => rfl, by simp⟩
  | cons a l ih =>
    obtain ⟨hnew, hl⟩ := List.nodup_cons.1 hplaces
    have hother : ∀ c ∈ l, Path.steps c.path ≠ Path.steps a.path := fun c hc hplace =>
      hnew (List.mem_map.2 ⟨c, hc, hplace⟩)
    obtain ⟨m', hrun, hcontent, hothers, houtcomes⟩ :=
      ih hl (s.add (m.outcome a)) (m.write a.path a.content).2
    -- What is written first is there to the end, as the rest goes elsewhere.
    have hfirst : m'.content? a.path = some a.content := by
      rw [Memory.content?, hothers _ hother]
      exact Memory.content?_write_self ..
    have hrest : l.map (m.write a.path a.content).2.outcome = l.map m.outcome :=
      List.map_congr_left fun c hc => Memory.outcome_write (hother c hc)
    refine ⟨m', ?_, List.forall_mem_cons.2 ⟨hfirst, hcontent⟩, fun place hplace => ?_, ?_⟩
    · rw [List.foldlM_cons, run_bind_ok (Memory.run_write ..), List.map_cons,
        List.foldl_cons, ← hrest]
      exact hrun
    · rw [List.forall_mem_cons] at hplace
      rw [hothers place hplace.2, Memory.get?_files_write, if_neg hplace.1.symm]
    · rw [houtcomes, List.map_congr_left fun c hc => by rw [Memory.outcome_write (hother c hc)]]
      simp [Memory.write, Memory.outcome]

/-- What it is for files to be written: from `m` to `m'`, as told by `summary`. -/
structure Written (artifacts : List Artifact) (m : Memory) (summary : Summary) (m' : Memory) :
    Prop where
  /-- Each file is there, with its content. -/
  content : ∀ a ∈ artifacts, m'.content? a.path = some a.content
  /-- Whatever else there was is still there as it was, and nothing has come to it. -/
  others : ∀ place, (∀ a ∈ artifacts, Path.steps a.path ≠ place) →
    m'.files.get? place = m.files.get? place
  /-- It is written down what each write did. -/
  outcomes : m'.outcomes = m.outcomes ++ artifacts.map fun a => (a.path, m.outcome a)
  created : summary.created = artifacts.countP fun a => m.content? a.path = none
  rewritten : summary.rewritten =
    artifacts.countP fun a => m.content? a.path ≠ none ∧ m.content? a.path ≠ some a.content
  unchanged : summary.unchanged = artifacts.countP fun a => m.content? a.path = some a.content
  total : summary.created + summary.rewritten + summary.unchanged = artifacts.length

/-- Files for different places can all be written. -/
theorem exists_run_writeAll (hplaces : (artifacts.map fun a => Path.steps a.path).Nodup)
    (m : Memory) :
    ∃ summary m', (writeAll artifacts : ExceptT Refused (StateM Memory) Summary).run m =
      (.ok summary, m') ∧ Written artifacts m summary m' := by
  -- Different paths lead to different places, so no file is written over by a later one.
  obtain ⟨m', hrun, hcontent, hothers, houtcomes⟩ := exists_run_foldlM hplaces {} m
  rw [Summary.foldl_add] at hrun
  have hcount (o : Outcome) : (artifacts.map m.outcome).count o =
      artifacts.countP fun a => m.outcome a = o := by
    rw [List.count_eq_countP, List.countP_map]
    exact List.countP_congr fun a _ => by simp
  refine ⟨_, m', hrun, {
    content := hcontent
    others := hothers
    outcomes := houtcomes
    created := ?_
    rewritten := ?_
    unchanged := ?_
    total := ?_ }⟩
  · simp only [hcount, Memory.outcome, Outcome.of_eq_created, Nat.zero_add]
  · simp only [hcount, Memory.outcome, Outcome.of_eq_rewritten, Nat.zero_add]
  · simp only [hcount, Memory.outcome, Outcome.of_eq_unchanged, Nat.zero_add]
  · simpa only [Nat.zero_add, List.length_map] using
      Outcome.count_add_count (artifacts.map m.outcome)

/-! ## Files that are there -/

/-- Files that are there are told to be unchanged, and are. -/
theorem run_foldlM_of_content (h : ∀ a ∈ artifacts, m.content? a.path = some a.content) :
    (artifacts.foldlM (fun s a => return s.add (← Destination.write a.path a.content)) s :
      ExceptT Refused (StateM Memory) Summary).run m =
        (.ok { s with unchanged := s.unchanged + artifacts.length },
          { m with outcomes := m.outcomes ++ artifacts.map fun a => (a.path, .unchanged) }) := by
  induction artifacts generalizing s m with
  | nil => rw [List.map_nil, List.append_nil]; rfl
  | cons a l ih =>
    rw [List.forall_mem_cons] at h
    have hfirst := Memory.run_write s m a
    rw [Memory.write_of_content h.1, Memory.outcome, Outcome.of_eq_unchanged.2 h.1] at hfirst
    rw [List.foldlM_cons, run_bind_ok hfirst]
    have hl : ∀ c ∈ l, ({ m with outcomes := m.outcomes ++ [(a.path, .unchanged)] } :
        Memory).content? c.path = some c.content := h.2
    refine (ih hl).trans ?_
    simp [Summary.add, Nat.add_assoc, Nat.add_comm 1]

theorem run_writeAll_of_content (h : ∀ a ∈ artifacts, m.content? a.path = some a.content) :
    (writeAll artifacts : ExceptT Refused (StateM Memory) Summary).run m =
      (.ok { unchanged := artifacts.length },
        { m with outcomes := m.outcomes ++ artifacts.map fun a => (a.path, .unchanged) }) := by
  rw [writeAll, run_foldlM_of_content h, Nat.zero_add]

/-- What a generator has made can be written to any memory, which has it then. To write it
    again does nothing to the files. -/
theorem writeAll_of_run {g : Generator} {out : Output} (h : g.run = .ok out) (m : Memory) :
    ∃ summary m', (writeAll out.artifacts : ExceptT Refused (StateM Memory) Summary).run m =
        (.ok summary, m') ∧ Written out.artifacts m summary m' ∧
      (writeAll out.artifacts : ExceptT Refused (StateM Memory) Summary).run m' =
        (.ok { created := 0, rewritten := 0, unchanged := out.artifacts.length },
          { m' with outcomes :=
              m'.outcomes ++ out.artifacts.map fun a => (a.path, .unchanged) }) := by
  obtain ⟨summary, m', hrun, hwritten⟩ := exists_run_writeAll (Generator.nodup_places_of_run h) m
  exact ⟨summary, m', hrun, hwritten, run_writeAll_of_content hwritten.content⟩

/-- A memory to which an old file of modules has been written, and notes that no
    generator writes. -/
def withNotes : Memory :=
  ((({} : Memory).write "mod.rs" "pub mod types;").2.write "docs//notes.txt" "Not generated.").2

/-- The notes are left under the spelling that they were written with. -/
theorem writeAll_of_run_design : ∃ g out,
    Generator.build Design.schema .hardware .empty (some [.typeTable]) = .ok g ∧
      g.run = .ok out ∧ ∃ summary m',
        (writeAll out.artifacts : ExceptT Refused (StateM Memory) Summary).run withNotes =
          (.ok summary, m') ∧ Written out.artifacts withNotes summary m' ∧
        m'.files.get? (Path.steps "docs/notes.txt") =
          some ⟨"docs//notes.txt", "Not generated."⟩ := by
  obtain ⟨g, hbuild, -⟩ : ∃ g,
      Generator.build Design.schema .hardware .empty (some [.typeTable]) = .ok g ∧
        g.blueprint = ⟨⟨Design.schema, ∅⟩, .hardware, .empty⟩ :=
    Generator.build_of_resolve (by decide +kernel)
  obtain ⟨out, hrun, -⟩ := Generator.exists_run hbuild
  obtain ⟨summary, m', hwrite, hwritten, -⟩ := writeAll_of_run hrun withNotes
  have hpaths : ∀ path ∈ Generator.paths, Path.steps path ≠ Path.steps "docs/notes.txt" := by
    decide +kernel
  have hnotes : ∀ a ∈ out.artifacts, Path.steps a.path ≠ Path.steps "docs/notes.txt" :=
    fun a ha => hpaths a.path ((Generator.ascending_of_run hrun).2 a ha)
  refine ⟨g, out, hbuild, hrun, summary, m', hwrite, hwritten, ?_⟩
  rw [hwritten.others _ hnotes]
  decide +kernel

end ObjectModel.Files
