import ObjectModel.Generation.Archive
import ObjectModel.Generation.Clone
import ObjectModel.Generation.Compare
import ObjectModel.Generation.Containers
import ObjectModel.Generation.Groups
import ObjectModel.Generation.HandleListener
import ObjectModel.Generation.Listener
import ObjectModel.Generation.Objects
import ObjectModel.Generation.Store
import ObjectModel.Generation.TreeDump
import ObjectModel.Generation.TypeTable
import ObjectModel.Policy.Check
import ObjectModel.Schema.Check

/-!
# Generation

Code is generated by *emitters*, each of which makes a few files. A generator
runs some of them on one blueprint, and adds a file that declares the others
as modules.

* `Generator.build`: a generator for a schema, if the schema is sound under
  the naming and the policy speaks of nothing that the schema lacks.
* `Generator.run`: all files in order of their paths, and a report on each
  emitter.
-/

namespace ObjectModel.Generation

/-- What a file is written in. -/
inductive Format
  | source
  | wireSchema
deriving DecidableEq, Repr

/-- How the names of files end. -/
def Format.extension : Format → String
  | source => "rs"
  | wireSchema => "capnp"

/-- A generated file. -/
structure Artifact where
  /-- The name of the file without its extension. -/
  name : String
  format : Format
  content : String
deriving DecidableEq, Repr

namespace Artifact

/-- Where the file goes below the place of all generated files. -/
def path (a : Artifact) : String := a.name ++ "." ++ a.format.extension

/-- The module that the file is the source of. -/
def module? (a : Artifact) : Option String := if a.format = .source then some a.name else none

end Artifact

/-- What can generate code. -/
inductive Emitter
  /-- Tags, names and predicates of types. -/
  | typeTable
  /-- The types of objects, their store, and the predicates of groups. -/
  | model
  /-- Walks of objects, in a store and through handles. -/
  | dispatch
  | clone
  | compare
  /-- The wire schema, saving and restoring. -/
  | serialization
  /-- Filing of adopted children. -/
  | containerAdoption
  /-- Printing of objects. -/
  | visitor
  /-- A listener that writes down what it hears. -/
  | tracer
deriving DecidableEq, Repr

/-- What keeps an emitter from its files. -/
inductive EmitterError
  | template (e : TemplateError)
  | schema (e : SchemaError)
deriving DecidableEq, Repr

/-- An error in words. -/
def EmitterError.message : EmitterError → String
  | template e => e.message
  | schema e => "schema error: " ++ e.message

namespace Emitter

/-- All emitters, in the order of reports. -/
def all : List Emitter :=
  [typeTable, model, dispatch, clone, compare, serialization, containerAdoption, visitor, tracer]

/-- The name of an emitter. -/
def name : Emitter → String
  | typeTable => "type-table"
  | model => "model"
  | dispatch => "dispatch"
  | clone => "clone"
  | compare => "compare"
  | serialization => "serialization"
  | containerAdoption => "container-adoption"
  | visitor => "visitor"
  | tracer => "tracer"

/-- The emitter of that name. -/
def ofName? (name : String) : Option Emitter := all.find? (·.name == name)

/-- A file made from a template. -/
def filled (name : String) (format : Format) (content : Except TemplateError String) :
    Except EmitterError Artifact :=
  match content with
  | .ok text => pure ⟨name, format, text⟩
  | .error e => throw (.template e)

/-- The file of groups. -/
def groupsFile (b : Blueprint) : Except EmitterError Artifact :=
  match Groups.groups b with
  | .ok text => pure ⟨"groups", .source, text⟩
  | .error e => throw (.schema e)

/-- The files of an emitter. -/
def emit (b : Blueprint) : Emitter → Except EmitterError (List Artifact)
  | typeTable => return [
      ← filled "types" .source (TypeTable.types b),
      ⟨"forward", .source, TypeTable.forward b⟩]
  | model => return [
      ⟨"objects", .source, Objects.objects b⟩,
      ← filled "store" .source (Store.store b),
      ← groupsFile b]
  | dispatch => return [
      ← filled "listener" .source (Listener.listener b),
      ← filled "handle_listener" .source (HandleListener.listener b)]
  | clone => return [← filled "clone" .source (Clone.clone b)]
  | compare => return [← filled "compare" .source (Compare.comparer b)]
  | serialization => return [
      ← filled "model" .wireSchema (WireSchema.wireSchema b),
      ← filled "archive" .source (Archive.archive b)]
  | containerAdoption => return [← filled "containers" .source (Containers.containers b)]
  | visitor => return [← filled "visitor" .source (TreeDump.visitor b)]
  | tracer => return [← filled "listener_tracer" .source (Listener.tracer b)]

end Emitter

/-- What came of an emitter. -/
structure Report where
  emitter : Emitter
  outcome : Except EmitterError (List Artifact)

namespace Report

/-- The files that were made. -/
def artifacts (r : Report) : List Artifact :=
  match r.outcome with
  | .ok artifacts => artifacts
  | .error _ => []

/-- What went wrong. -/
def error? (r : Report) : Option EmitterError :=
  match r.outcome with
  | .ok _ => none
  | .error e => some e

end Report

/-- What keeps code from being generated. -/
inductive GenerationError
  | schema (e : SchemaError)
  /-- Two emitters make a file of the same path. -/
  | duplicateArtifact (path : String)
  | emittersFailed (reports : List Report)

/-- An error in words. -/
def GenerationError.message : GenerationError → String
  | schema e => "schema error: " ++ e.message
  | duplicateArtifact path => s!"generation error: artifact {path} produced twice"
  | emittersFailed reports =>
    let failed := (reports.filter (·.error?.isSome)).map (·.emitter.name)
    "emitters failed: " ++ String.intercalate ", " failed

/-- Emitters to be run on a blueprint. -/
structure Generator where
  blueprint : Blueprint
  /-- The emitters, in the order of reports. -/
  emitters : List Emitter

/-- What a generator makes. -/
structure Output where
  /-- All files, by path. -/
  artifacts : List Artifact
  reports : List Report

namespace Generator

/-- The names, the policy and the groups of a schema are in order. -/
def resolve (s : Schema) (naming : Naming) (policy : PolicyTable) :
    Except SchemaError Resolution := do
  s.check naming
  policy.check s
  Resolution.ofSchema s

/-- A generator with the emitters in `only`, or with all. -/
def build (s : Schema) (naming : Naming) (policy : PolicyTable) (only : Option (List Emitter)) :
    Except GenerationError Generator :=
  match resolve s naming policy with
  | .ok resolution => pure {
      blueprint := { resolution, naming, policy }
      emitters := match only with
        | some chosen => Emitter.all.filter (· ∈ chosen)
        | none => Emitter.all }
  | .error e => throw (.schema e)

variable (g : Generator)

/-- Declares the file of clones written by hand, if it is needed. -/
def handWritten (artifacts : List Artifact) : Code :=
  if artifacts.any (·.module? == some "clone") && Clone.delegates g.blueprint then .all [
    "",
    "// Hand-written clone bodies.",
    "mod custom_clone;"]
  else []

/-- Takes in what is generated from the wire schema, if there is one. -/
def wireModule (artifacts : List Artifact) : Code :=
  if artifacts.any (·.format == .wireSchema) then .all [
    "",
    "/// Code generated by capnp from `model.capnp`.",
    .block "pub mod model_capnp" [
      "#![allow(clippy::all, missing_docs)]",
      "include!(concat!(env!(\"OUT_DIR\"), \"/model_capnp.rs\"));"]]
  else []

/-- The file that declares all others. -/
def moduleFile (artifacts : List Artifact) : Artifact where
  name := "mod"
  format := .source
  content := Code.text <| .all [
    .banner s!"The `{g.blueprint.schema.name}` object model.",
    (artifacts.filterMap (·.module?)).flatMap fun name => s!"pub mod {name};",
    handWritten g artifacts,
    wireModule artifacts]

/-- What comes of each emitter. -/
def reports : List Report := g.emitters.map fun e => ⟨e, e.emit g.blueprint⟩

/-- The first of two files in a row that have the same path. -/
def repeated? : List Artifact → Option Artifact
  | a :: c :: r => if a.path = c.path then some a else repeated? (c :: r)
  | _ => none

/-- Files by path. -/
def sort (artifacts : List Artifact) : List Artifact :=
  artifacts.mergeSort fun a c => decide (a.path ≤ c.path)

/-- Files by path, and among them the file that declares them. -/
def withModuleFile (artifacts : List Artifact) : List Artifact :=
  if artifacts.isEmpty then []
  else
    let file := g.moduleFile artifacts
    artifacts.takeWhile (fun a => decide (a.path < file.path)) ++
      file :: artifacts.dropWhile fun a => decide (a.path < file.path)

/-- Generates all files. -/
def run : Except GenerationError Output := do
  let reports := g.reports
  if reports.any (·.error?.isSome) then
    throw (.emittersFailed reports)
  let artifacts := sort (reports.flatMap (·.artifacts))
  if let some a := repeated? artifacts then
    throw (.duplicateArtifact a.path)
  return { artifacts := g.withModuleFile artifacts, reports }

end Generator

end ObjectModel.Generation
