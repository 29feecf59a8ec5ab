import ObjectModel.Markup.Event
import ObjectModel.Policy.Hardware

/-!
# Policy documents

A policy may be kept in a document next to its schema:

```xml
<policy base="hdl">
  <clone entity="ref_obj" member="actual_group" policy="rebind" key="name" source="referrer"/>
  <entity name="net" clone="dedup" binding="net"/>
  <exclude entity="func_call" relation="function"/>
  <compare-exclude member="file"/>
  <collector entity="scope">
    <bucket child="net" member="instance_items"/>
  </collector>
</policy>
```

An empty tag is an entry (`entryOfTag`). The tag `policy` starts a table anew,
and `collector` says whose buckets follow, up to a tag that closes one.

* `PolicyTable.ofEvents`: the table that a sequence of tags stands for.
* `PolicyTable.ofDocument`: the table that a document stands for, given a reader
  of its tags.
-/

namespace ObjectModel

/-- What is wrong with a policy document. -/
inductive DocumentError
  /-- The document is not well formed. -/
  | malformed
  | missingAttribute (element key : String)
  | invalidAttribute (element key value : String)
  /-- There is no such tag in a policy. -/
  | unknownElement (element : String)
  /-- An entry comes before any policy. -/
  | outsidePolicy (element : String)
  /-- A bucket belongs to no collector. -/
  | bucketOutsideCollector
  /-- There is no policy. -/
  | noPolicy
deriving DecidableEq, Repr

/-- An error in words. -/
def DocumentError.message : DocumentError → String
  | malformed => "malformed document"
  | missingAttribute element key =>
    s!"missing required attribute '{key}' on element '{element}'"
  | invalidAttribute element key value =>
    s!"invalid value '{value}' for attribute '{key}' on element '{element}'"
  | unknownElement element => s!"unknown element '{element}' in context 'policy'"
  | outsidePolicy element => s!"invalid policy structure: '{element}' outside of <policy>"
  | bucketOutsideCollector => "invalid policy structure: <bucket> outside of <collector>"
  | noPolicy => "invalid policy structure: No policy element found"

namespace PolicyDocument

open Markup

/-- The value of an attribute that has to be there. -/
def required (tag : Tag) (key : String) : Except DocumentError String :=
  match tag.attribute? key with
  | some value => pure value
  | none => throw (.missingAttribute tag.name key)

/-- Refuses the value of an attribute. -/
def invalid {α : Type} (tag : Tag) (key value : String) : Except DocumentError α :=
  throw (.invalidAttribute tag.name key value)

/-- The table from which a `policy` tag starts. -/
def baseTable (tag : Tag) : Except DocumentError PolicyTable :=
  match tag.attribute? "base" with
  | none => pure .empty
  | some "hdl" => pure .hardware
  | some other => invalid tag "base" other

/-- The entry of a `clone` tag. -/
def cloneEntry (tag : Tag) : Except DocumentError PolicyEntry := do
  let entity := (tag.attribute? "entity").getD anyEntity
  let member ← required tag "member"
  let clone ← match ← required tag "policy" with
    | "deep" => pure .deep
    | "alias" => pure .alias
    | "uniquify" => pure .uniquify
    | "rebind" =>
      let key := (tag.attribute? "key").getD "name"
      match tag.attribute? "source" with
      | none | some "target" => pure (.rebind key .target)
      | some "referrer" => pure (.rebind key .referrer)
      | some other => invalid tag "source" other
    | other => invalid tag "policy" other
  return .memberClone entity member clone

/-- The entry of an `entity` tag. -/
def entityEntry (tag : Tag) : Except DocumentError PolicyEntry := do
  let name ← required tag "name"
  let clone ← match ← required tag "clone" with
    | "generic" => pure .generic
    | "custom" =>
      let kind ← required tag "kind"
      match CustomClone.ofName? kind with
      | some custom => pure (.custom custom)
      | none => invalid tag "kind" kind
    | "dedup" =>
      match ← required tag "binding" with
      | "net" => pure (.dedupByName .net)
      | "param" => pure (.dedupByName .param)
      | other => invalid tag "binding" other
    | other => invalid tag "clone" other
  return .entityClone name clone

/-- The entry that an empty tag stands for, in a collector if there is one. -/
def entryOfTag (collector : Option String) (tag : Tag) : Except DocumentError PolicyEntry := do
  match tag.name with
  | "clone" => cloneEntry tag
  | "entity" => entityEntry tag
  | "exclude" =>
    let relation ← required tag "relation"
    match tag.attribute? "entity" with
    | some entity => return .excludeEdge entity relation
    | none => return .excludeRelation relation
  | "compare-exclude" => return .compareExclude (← required tag "member")
  | "bucket" =>
    match collector with
    | some collector =>
      let child ← required tag "child"
      return .collector collector child (← required tag "member")
    | none => throw .bucketOutsideCollector
  | other => throw (.unknownElement other)

/-- How far a document has been understood. -/
structure Progress where
  /-- The table of the last policy. -/
  table : Option PolicyTable := none
  /-- The collector whose buckets follow. -/
  collector : Option String := none
deriving DecidableEq

/-- What a tag adds. -/
def Progress.next (p : Progress) : Event → Except DocumentError Progress
  | .opening tag =>
    if tag.name = "policy" then do
      return { p with table := some (← baseTable tag) }
    else if tag.name = "collector" ∧ p.table.isSome then do
      return { p with collector := some (← required tag "entity") }
    else throw (.unknownElement tag.name)
  | .empty tag =>
    if tag.name = "policy" then do
      return { p with table := some (← baseTable tag) }
    else match p.table with
      | some table => do
        return { p with table := some (table.add (← entryOfTag p.collector tag)) }
      | none => throw (.outsidePolicy tag.name)
  | .closing name => pure (if name = "collector" then { p with collector := none } else p)

/-- The table of the last policy. -/
def Progress.finish (p : Progress) : Except DocumentError PolicyTable :=
  match p.table with
  | some table => pure table
  | none => throw .noPolicy

/-- How far a sequence of tags is understood. -/
def understand (events : List Event) : Except DocumentError Progress :=
  events.foldlM Progress.next {}

end PolicyDocument

namespace PolicyTable

/-- The table that a sequence of tags stands for. -/
def ofEvents (events : List Markup.Event) : Except DocumentError PolicyTable := do
  (← PolicyDocument.understand events).finish

/-- The table that a document stands for. If the document is not well formed,
    the tags up to there are understood first. -/
def ofDocument (read : Markup.Reader) (document : String) : Except DocumentError PolicyTable := do
  let found := read document
  let progress ← PolicyDocument.understand found.events
  if found.complete then progress.finish else throw .malformed

end PolicyTable

end ObjectModel
