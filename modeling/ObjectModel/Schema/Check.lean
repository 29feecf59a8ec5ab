import ObjectModel.Naming.Basic
import ObjectModel.Schema.Error
import ObjectModel.Schema.Hierarchy

/-!
# Sound schemas

What a schema has to satisfy once its entities are in place: its members and
groups refer to what is declared (`checkContents`, `checkGroupRefs`), no group
takes itself in (`checkGroupCycles`), and the members of an entity, inherited
ones included, get different names (`checkNames`). The first violation is the
one that is told.
-/

namespace ObjectModel.RawSchema

variable (s : RawSchema)

/-- What a member refers into is declared. -/
def resolves (m : Member) : Bool :=
  match m.content with
  | .scalar _ => true
  | .object name _ => s.hasEntity name
  | .union name _ => s.hasGroup name

/-- All members refer into what is declared. -/
def checkContents : Except SchemaError Unit :=
  s.entities.forM fun e => e.members.forM fun m =>
    if s.resolves m then pure ()
    else throw (.unresolvedElementType e.name m.name (m.target?.getD ""))

/-- What a group takes in is declared. -/
def checkGroupRef : GroupRef → Except SchemaError Unit
  | .entity name | .family name =>
    if s.hasEntity name then pure () else throw (.unknownEntity name)
  | .group name =>
    if s.hasGroup name then pure () else throw (.unknownGroup name)

/-- All that groups take in is declared. -/
def checkGroupRefs : Except SchemaError Unit :=
  s.groups.forM fun g => g.refs.forM s.checkGroupRef

/-- The groups that a group takes in. -/
def innerGroups (name : String) : List String :=
  ((s.group? name).map (·.refs)).getD [] |>.filterMap fun
    | .group inner => some inner
    | _ => none

/-- Follows the groups taken in by `name`, which was reached along `path`.
    Those in `done` are known to be free of cycles; so are those in the
    result. The path never repeats a group, so its length bounds the search. -/
def searchCycle : Nat → List String → List String → String → Except SchemaError (List String)
  | 0, _, done, _ => pure done
  | n + 1, path, done, name =>
    if name ∈ done then pure done
    else if name ∈ path then throw (.groupCycle (path.dropWhile (· != name) ++ [name]))
    else do
      let done ← (s.innerGroups name).foldlM (searchCycle n (path ++ [name])) done
      return name :: done

/-- No group takes itself in. -/
def checkGroupCycles : Except SchemaError Unit := do
  let _ ← (s.groups.map (·.name)).foldlM (s.searchCycle (s.groups.length + 1) []) []

/-- The names derived for a member, in the order in which they are checked. -/
def derivedNames (naming : Naming) : List (Member → String) := [
  fun m => naming.memberName m.name m.cardinality,
  fun m => naming.accessorName m.name m.cardinality,
  fun m => naming.fieldStem m.name m.cardinality]

/-- The first member of a list that gets a name of one before it or of one of
    `earlier`: the one before, the member, the name. -/
def collision? (naming : Naming) (earlier : List Member) :
    List Member → Option (Member × Member × String)
  | [] => none
  | m :: r =>
    ((derivedNames naming).findSome? fun derive =>
      (earlier.find? (derive · == derive m)).map (·, m, derive m)) <|>
    collision? naming (earlier ++ [m]) r

/-- The members of each entity get different names. -/
def checkNames (naming : Naming) : Except SchemaError Unit :=
  s.entities.forM fun e =>
    match collision? naming [] (s.membersDerivedFirst e) with
    | some (first, second, derived) =>
      throw (.namingCollision e.name first.name second.name derived)
    | none => pure ()

/-- The schema is sound. -/
def check (naming : Naming) : Except SchemaError Unit := do
  s.checkContents
  s.checkGroupRefs
  s.checkGroupCycles
  s.checkNames naming

end ObjectModel.RawSchema
