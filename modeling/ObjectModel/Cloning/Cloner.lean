import ObjectModel.Cloning.Bindings
import ObjectModel.Graph.Access

/-!
# Cloning objects

A clone of an object is a new object in the same graph, with the same scalars.
What becomes of the references is for the policy to say: their objects are
cloned too, shared, or replaced by what is bound to a name. Some entities are
cloned in a way of their own, and some are not cloned again if a clone is bound
to their name.

No object is cloned twice: what it became is remembered (`Cloner.memo`), before
its references are looked at, so that sharing and cycles are kept. The values
and children of a clone are written last.

* `Graph.cloneTree`: clones an object and what hangs on it.
* `Cloner.cloneObject`: the same, with what was cloned before remembered.
-/

namespace ObjectModel

/-- The state of cloning. -/
structure Cloner (σ : Type) where
  graph : Graph
  bindings : σ
  /-- What became of the objects that were cloned, the last first. -/
  memo : List (Ref × Ref) := []

/-- A part of cloning, which may fail half-way. -/
abbrev Cloning (σ : Type) := ExceptT GraphError (StateM (Cloner σ))

variable {σ : Type}

/-- What became of an object, if it was cloned. -/
def Cloner.cloned? (c : Cloner σ) (r : Ref) : Option Ref := c.memo.lookup r

namespace Cloning

/-- Reads from the graph. -/
def fromGraph {α : Type} (f : Graph → Except GraphError α) : Cloning σ α := fun c =>
  (f c.graph, c)

/-- Changes the graph, unless the change fails. -/
def changeGraph (f : Graph → Except GraphError Graph) : Cloning σ Unit := fun c =>
  match f c.graph with
  | .ok graph => (.ok (), { c with graph })
  | .error e => (.error e, c)

/-- Reads from the bindings. -/
def fromBindings {α : Type} (f : σ → α) : Cloning σ α := fun c => (.ok (f c.bindings), c)

/-- Changes the bindings. -/
def changeBindings (f : σ → σ) : Cloning σ Unit := fun c =>
  (.ok (), { c with bindings := f c.bindings })

/-- Remembers what became of an object. -/
def remember (r clone : Ref) : Cloning σ Unit := fun c =>
  (.ok (), { c with memo := (r, clone) :: c.memo })

/-- Puts other references in the place of those in a value. -/
def mapRefs (f : Ref → Cloning σ Ref) : Value → Cloning σ Value
  | .ref (some r) => return .ref (some (← f r))
  | .refs (some items) => return .refs (some (← items.mapM f))
  | v => return v

/-- A new object for `r`, with its header; it has no children yet. -/
def allocate (r : Ref) (parent : Option Ref) (source : Header) : Cloning σ Ref := do
  let (clone, graph) ← fromGraph (·.createTag r.tag)
  changeGraph fun _ => pure graph
  remember r clone
  changeGraph (·.updateHeader clone fun h => { source with id := h.id, parent, children := [] })
  return clone

/-- A clone that shares all references. -/
def shallow (r : Ref) (parent : Option Ref) : Cloning σ Ref := do
  let source ← fromGraph (·.object r)
  let clone ← allocate r parent source.header
  changeGraph (·.setValues clone source.values)
  return clone

variable [Bindings σ]

/-- What is bound to the key, or `r` itself. -/
def rebind (key : String) (r : Ref) : Cloning σ Ref :=
  fromBindings fun s => (Bindings.bindAny s key).getD r

/-- The net that is bound to the name of `r`. -/
def boundNet? (r : Ref) : Cloning σ (Option Ref) := do
  match ← fromGraph fun g => pure (g.name? r) with
  | some name => if name = "" then return none else fromBindings (Bindings.bindNet · name)
  | none => return none

/-- The text in the first member of that name, unless it is empty. -/
def referrerKey? (members : List Member) (values : List Value) (key : String) : Option String :=
  (members.findIdx? (·.name == key)).bind fun i =>
    match values[i]? with
    | some (.text s) => if s = "" then none else some s
    | _ => none

/-- Clones the references in a member as its policy says. The object that holds
    them has the values `source`, and `deep` clones an object under its clone. -/
def applyPolicy (deep : Ref → Cloning σ Ref) (members : List Member) (source : List Value)
    (policy : MemberClone) (v : Value) : Cloning σ Value := do
  match policy with
  | .deep => mapRefs deep v
  | .alias => return v
  | .uniquify => if ← fromBindings Bindings.uniquifies then mapRefs deep v else return v
  | .rebind key .referrer =>
    match referrerKey? members source key with
    | some name => mapRefs (rebind name) v
    | none => return v
  | .rebind key .target =>
    mapRefs (fun r => do
      match ← fromGraph fun g => pure (g.keyText? r key) with
      | some name => rebind name r
      | none => return r) v

/-- The way in which an object is cloned member by member. -/
structure Method where
  /-- The chain of its entity. -/
  chain : List Entity
  custom : Option CustomClone
  /-- The name of the object, empty if it has none. -/
  name : String

/-- Clones the references in a member. -/
def cloneReferences (deep : Ref → Cloning σ Ref) (policy : PolicyTable) (how : Method)
    (members : List Member) (source : List Value) (m : Member) (v : Value) : Cloning σ Value :=
  let byPolicy := applyPolicy deep members source (policy.memberCloneOf how.chain m) v
  match how.custom with
  | some .call =>
    if policy.skipsTraversal how.chain m then
      mapRefs (fun r => fromBindings fun s => (Bindings.bindTaskFunc s how.name).getD r) v
    else byPolicy
  | some .hierPath => if m.hasTag .backReference then mapRefs (rebind how.name) v else byPolicy
  | some .contAssign =>
    mapRefs (fun r => do
      match ← boundNet? r with
      | some net => return net
      | none => deep r) v
  | _ => byPolicy

/-- An object that is cloned in this way is a scope while its members are cloned. -/
def Method.isScope (how : Method) (policy : PolicyTable) : Bool :=
  how.custom == some .genScopeArray || how.custom == some .hierPath ||
    how.chain.any fun e => !(policy.bucketsOf e.name).isEmpty

/-- The bindings when the members are about to be cloned. A function or task is
    bound before, so that calls in its body find it. -/
def Method.prepare (how : Method) (policy : PolicyTable) (copy : Ref) (s : σ) : σ :=
  let s := if how.custom = some .taskFunc ∧ how.name ≠ "" then
    Bindings.recordTaskFunc s how.name copy else s
  if how.isScope policy then Bindings.enterScope s copy else s

/-- The bindings when members and children are cloned. -/
def Method.conclude (how : Method) (policy : PolicyTable) (copy : Ref) (s : σ) : σ :=
  if how.isScope policy then Bindings.leaveScope s copy else s

/-- Clones an object member by member, and then its children, by `clone`. -/
def generic (clone : Ref → Option Ref → Cloning σ Ref) (chain : List Entity)
    (custom : Option CustomClone) (r : Ref) (parent : Option Ref) : Cloning σ Ref := do
  let source ← fromGraph (·.object r)
  let copy ← allocate r parent source.header
  let policy ← fromGraph fun g => pure g.model.policy
  let name ← fromGraph fun g => pure ((g.name? r).getD "")
  let how : Method := ⟨chain, custom, name⟩
  changeBindings (how.prepare policy copy)
  let members ← fromGraph (·.members r)
  let values ← (members.zip source.values).mapM fun (m, v) =>
    if m.isReference then
      cloneReferences (clone · (some copy)) policy how members source.values m v
    else pure v
  let children ← source.header.children.mapM (clone · (some copy))
  changeBindings (how.conclude policy copy)
  changeGraph (·.updateHeader copy fun h => { h with children })
  changeGraph (·.setValues copy values)
  return copy

/-- What is bound to a name in a table. -/
def bound? (kind : BindingKind) (name : String) (s : σ) : Option Ref :=
  match kind with
  | .net => Bindings.bindNet s name
  | .param => Bindings.bindParam s name

/-- Binds a name in a table. -/
def record (kind : BindingKind) (name : String) (r : Ref) (s : σ) : σ :=
  match kind with
  | .net => Bindings.recordNet s name r
  | .param => Bindings.recordParam s name r

/-- Takes the object that is bound to the name, or clones one and binds it. -/
def dedup (clone : Ref → Option Ref → Cloning σ Ref) (chain : List Entity) (kind : BindingKind)
    (r : Ref) (parent : Option Ref) : Cloning σ Ref := do
  let name ← fromGraph fun g => pure ((g.name? r).getD "")
  if name = "" then
    generic clone chain none r parent
  else match ← fromBindings (bound? kind name) with
    | some existing =>
      remember r existing
      return existing
    | none =>
      let copy ← generic clone chain none r parent
      changeBindings (record kind name copy)
      return copy

/-- Clones an object, what it refers to by `clone`. -/
def cloneWith (clone : Ref → Option Ref → Cloning σ Ref) (r : Ref) (parent : Option Ref) :
    Cloning σ Ref := do
  match (← getThe (Cloner σ)).cloned? r with
  | some copy => return copy
  | none =>
    let e ← fromGraph (·.entity r)
    let chain ← fromGraph fun g => pure (g.schema.chain e)
    let kind ← fromGraph fun g => pure (g.model.policy.entityCloneOf chain)
    match kind with
    | .generic => generic clone chain none r parent
    | .dedupByName kind => dedup clone chain kind r parent
    | .custom .constant => shallow r parent
    | .custom custom => generic clone chain (some custom) r parent

/-- Clones an object on a path of at most `n` objects. -/
def cloneUpTo : Nat → Ref → Option Ref → Cloning σ Ref
  | 0, _, _ => throw .depthExceeded
  | n + 1, r, parent => cloneWith (cloneUpTo n) r parent

end Cloning

/-- No path of cloning is longer. Each object is cloned once, and a clone can be
    cloned in turn only if a list of children names it before it is made. -/
def Graph.cloneDepth (g : Graph) : Nat :=
  (g.size + 1) * ((g.stores.flatten.flatMap fun o => o.header.children).length + 2)

variable [Bindings σ]

/-- Clones an object and all that is to be cloned with it, and places the clone
    under `parent`. -/
def Cloner.cloneObject (c : Cloner σ) (r : Ref) (parent : Option Ref) :
    Except GraphError Ref × Cloner σ :=
  (Cloning.cloneUpTo c.graph.cloneDepth r parent).run c

/-- Clones an object with nothing cloned before. The graph and the bindings are
    told in either case. -/
def Graph.cloneTree (g : Graph) (s : σ) (r : Ref) (parent : Option Ref) :
    Except GraphError Ref × Cloner σ :=
  Cloner.cloneObject ⟨g, s, []⟩ r parent

end ObjectModel
