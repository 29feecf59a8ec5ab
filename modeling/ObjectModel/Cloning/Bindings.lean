import ObjectModel.Reference
import ObjectModel.SortedMap

/-!
# Bindings

Cloning looks up objects by name and records what it has made. What there is
to find depends on the setting (`Bindings`). In the simplest one nothing is
ever bound (`NoBindings`). While a design is elaborated, names are bound in
scopes (`Elaboration`): each scope that is entered has tables of its own, which
go when it is left, and a name means what the innermost scope says that binds
it.
-/

namespace ObjectModel

/-- A setting in which objects are bound to names. -/
class Bindings (σ : Type) where
  /-- What is bound to a name, of whatever sort. -/
  bindAny : σ → String → Option Ref
  bindNet : σ → String → Option Ref
  bindParam : σ → String → Option Ref
  bindTaskFunc : σ → String → Option Ref
  recordNet : σ → String → Ref → σ
  recordParam : σ → String → Ref → σ
  recordTaskFunc : σ → String → Ref → σ
  enterScope : σ → Ref → σ
  leaveScope : σ → Ref → σ
  /-- Type specifications are cloned and not shared. -/
  uniquifies : σ → Bool

/-- Nothing is bound. -/
inductive NoBindings
  | none
deriving DecidableEq, Repr, Inhabited

instance : Bindings NoBindings where
  bindAny _ _ := none
  bindNet _ _ := none
  bindParam _ _ := none
  bindTaskFunc _ _ := none
  recordNet s _ _ := s
  recordParam s _ _ := s
  recordTaskFunc s _ _ := s
  enterScope s _ := s
  leaveScope s _ := s
  uniquifies _ := false

/-- Objects by name. -/
abbrev NameTable := SortedMap String Ref

/-- What is bound in one scope. -/
structure Frame where
  nets : NameTable := ∅
  params : NameTable := ∅
  taskFuncs : NameTable := ∅
deriving DecidableEq

/-- The bindings while a design is elaborated. -/
structure Elaboration where
  /-- Type specifications are cloned and not shared. -/
  uniquify : Bool := false
  /-- What is bound from outside, whatever the scope. -/
  explicit : NameTable := ∅
  /-- The scopes that are entered, the innermost first. -/
  scopes : List (Ref × Frame) := []
  /-- What is bound outside all scopes. -/
  root : Frame := {}
deriving DecidableEq

namespace Elaboration

variable (e : Elaboration)

/-- Binds a name from outside. -/
def bind (name : String) (r : Ref) : Elaboration :=
  { e with explicit := e.explicit.insert name r }

/-- The innermost scope. -/
def currentScope : Option Ref := e.scopes.head?.map (·.1)

/-- The number of scopes. -/
def depth : Nat := e.scopes.length

/-- The tables, the innermost first. -/
def frames : List Frame := e.scopes.map (·.2) ++ [e.root]

/-- What the innermost scope says that binds the name in a table. -/
def lookup (table : Frame → NameTable) (name : String) : Option Ref :=
  e.frames.findSome? fun f => (table f).get? name

/-- Changes the innermost tables. -/
def record (f : Frame → Frame) : Elaboration :=
  match e.scopes with
  | (scope, frame) :: rest => { e with scopes := (scope, f frame) :: rest }
  | [] => { e with root := f e.root }

/-- Enters a scope. -/
def enter (scope : Ref) : Elaboration := { e with scopes := (scope, {}) :: e.scopes }

/-- Leaves a scope, if it is the innermost. -/
def leave (scope : Ref) : Elaboration :=
  match e.scopes with
  | (s, _) :: rest => if s = scope then { e with scopes := rest } else e
  | [] => e

instance : Bindings Elaboration where
  bindAny e name :=
    e.explicit.get? name <|> e.lookup Frame.nets name <|> e.lookup Frame.params name <|>
      e.lookup Frame.taskFuncs name
  bindNet e := e.lookup Frame.nets
  bindParam e := e.lookup Frame.params
  bindTaskFunc e := e.lookup Frame.taskFuncs
  recordNet e name r := e.record fun f => { f with nets := f.nets.insert name r }
  recordParam e name r := e.record fun f => { f with params := f.params.insert name r }
  recordTaskFunc e name r := e.record fun f => { f with taskFuncs := f.taskFuncs.insert name r }
  enterScope := enter
  leaveScope := leave
  uniquifies := uniquify

end Elaboration

end ObjectModel
