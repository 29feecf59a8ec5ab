import ObjectModel.Proofs.Cloning.Forgetting
import ObjectModel.Proofs.Cloning.Replacing

/-!
# Watching nets being cloned

Which nets are cloned while a design is elaborated, and in which scopes they are
reached, is gone when cloning is done. So cloning is watched: the bindings are
those of an elaboration, with a list of the nets that were cloned
(`Watched`). This makes no difference to what is cloned
(`Cloner.cloneObject_eq_watchObject`).
-/

namespace ObjectModel

/-- A net that was cloned, or taken for a clone that there was. -/
structure Visit where
  net : Ref
  name : String
  /-- The scopes that were entered when it was reached, the innermost first. -/
  scopes : List Ref
  /-- The names of the nets that were about to be cloned when it was reached. -/
  within : List String
deriving DecidableEq

/-- An elaboration that is watched. -/
structure Watched where
  elaboration : Elaboration
  /-- The names of the nets that are about to be cloned, the last first. -/
  pending : List String := []
  /-- The nets that were cloned, in the order in which this was finished. -/
  visits : List Visit := []

namespace Watched

/-- The scopes that are entered, the innermost first. -/
def scopes (s : Watched) : List Ref := s.elaboration.scopes.map Prod.fst

/-- The visit of a net that is reached. -/
def visit (s : Watched) (r : Ref) (name : String) : Visit := ⟨r, name, s.scopes, s.pending⟩

/-- A net of that name is about to be cloned. -/
def begin (s : Watched) (name : String) : Watched := { s with pending := name :: s.pending }

/-- The net that was about to be cloned has been. -/
def finish (s : Watched) (v : Visit) : Watched :=
  { s with pending := s.pending.tail, visits := s.visits ++ [v] }

instance : Bindings Watched where
  bindAny s := Bindings.bindAny s.elaboration
  bindNet s := Bindings.bindNet s.elaboration
  bindParam s := Bindings.bindParam s.elaboration
  bindTaskFunc s := Bindings.bindTaskFunc s.elaboration
  recordNet s name r := { s with elaboration := Bindings.recordNet s.elaboration name r }
  recordParam s name r := { s with elaboration := Bindings.recordParam s.elaboration name r }
  recordTaskFunc s name r :=
    { s with elaboration := Bindings.recordTaskFunc s.elaboration name r }
  enterScope s r := { s with elaboration := Bindings.enterScope s.elaboration r }
  leaveScope s r := { s with elaboration := Bindings.leaveScope s.elaboration r }
  uniquifies s := Bindings.uniquifies s.elaboration

end Watched

/-- Objects of the tag are found by name among the nets. -/
def Model.IsNet (m : Model) (tag : Nat) : Prop := m.cloneKind tag = .dedupByName .net

instance (m : Model) (tag : Nat) : Decidable (m.IsNet tag) :=
  inferInstanceAs (Decidable (_ = _))

/-- The name of a net that is looked for when it is to be cloned. -/
def Cloner.netName? {σ : Type} (c : Cloner σ) (r : Ref) : Option String :=
  if c.cloned? r = none ∧ c.graph.model.IsNet r.tag then (c.graph.name? r).filter (· ≠ "")
  else none

/-- A net is watched if it has a name and has not been cloned yet. -/
theorem Cloner.netName?_eq_some {σ : Type} {c : Cloner σ} {r : Ref} {name : String} :
    c.netName? r = some name ↔ c.cloned? r = none ∧ c.graph.model.IsNet r.tag ∧
      c.graph.name? r = some name ∧ name ≠ "" := by
  rw [Cloner.netName?]
  split
  · rename_i h
    rw [Option.filter_eq_some_iff, decide_eq_true_iff]
    exact ⟨fun hname => ⟨h.1, h.2, hname⟩, fun ⟨_, _, hname⟩ => hname⟩
  · rename_i h
    exact ⟨nofun, fun ⟨hnew, hnet, _⟩ => absurd ⟨hnew, hnet⟩ h⟩

namespace Cloning

/-- Clones an object, and tells if it is a net that is looked for. -/
def watch (clone : Ref → Option Ref → Cloning Watched Ref) (r : Ref) (parent : Option Ref) :
    Cloning Watched Ref := do
  match (← getThe (Cloner Watched)).netName? r with
  | none => cloneWith clone r parent
  | some name =>
    let visit ← fromBindings (·.visit r name)
    changeBindings (·.begin name)
    let copy ← cloneWith clone r parent
    changeBindings (·.finish visit)
    return copy

/-- Clones an object on a path of at most `n` objects, and tells of the nets. -/
def watchUpTo : Nat → Ref → Option Ref → Cloning Watched Ref
  | 0, _, _ => throw .depthExceeded
  | n + 1, r, parent => watch (watchUpTo n) r parent

end Cloning

namespace Cloner

/-- Cloning an object while it is watched. -/
def watchObject (c : Cloner Elaboration) (r : Ref) (parent : Option Ref) :
    Except GraphError Ref × Cloner Watched :=
  (Cloning.watchUpTo c.graph.cloneDepth r parent).run
    ⟨c.graph, { elaboration := c.bindings }, c.memo⟩

/-- The nets that are cloned along with an object, in the order in which this is
    finished. -/
def visits (c : Cloner Elaboration) (r : Ref) (parent : Option Ref) : List Visit :=
  (c.watchObject r parent).2.bindings.visits

/-- The state of cloning without what was told of it. -/
def forget (c : Cloner Watched) : Cloner Elaboration := ⟨c.graph, c.bindings.elaboration, c.memo⟩

end Cloner

/-! ## Forgetting what was watched -/

/-- Watching changes nothing of the elaboration that is watched. -/
theorem Watched.forgetful : Bindings.Forgetful elaboration where
  bindAny _ _ := rfl
  bindNet _ _ := rfl
  bindParam _ _ := rfl
  bindTaskFunc _ _ := rfl
  recordNet _ _ _ := rfl
  recordParam _ _ _ := rfl
  recordTaskFunc _ _ _ := rfl
  enterScope _ _ := rfl
  leaveScope _ _ := rfl
  uniquifies _ := rfl

namespace Cloning

theorem prepare_elaboration (how : Method) (policy : PolicyTable) (copy : Ref) (s : Watched) :
    how.prepare policy copy s =
      { s with elaboration := how.prepare policy copy s.elaboration } := by
  unfold Method.prepare
  split <;> split <;> rfl

theorem conclude_elaboration (how : Method) (policy : PolicyTable) (copy : Ref) (s : Watched) :
    how.conclude policy copy s =
      { s with elaboration := how.conclude policy copy s.elaboration } := by
  unfold Method.conclude
  split <;> rfl

/-- An object that is watched is cloned like any other. -/
theorem Forgets.watch {clone : Ref → Option Ref → Cloning Watched Ref}
    {clone' : Ref → Option Ref → Cloning Elaboration Ref}
    (hclone : ∀ r p, Forgets Watched.elaboration (clone r p) (clone' r p)) (r : Ref)
    (p : Option Ref) :
    Forgets Watched.elaboration (Cloning.watch clone r p) (Cloning.cloneWith clone' r p) := by
  have hwith := Forgets.cloneWith Watched.forgetful hclone r p
  intro c
  have hget : (getThe (Cloner Watched) : Cloning Watched _).run c = (.ok c, c) := rfl
  rw [Cloning.watch, run_bind_ok hget]
  cases c.netName? r with
  | none => exact hwith c
  | some name =>
    -- What is told does not show.
    refine Forgets.besides (fun c => ⟨_, c, rfl, rfl⟩) (fun visit => ?_) c
    refine Forgets.besides (fun c => ⟨(), { c with bindings := c.bindings.begin name }, rfl, rfl⟩)
      fun _ => ?_
    rw [← bind_pure (Cloning.cloneWith clone' r p)]
    refine hwith.bind fun copy => ?_
    exact .besides (fun c => ⟨(), { c with bindings := c.bindings.finish visit }, rfl, rfl⟩)
      fun _ => .pure copy

/-- Cloning is the same to whatever depth, watched or not. -/
theorem forgets_watchUpTo (n : Nat) (r : Ref) (p : Option Ref) :
    Forgets Watched.elaboration (watchUpTo n r p) (cloneUpTo n r p) := by
  induction n generalizing r p with
  | zero => exact fun _ => rfl
  | succ n ih => exact .watch ih r p

end Cloning

/-- Watching makes no difference to what is cloned. -/
theorem Cloner.cloneObject_eq_watchObject (c : Cloner Elaboration) (r : Ref) (parent : Option Ref) :
    c.cloneObject r parent = ((c.watchObject r parent).1, (c.watchObject r parent).2.forget) :=
  Cloning.forgets_watchUpTo c.graph.cloneDepth r parent
    ⟨c.graph, { elaboration := c.bindings }, c.memo⟩

end ObjectModel
