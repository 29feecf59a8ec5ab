import ObjectModel.Cloning.Cloner
import ObjectModel.Proofs.Outcome

/-!
# Forgetful settings

A setting may keep more than cloning asks for, so that it can be told afterwards what
has happened. If it is another setting once this is forgotten (`Bindings.Forgetful`),
cloning is the same in both, apart from what is kept (`Cloning.forgets_cloneUpTo`). Each
part of cloning is shown to be (`Cloning.Forgets`).
-/

namespace ObjectModel

variable {σ τ : Type}

/-- What a setting is when something is forgotten of it. -/
structure Bindings.Forgetful [Bindings σ] [Bindings τ] (f : σ → τ) : Prop where
  bindAny : ∀ s name, Bindings.bindAny (f s) name = Bindings.bindAny s name
  bindNet : ∀ s name, Bindings.bindNet (f s) name = Bindings.bindNet s name
  bindParam : ∀ s name, Bindings.bindParam (f s) name = Bindings.bindParam s name
  bindTaskFunc : ∀ s name, Bindings.bindTaskFunc (f s) name = Bindings.bindTaskFunc s name
  recordNet : ∀ s name r, f (Bindings.recordNet s name r) = Bindings.recordNet (f s) name r
  recordParam : ∀ s name r, f (Bindings.recordParam s name r) = Bindings.recordParam (f s) name r
  recordTaskFunc : ∀ s name r,
    f (Bindings.recordTaskFunc s name r) = Bindings.recordTaskFunc (f s) name r
  enterScope : ∀ s scope, f (Bindings.enterScope s scope) = Bindings.enterScope (f s) scope
  leaveScope : ∀ s scope, f (Bindings.leaveScope s scope) = Bindings.leaveScope (f s) scope
  uniquifies : ∀ s, Bindings.uniquifies (f s) = Bindings.uniquifies s

/-- The state of cloning in another setting. -/
def Cloner.mapBindings (f : σ → τ) (c : Cloner σ) : Cloner τ := ⟨c.graph, f c.bindings, c.memo⟩

namespace Cloning

/-- `x` does what `y` does, apart from what `f` forgets. -/
def Forgets {α : Type} (f : σ → τ) (x : Cloning σ α) (y : Cloning τ α) : Prop :=
  ∀ c, y.run (c.mapBindings f) = ((x.run c).1, (x.run c).2.mapBindings f)

variable {f : σ → τ}

section

variable {α β : Type} {x : Cloning σ α} {y : Cloning τ α}

theorem Forgets.pure (a : α) : Forgets f (pure a) (pure a) := fun _ => rfl

/-- Two parts are the same in both settings if each of them is. The second goes on
    from states that differ only in what is kept. -/
theorem Forgets.bind {k : α → Cloning σ β} {l : α → Cloning τ β} (h : Forgets f x y)
    (hk : ∀ a, Forgets f (k a) (l a)) : Forgets f (x >>= k) (y >>= l) := by
  intro c
  rw [run_bind_eq, run_bind_eq, h c]
  dsimp only
  cases (x.run c).1 with
  | error e => rfl
  | ok a => exact hk a _

/-- What changes nothing but what is forgotten may be done besides. -/
theorem Forgets.besides {z : Cloning σ β} {k : β → Cloning σ α}
    (hz : ∀ c, ∃ b c', z.run c = (.ok b, c') ∧ c'.mapBindings f = c.mapBindings f)
    (hk : ∀ b, Forgets f (k b) y) : Forgets f (z >>= k) y := by
  intro c
  obtain ⟨b, c', hrun, hforget⟩ := hz c
  rw [run_bind_ok hrun, ← hforget]
  exact hk b c'

/-- The parts for the elements of a list are the
    same in both settings if each of them is. -/
theorem Forgets.mapM {g : α → Cloning σ β} {g' : α → Cloning τ β} (l : List α)
    (hg : ∀ a, Forgets f (g a) (g' a)) : Forgets f (l.mapM g) (l.mapM g') := by
  induction l with
  | nil =>
    rw [List.mapM_nil, List.mapM_nil]
    exact .pure []
  | cons a l ih =>
    rw [List.mapM_cons, List.mapM_cons]
    exact (hg a).bind fun b => ih.bind fun bs => .pure (b :: bs)

/-- Reading the graph is the same in every setting. -/
theorem forgets_fromGraph (g : Graph → Except GraphError α) :
    Forgets f (fromGraph g) (fromGraph g) := fun _ => rfl

/-- Changing the graph is the same in every setting, even if it fails. -/
theorem forgets_changeGraph (g : Graph → Except GraphError Graph) :
    Forgets f (changeGraph g) (changeGraph g) := by
  intro c
  have hgraph : (c.mapBindings f).graph = c.graph := rfl
  simp only [changeGraph, ExceptT.run, hgraph]
  cases g c.graph <;> rfl

/-- What a setting is asked for must not depend on what is forgotten. -/
theorem forgets_fromBindings {g : σ → α} {g' : τ → α} (hg : ∀ s, g' (f s) = g s) :
    Forgets f (fromBindings g) (fromBindings g') := fun c =>
  congrArg (Except.ok ·, c.mapBindings f) (hg c.bindings)

/-- A change to the setting must be one to what is left when the rest is forgotten. -/
theorem forgets_changeBindings {g : σ → σ} {g' : τ → τ} (hg : ∀ s, f (g s) = g' (f s)) :
    Forgets f (changeBindings g) (changeBindings g') := fun c =>
  congrArg (fun b => (Except.ok (), (⟨c.graph, b, c.memo⟩ : Cloner τ))) (hg c.bindings).symm

theorem forgets_remember (r s : Ref) : Forgets f (remember r s) (remember r s) := fun _ => rfl

theorem Forgets.mapRefs {g : Ref → Cloning σ Ref} {g' : Ref → Cloning τ Ref}
    (hg : ∀ r, Forgets f (g r) (g' r)) (v : Value) :
    Forgets f (Cloning.mapRefs g v) (Cloning.mapRefs g' v) := by
  unfold Cloning.mapRefs
  split
  · exact (hg _).bind fun _ => .pure _
  · exact (Forgets.mapM _ hg).bind fun _ => .pure _
  · exact .pure _

/-- A clone is made and remembered without a look at the setting. -/
theorem forgets_allocate (r : Ref) (p : Option Ref) (source : Header) :
    Forgets f (allocate r p source) (allocate r p source) := by
  refine (forgets_fromGraph _).bind fun made => ?_
  refine (forgets_changeGraph _).bind fun _ => ?_
  refine (forgets_remember _ _).bind fun _ => ?_
  exact (forgets_changeGraph _).bind fun _ => .pure _

theorem forgets_shallow (r : Ref) (p : Option Ref) : Forgets f (shallow r p) (shallow r p) := by
  refine (forgets_fromGraph _).bind fun source => ?_
  refine (forgets_allocate _ _ _).bind fun copy => ?_
  exact (forgets_changeGraph _).bind fun _ => .pure _

end

variable [Bindings σ] [Bindings τ] (hf : Bindings.Forgetful f)

include hf

/-- What is bound under a key is the same in both settings. -/
theorem forgets_rebind (key : String) (r : Ref) : Forgets f (rebind key r) (rebind key r) :=
  forgets_fromBindings fun s => by rw [hf.bindAny]

theorem forgets_boundNet? (r : Ref) : Forgets f (boundNet? r) (boundNet? r) := by
  refine (forgets_fromGraph _).bind fun name => ?_
  split
  · split
    · exact .pure none
    · exact forgets_fromBindings fun s => hf.bindNet s _
  · exact .pure none

section

variable {deep : Ref → Cloning σ Ref} {deep' : Ref → Cloning τ Ref}
  (hdeep : ∀ r, Forgets f (deep r) (deep' r))

include hdeep

/-- A policy for references asks for what is bound under a key, at most. -/
theorem Forgets.applyPolicy (members : List Member) (source : List Value) (policy : MemberClone)
    (v : Value) :
    Forgets f (Cloning.applyPolicy deep members source policy v)
      (Cloning.applyPolicy deep' members source policy v) := by
  unfold Cloning.applyPolicy
  split
  · exact .mapRefs hdeep v
  · exact .pure v
  · refine (forgets_fromBindings hf.uniquifies).bind fun unique => ?_
    split
    · exact .mapRefs hdeep v
    · exact .pure v
  · split
    · exact .mapRefs (forgets_rebind hf _) v
    · exact .pure v
  · refine .mapRefs (fun r => (forgets_fromGraph _).bind fun name => ?_) v
    split
    · exact forgets_rebind hf _ _
    · exact .pure r

/-- References are replaced by the same ones in both settings. -/
theorem Forgets.cloneReferences (policy : PolicyTable) (how : Method) (members : List Member)
    (source : List Value) (m : Member) (v : Value) :
    Forgets f (Cloning.cloneReferences deep policy how members source m v)
      (Cloning.cloneReferences deep' policy how members source m v) := by
  have hpolicy := Forgets.applyPolicy hf hdeep members source (policy.memberCloneOf how.chain m) v
  unfold Cloning.cloneReferences
  split
  · split
    · exact .mapRefs (fun r => forgets_fromBindings fun s => by rw [hf.bindTaskFunc]) v
    · exact hpolicy
  · split
    · exact .mapRefs (forgets_rebind hf _) v
    · exact hpolicy
  · refine .mapRefs (fun r => (forgets_boundNet? hf r).bind fun net => ?_) v
    split
    · exact .pure _
    · exact hdeep r
  · exact hpolicy

end

/-- A scope is entered in both settings. -/
theorem prepare_forgetful (how : Method) (policy : PolicyTable) (copy : Ref) (s : σ) :
    f (how.prepare policy copy s) = how.prepare policy copy (f s) := by
  have hbound : f (if how.custom = some .taskFunc ∧ how.name ≠ "" then
      Bindings.recordTaskFunc s how.name copy else s) =
      if how.custom = some .taskFunc ∧ how.name ≠ "" then
        Bindings.recordTaskFunc (f s) how.name copy else f s := by
    split
    · exact hf.recordTaskFunc s how.name copy
    · rfl
  unfold Method.prepare
  dsimp only
  split
  · rw [hf.enterScope, hbound]
  · exact hbound

theorem conclude_forgetful (how : Method) (policy : PolicyTable) (copy : Ref) (s : σ) :
    f (how.conclude policy copy s) = how.conclude policy copy (f s) := by
  unfold Method.conclude
  split
  · exact hf.leaveScope s copy
  · rfl

/-- Names of each kind are looked for in the same way in both settings. -/
theorem bound?_forgetful (kind : BindingKind) (name : String) (s : σ) :
    bound? kind name (f s) = bound? kind name s := by
  cases kind with
  | net => exact hf.bindNet s name
  | param => exact hf.bindParam s name

/-- Names of each kind are bound in the same way in both settings. -/
theorem record_forgetful (kind : BindingKind) (name : String) (r : Ref) (s : σ) :
    f (record kind name r s) = record kind name r (f s) := by
  cases kind with
  | net => exact hf.recordNet s name r
  | param => exact hf.recordParam s name r

section

variable {clone : Ref → Option Ref → Cloning σ Ref} {clone' : Ref → Option Ref → Cloning τ Ref}
  (hclone : ∀ r p, Forgets f (clone r p) (clone' r p))

include hclone

/-- An object is cloned member by member: its scope is entered,
    its members and children are cloned, and the scope is left,
    all of which is the same in both settings. -/
theorem Forgets.generic (chain : List Entity) (custom : Option CustomClone) (r : Ref)
    (p : Option Ref) : Forgets f (Cloning.generic clone chain custom r p)
      (Cloning.generic clone' chain custom r p) := by
  refine (forgets_fromGraph _).bind fun source => ?_
  refine (forgets_allocate _ _ _).bind fun copy => ?_
  refine (forgets_fromGraph _).bind fun policy => ?_
  refine (forgets_fromGraph _).bind fun name => ?_
  -- Each step reads or writes the graph, which is the
  -- same, or changes the bindings in a way that `f` keeps.
  refine (forgets_changeBindings (prepare_forgetful hf _ _ _)).bind fun _ => ?_
  refine (forgets_fromGraph _).bind fun members => ?_
  refine (Forgets.mapM _ ?_).bind fun values => ?_
  · rintro ⟨m, v⟩
    dsimp only
    split
    · exact .cloneReferences hf (fun r => hclone r _) _ _ _ _ _ _
    · exact .pure v
  refine (Forgets.mapM _ fun r => hclone r _).bind fun children => ?_
  refine (forgets_changeBindings (conclude_forgetful hf _ _ _)).bind fun _ => ?_
  refine (forgets_changeGraph _).bind fun _ => ?_
  exact (forgets_changeGraph _).bind fun _ => .pure copy

/-- An object that is found by name is found in both
    settings, or is cloned and bound in both. -/
theorem Forgets.dedup (chain : List Entity) (kind : BindingKind) (r : Ref) (p : Option Ref) :
    Forgets f (Cloning.dedup clone chain kind r p) (Cloning.dedup clone' chain kind r p) := by
  refine (forgets_fromGraph _).bind fun name => ?_
  split
  · exact .generic hf hclone _ _ _ _
  · refine (forgets_fromBindings (bound?_forgetful hf kind name)).bind fun existing => ?_
    split
    · exact (forgets_remember _ _).bind fun _ => .pure _
    · refine (Forgets.generic hf hclone _ _ _ _).bind fun copy => ?_
      exact (forgets_changeBindings (record_forgetful hf kind name copy)).bind fun _ => .pure copy

/-- Which way an object is cloned is for the policy to
    say, so it is the same way in both settings. -/
theorem Forgets.cloneWith (r : Ref) (p : Option Ref) :
    Forgets f (Cloning.cloneWith clone r p) (Cloning.cloneWith clone' r p) := by
  intro c
  have hget : (getThe (Cloner σ) : Cloning σ _).run c = (.ok c, c) := rfl
  have hget' : (getThe (Cloner τ) : Cloning τ _).run (c.mapBindings f) =
    (.ok (c.mapBindings f), c.mapBindings f) := rfl
  have hcloned : (c.mapBindings f).cloned? r = c.cloned? r := rfl
  rw [Cloning.cloneWith, Cloning.cloneWith, run_bind_ok hget, run_bind_ok hget', hcloned]
  cases c.cloned? r with
  | some copy => rfl
  | none =>
    refine Forgets.bind (forgets_fromGraph _) (fun e => ?_) c
    refine (forgets_fromGraph _).bind fun chain => ?_
    refine (forgets_fromGraph _).bind fun kind => ?_
    split
    · exact .generic hf hclone _ _ _ _
    · exact .dedup hf hclone _ _ _ _
    · exact forgets_shallow _ _
    · exact .generic hf hclone _ _ _ _

end

/-- Cloning is the same in both settings to whatever depth. -/
theorem forgets_cloneUpTo (n : Nat) (r : Ref) (p : Option Ref) :
    Forgets f (cloneUpTo n r p) (cloneUpTo n r p) := by
  induction n generalizing r p with
  | zero => exact fun _ => rfl
  | succ n ih => exact .cloneWith hf ih r p

end Cloning

/-- Cloning is the same in a setting of which something is forgotten. -/
theorem Cloner.cloneObject_mapBindings [Bindings σ] [Bindings τ] {f : σ → τ}
    (hf : Bindings.Forgetful f) (c : Cloner σ) (r : Ref) (parent : Option Ref) :
    (c.mapBindings f).cloneObject r parent =
      ((c.cloneObject r parent).1, (c.cloneObject r parent).2.mapBindings f) :=
  Cloning.forgets_cloneUpTo hf c.graph.cloneDepth r parent c

end ObjectModel
