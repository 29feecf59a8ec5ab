import ObjectModel.Proofs.Cloning.Copying
import ObjectModel.Proofs.Cloning.Replacing
import ObjectModel.Proofs.Cloning.Scopes

/-!
# Bindings that cloning records

While a design is elaborated, cloning binds names to clones, in tables for
clones of certain sorts. So whatever a table binds is an object that is cloned
in the way that the table is for (`Elaboration.Recorded`), unless someone else
has bound it. What is remembered is of the same kind (`Cloner.Recorded`).
-/

namespace ObjectModel

/-- `r` is an object that is cloned in this way. -/
def Graph.IsCloned (g : Graph) (kind : EntityClone) (r : Ref) : Prop :=
  g.contains r = true ∧ g.model.cloneKind r.tag = kind

/-- The tables of the frame hold clones of the sorts that they are for. -/
structure Frame.Recorded (g : Graph) (f : Frame) : Prop where
  nets : ∀ name r, f.nets.get? name = some r → g.IsCloned (.dedupByName .net) r
  params : ∀ name r, f.params.get? name = some r → g.IsCloned (.dedupByName .param) r
  taskFuncs : ∀ name r, f.taskFuncs.get? name = some r → g.IsCloned (.custom .taskFunc) r

/-- All that is bound was recorded by cloning. -/
structure Elaboration.Recorded (g : Graph) (e : Elaboration) : Prop where
  explicit : e.explicit = ∅
  frames : ∀ f ∈ e.frames, f.Recorded g

/-- All that is bound, and all that is remembered, was recorded by cloning. -/
structure Cloner.Recorded (c : Cloner Elaboration) : Prop where
  bindings : c.bindings.Recorded c.graph
  memo : ∀ r s, c.cloned? r = some s → c.graph.contains s = true ∧
    (s.tag = r.tag ∨ c.graph.model.merges r.tag s.tag = true)

/-- The objects of `g` are in `h` too, though they may have changed. -/
structure Graph.RemainsIn (g h : Graph) : Prop where
  model : h.model = g.model
  contains : ∀ r, g.contains r = true → h.contains r = true

section

variable {g h k : Graph} {kind : EntityClone} {r s : Ref} {f : Frame} {e : Elaboration}
  {name : String}

theorem Graph.RemainsIn.refl (g : Graph) : g.RemainsIn g := ⟨rfl, fun _ hr => hr⟩

theorem Graph.RemainsIn.trans (hgh : g.RemainsIn h) (hhk : h.RemainsIn k) : g.RemainsIn k :=
  ⟨hhk.model.trans hgh.model, fun r hr => hhk.contains r (hgh.contains r hr)⟩

theorem Graph.IsCloned.remains (hr : g.IsCloned kind r) (hgh : g.RemainsIn h) : h.IsCloned kind r :=
  ⟨hgh.contains r hr.1, hgh.model ▸ hr.2⟩

theorem Frame.Recorded.empty (g : Graph) : Frame.Recorded g {} :=
  ⟨fun _ _ h => (by cases h), fun _ _ h => (by cases h), fun _ _ h => (by cases h)⟩

theorem Frame.Recorded.remains (hf : f.Recorded g) (hgh : g.RemainsIn h) : f.Recorded h :=
  ⟨fun name r hr => (hf.nets name r hr).remains hgh,
    fun name r hr => (hf.params name r hr).remains hgh,
    fun name r hr => (hf.taskFuncs name r hr).remains hgh⟩

namespace Elaboration

/-- In the beginning nothing is bound. -/
theorem recorded_fresh (g : Graph) (uniquify : Bool) : Recorded g { uniquify } where
  explicit := rfl
  frames f hf := by
    rw [List.mem_singleton.1 hf]
    exact .empty g

theorem Recorded.remains (he : e.Recorded g) (hgh : g.RemainsIn h) : e.Recorded h :=
  ⟨he.explicit, fun f hf => (he.frames f hf).remains hgh⟩

/-- A scope that is entered binds nothing yet. -/
theorem Recorded.enter (he : e.Recorded g) (scope : Ref) : (e.enter scope).Recorded g where
  explicit := he.explicit
  frames := by
    rw [frames_enter]
    exact List.forall_mem_cons.2 ⟨.empty g, he.frames⟩

/-- What the other scopes bind stays when one is left. -/
theorem Recorded.leave (he : e.Recorded g) (scope : Ref) : (e.leave scope).Recorded g where
  explicit := by
    rw [Elaboration.leave]
    split
    · split <;> exact he.explicit
    · exact he.explicit
  frames f hf := he.frames f ((frames_leave scope).mem hf)

/-- Only the innermost frame changes when a name is bound. -/
theorem Recorded.record {w : Frame → Frame} (he : e.Recorded g)
    (hw : ∀ f, f.Recorded g → (w f).Recorded g) : (e.record w).Recorded g where
  explicit := by
    rw [Elaboration.record]
    split <;> exact he.explicit
  frames := by
    have hframes := he.frames
    rw [frames_record]
    generalize e.frames = frames at hframes ⊢
    rcases frames with _ | ⟨f, rest⟩
    · exact hframes
    · rw [List.forall_mem_cons] at hframes
      exact List.forall_mem_cons.2 ⟨hw f hframes.1, hframes.2⟩

theorem recorded_insert {P : Ref → Prop} {m : NameTable} (hm : ∀ name r, m.get? name = some r → P r)
    (hs : P s) (name' : String) (r' : Ref) (h : (m.insert name s).get? name' = some r') : P r' := by
  rw [SortedMap.get?_insert] at h
  split at h
  · exact Option.some.inj h ▸ hs
  · exact hm name' r' h

/-- A clone is bound in the table that is for clones of its sort. -/
theorem Recorded.recordNamed {kind : BindingKind} (he : e.Recorded g) (name : String)
    (hs : g.IsCloned (.dedupByName kind) s) :
    (Cloning.record kind name s e).Recorded g := by
  cases kind with
  | net => exact he.record fun f hf => ⟨recorded_insert hf.nets hs, hf.params, hf.taskFuncs⟩
  | param => exact he.record fun f hf => ⟨hf.nets, recorded_insert hf.params hs, hf.taskFuncs⟩

theorem Recorded.recordTaskFunc (he : e.Recorded g) (hs : g.IsCloned (.custom .taskFunc) s) :
    (Bindings.recordTaskFunc e name s).Recorded g :=
  he.record fun _ hf => ⟨hf.nets, hf.params, recorded_insert hf.taskFuncs hs⟩

/-- What is found in a table is a clone of the sort that the table is for. -/
theorem Recorded.bound? {kind : BindingKind} (he : e.Recorded g)
    (h : Cloning.bound? kind name e = some s) : g.IsCloned (.dedupByName kind) s := by
  cases kind with
  | net =>
    obtain ⟨f, hf, hs⟩ := exists_frame h
    exact (he.frames f hf).nets name s hs
  | param =>
    obtain ⟨f, hf, hs⟩ := exists_frame h
    exact (he.frames f hf).params name s hs

theorem Recorded.bindTaskFunc (he : e.Recorded g) (h : Bindings.bindTaskFunc e name = some s) :
    g.IsCloned (.custom .taskFunc) s := by
  obtain ⟨f, hf, hs⟩ := exists_frame h
  exact (he.frames f hf).taskFuncs name s hs

/-- What is found under a name of any sort is an object that may be bound. -/
theorem Recorded.bindAny (he : e.Recorded g) (h : Bindings.bindAny e name = some s) :
    g.contains s = true ∧ g.model.binds s.tag = true := by
  have hbound (kind : BindingKind) (h : Cloning.bound? kind name e = some s) :
      g.contains s = true ∧ g.model.binds s.tag = true := by
    obtain ⟨hs, hkind⟩ := he.bound? h
    exact ⟨hs, by rw [Model.binds, hkind]; rfl⟩
  change (e.explicit.get? name <|> e.lookup Frame.nets name <|> e.lookup Frame.params name <|>
    e.lookup Frame.taskFuncs name) = some s at h
  rw [he.explicit] at h
  simp only [Option.orElse_eq_orElse, Option.orElse_eq_or, Option.or_eq_some_iff] at h
  rcases h with h | ⟨-, h | ⟨-, h | ⟨-, h⟩⟩⟩
  · cases h
  · exact hbound .net h
  · exact hbound .param h
  · obtain ⟨hs, hkind⟩ := he.bindTaskFunc h
    exact ⟨hs, by rw [Model.binds, hkind]; rfl⟩

/-- Members and children are cloned within the bindings that the copy asks for. -/
theorem Recorded.prepare (he : e.Recorded g) (policy : PolicyTable) (how : Cloning.Method)
    (copy : Ref) (hcopy : how.custom = some .taskFunc → g.IsCloned (.custom .taskFunc) copy) :
    (how.prepare policy copy e).Recorded g := by
  have hbound : (if how.custom = some .taskFunc ∧ how.name ≠ "" then
      Bindings.recordTaskFunc e how.name copy else e).Recorded g := by
    split
    · rename_i h
      exact he.recordTaskFunc (hcopy h.1)
    · exact he
  unfold Cloning.Method.prepare
  dsimp only
  split
  · exact hbound.enter copy
  · exact hbound

/-- Leaving a scope binds nothing. -/
theorem Recorded.conclude (he : e.Recorded g) (policy : PolicyTable) (how : Cloning.Method)
    (copy : Ref) : (how.conclude policy copy e).Recorded g := by
  unfold Cloning.Method.conclude
  split
  · exact he.leave copy
  · exact he

end Elaboration

/-- What is remembered is still there in a graph that grows. -/
theorem Cloner.Recorded.remains {c : Cloner Elaboration} (hc : c.Recorded)
    (hremains : c.graph.RemainsIn h) : Recorded { c with graph := h } where
  bindings := hc.bindings.remains hremains
  memo r s hs := by
    obtain ⟨hlive, htag⟩ := hc.memo r s hs
    exact ⟨hremains.contains s hlive, by rwa [hremains.model]⟩

/-- One more object is remembered to have become another. -/
theorem Cloner.Recorded.remember {c : Cloner Elaboration} (hc : c.Recorded)
    (hs : c.graph.contains s = true ∧
      (s.tag = r.tag ∨ c.graph.model.merges r.tag s.tag = true)) :
    Recorded { c with memo := (r, s) :: c.memo } where
  bindings := hc.bindings
  memo q t ht := by
    change ((r, s) :: c.memo).lookup q = some t at ht
    rw [List.lookup_cons] at ht
    split at ht
    · rename_i hq
      rw [eq_of_beq hq, ← Option.some.inj ht]
      exact hs
    · exact hc.memo q t ht

end

end ObjectModel
