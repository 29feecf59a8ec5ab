import ObjectModel.Cloning.Bindings
import ObjectModel.Proofs.SortedMap

/-!
# Scopes

What is found under a name while a design is elaborated, when names are bound
and scopes are entered and left: each of these changes the innermost frame, or
adds or removes it. So what is found from any scope but the innermost
(`Elaboration.netIn`) stays.
-/

namespace ObjectModel

namespace Elaboration

variable {e : Elaboration} {table : Frame → NameTable} {name : String} {r : Ref}

/-- What is found is in some frame. -/
theorem exists_frame (h : e.lookup table name = some r) :
    ∃ f ∈ e.frames, (table f).get? name = some r :=
  List.exists_of_findSome?_eq_some h

/-- Binding a name changes the first frame only. -/
theorem frames_record (f : Frame → Frame) : (e.record f).frames = e.frames.modifyHead f := by
  rw [record]
  split
  · rename_i hscopes
    simp [frames, hscopes]
  · rename_i hscopes
    simp [frames, hscopes]

theorem frames_enter (scope : Ref) : (e.enter scope).frames = {} :: e.frames := rfl

/-- Leaving a scope takes away its frame, if any. -/
theorem frames_leave (scope : Ref) : (e.leave scope).frames <:+ e.frames := by
  rw [leave]
  split
  · rename_i hscopes
    split
    · simp [frames, hscopes]
    · exact List.suffix_rfl
  · exact List.suffix_rfl

/-! ## Nets in outer scopes -/

variable {root : Frame} {scopes : List (Ref × Frame)}

/-- What these scopes say of a net, or what is said outside them all. -/
def netIn (root : Frame) (scopes : List (Ref × Frame)) (name : String) : Option Ref :=
  (scopes.map Prod.snd ++ [root]).findSome? fun f => f.nets.get? name

theorem netIn_nil : netIn root [] name = root.nets.get? name := by
  simp [netIn]

/-- A net is looked for in the innermost scope first, and then in those around it. -/
theorem netIn_cons {p : Ref × Frame} :
    netIn root (p :: scopes) name = (p.2.nets.get? name).or (netIn root scopes name) := by
  rw [netIn, List.map_cons, List.cons_append, List.findSome?_cons]
  cases p.2.nets.get? name <;> rfl

variable {w : Frame → Frame} {outer : List (Ref × Frame)}

theorem scopes_record : (e.record w).scopes.map Prod.fst = e.scopes.map Prod.fst := by
  rw [record]
  split
  · rename_i hscopes
    rw [hscopes]
    rfl
  · rfl

/-- Recording is done in the innermost scope only. -/
theorem suffix_record (h : outer <:+ (e.record w).scopes) : outer = (e.record w).scopes ∨
    outer <:+ e.scopes ∧ outer.length < e.scopes.length ∧ (e.record w).root = e.root := by
  rw [record] at h ⊢
  split at h
  · rename_i s f rest hscopes
    refine (List.suffix_cons_iff.1 h).imp_right fun h => ?_
    rw [hscopes]
    exact ⟨h.trans (List.suffix_cons _ _), Nat.lt_succ_of_le h.length_le, rfl⟩
  · rename_i hscopes
    exact .inl (List.suffix_nil.1 (hscopes ▸ h) |>.trans hscopes.symm)

/-- What is recorded besides does not count. -/
theorem netIn_record (hw : ∀ f, (w f).nets.get? name = f.nets.get? name) :
    netIn (e.record w).root (e.record w).scopes name = netIn e.root e.scopes name := by
  rw [record]
  split
  · rename_i hscopes
    rw [hscopes, netIn_cons, netIn_cons, hw]
  · rename_i hscopes
    rw [hscopes, netIn_nil, netIn_nil, hw]

/-- A net is found under the name that it was bound to last. -/
theorem netIn_recordNet :
    netIn (Bindings.recordNet e name r).root (Bindings.recordNet e name r).scopes name =
      some r := by
  have hinsert (m : NameTable) : (m.insert name r).get? name = some r := by
    rw [SortedMap.get?_insert, if_pos rfl]
  change netIn (e.record fun f => { f with nets := f.nets.insert name r }).root
    (e.record fun f => { f with nets := f.nets.insert name r }).scopes name = some r
  rw [record]
  split
  · rw [netIn_cons, hinsert, Option.some_or]
  · rename_i hscopes
    rw [hscopes, netIn_nil, hinsert]

end Elaboration

end ObjectModel
