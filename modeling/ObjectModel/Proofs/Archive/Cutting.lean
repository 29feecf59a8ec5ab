import ObjectModel.Proofs.Archive.Restoring
import ObjectModel.Proofs.Wire.Cutting

/-!
# Archives that are cut off

An archive that is cut off is not restored: it is found too short, wherever it
is cut (`Graph.restore_prefix`). For it is restored like the whole one up to the
cut, and the whole one is read to its end.
-/

namespace ObjectModel

open Wire

namespace Restoring

/-- There are no more bytes than are asked for, by the error. -/
def Short (e : GraphError) : Prop := ∃ fault : Fault, fault.Short ∧ e = .archive fault

/-- What is restored from bytes that are cut off is what is restored from all of
    them, unless they are found short. -/
def CutsShort {α : Type} (x : Restoring α) : Prop :=
  ∀ q, Tracks (fun s s' => s = { s' with unread := s'.unread ++ q }) Short x

/-- The computation has nothing to do with what is unread. -/
def Blind {α : Type} (x : Restoring α) : Prop :=
  ∀ s unread, x.run { s with unread } = ((x.run s).1, { (x.run s).2 with unread })

variable {α β : Type} {x : Restoring α} {f : α → Restoring β} {r : Ref}

namespace CutsShort

theorem pure (a : α) : CutsShort (pure a) := fun _ => .pure a

/-- Parts of restoring fall short one after the other, like readers. -/
theorem bind (hx : CutsShort x) (hf : ∀ a, CutsShort (f a)) : CutsShort (x >>= f) :=
  fun q => (hx q).bind fun a => hf a q

theorem throw_bind (e : GraphError) : CutsShort (throw e >>= f) := fun _ => .throw_bind e

theorem mapM {l : List α} (hf : ∀ a ∈ l, CutsShort (f a)) : CutsShort (l.mapM f) :=
  fun q => .mapM fun a ha => hf a ha q

theorem forM {f : α → Restoring PUnit} {l : List α} (hf : ∀ a ∈ l, CutsShort (f a)) :
    CutsShort (l.forM f) :=
  fun q => .forM fun a ha => hf a ha q

/-- A part that is done several times falls short at one of them. -/
theorem times (hx : CutsShort x) (n : Nat) : CutsShort (times x n) := by
  induction n with
  | zero => exact .pure []
  | succ n ih => exact hx.bind fun _ => ih.bind fun _ => .pure _

/-- What does not look at the bytes does the same whatever is left of them. -/
theorem of_blind (hx : Blind x) : CutsShort x := by
  rintro q _ s a t rfl hrun
  have hafter := (hx s (s.unread ++ q)).symm.trans hrun
  rcases hs : x.run s with ⟨b, u⟩
  have hunread := hx s s.unread
  rw [hs] at hafter hunread
  obtain ⟨rfl, rfl⟩ := Prod.mk.inj hafter
  have hu : u.unread = s.unread := congrArg (fun e => e.2.unread) hunread
  refine .inl ⟨u, ?_, rfl⟩
  change { u with unread := s.unread ++ q } = { u with unread := u.unread ++ q }
  rw [hu]

/-- Restoring falls short where a reader does. -/
theorem take {r : Reader α} (hr : Wire.CutsShort r) : CutsShort (take r) := by
  rintro q _ s a t rfl hrun
  obtain ⟨rest, rfl, hread⟩ := exists_of_run_take hrun
  rcases hr q _ s.unread a rest rfl hread with ⟨rest', rfl, hcut⟩ | ⟨e, rest', he, hcut⟩
  · exact .inl ⟨{ s with unread := rest' }, rfl, run_take hcut⟩
  · refine .inr ⟨.archive e, { s with unread := rest' }, ⟨e, he, rfl⟩, ?_⟩
    change ((r.run s.unread).1.mapError GraphError.archive,
      { s with unread := (r.run s.unread).2 }) = _
    rw [hcut]
    rfl

end CutsShort

theorem blind_fromGraph (h : Graph → Except GraphError α) : Blind (fromGraph h) :=
  fun _ _ => rfl

theorem blind_changeGraph (h : Graph → Except GraphError Graph) : Blind (changeGraph h) := by
  intro s unread
  simp only [changeGraph, ExceptT.run]
  cases h s.graph <;> rfl

theorem cutsShort_takeLength : CutsShort takeLength :=
  (CutsShort.take (cutsShort_takeCount refSize)).bind fun _ =>
    CutsShort.bind (.of_blind fun _ _ => rfl) fun _ => .pure _

/-- Whether there is an object is not a matter of bytes. -/
theorem cutsShort_checkRef (r : Ref) : CutsShort (checkRef r) :=
  .of_blind (blind_fromGraph _)

theorem cutsShort_takeTarget : CutsShort takeTarget := by
  refine (CutsShort.take cutsShort_takeRef).bind fun target => ?_
  dsimp only
  split
  · exact (cutsShort_checkRef _).bind fun _ => .pure _
  · exact .pure _

theorem cutsShort_takeTargets : CutsShort takeTargets :=
  cutsShort_takeLength.bind fun n => (cutsShort_takeTarget.times n).bind fun _ => .pure _

/-- Of the children that are read one by one, those before the cut are the same. -/
theorem cutsShort_pushTargets (l : Growing Ref) (n : Nat) : CutsShort (pushTargets l n) := by
  induction n generalizing l with
  | zero => exact .pure _
  | succ n ih =>
    refine cutsShort_takeTarget.bind fun target => ?_
    cases target with
    | none => exact ih l
    | some r => exact CutsShort.bind (.of_blind fun _ _ => rfl) fun _ => ih _

theorem cutsShort_takeChildren : CutsShort takeChildren :=
  (CutsShort.take (cutsShort_takeCount refSize)).bind fun n => cutsShort_pushTargets .empty n

theorem cutsShort_takeSymbol : CutsShort takeSymbol := by
  refine (CutsShort.take (cutsShort_takeNat 4)).bind fun id => .of_blind fun s unread => ?_
  have hget (s : Restoration) : (getThe Restoration : Restoring _).run s = (.ok s, s) := rfl
  rw [run_bind_ok (hget _), run_bind_ok (hget _)]
  cases s.symbols.resolve? id <;> rfl

theorem cutsShort_takeSymbols : CutsShort takeSymbols := by
  have htext : CutsShort Restoring.takeText :=
    (CutsShort.take cutsShort_takeText).bind fun _ => .of_blind fun _ _ => rfl
  exact (CutsShort.take (cutsShort_takeCount symbolMinSize)).bind fun n =>
    (htext.times n).bind fun _ => .pure _

theorem cutsShort_takeRoots : CutsShort takeRoots :=
  cutsShort_takeLength.bind fun n =>
    ((CutsShort.take cutsShort_takeRef).times n).bind fun _ => .pure _

/-- The counts before the cut are the same, and
    so are the objects that are made for them. -/
theorem cutsShort_takeCounts (total : Nat) (tags : List Nat) :
    CutsShort (takeCounts total tags) := by
  induction tags generalizing total with
  | nil => exact .pure []
  | cons expected tags ih =>
    refine (CutsShort.take (cutsShort_takeNat 4)).bind fun tag => ?_
    dsimp only
    split
    · exact .throw_bind _
    · refine (CutsShort.take (cutsShort_takeNat 4)).bind fun count => ?_
      refine (CutsShort.take (cutsShort_checkCount _ _)).bind fun _ => ?_
      have hmake : CutsShort (makeObject tag) := .of_blind (blind_changeGraph _)
      exact (hmake.times count).bind fun _ => (ih (total + count)).bind fun _ => .pure _

/-- A header is cut off within one of its parts. -/
theorem cutsShort_takeHeader : CutsShort takeHeader := by
  refine (CutsShort.take cutsShort_takeU32).bind fun id => cutsShort_takeTarget.bind fun parent =>
    cutsShort_takeSymbol.bind fun file => ?_
  refine (CutsShort.take cutsShort_takeU32).bind fun _ =>
    (CutsShort.take cutsShort_takeU16).bind fun _ => ?_
  refine (CutsShort.take cutsShort_takeU32).bind fun _ =>
    (CutsShort.take cutsShort_takeU16).bind fun _ => ?_
  exact cutsShort_takeChildren.bind fun _ => .pure _

/-- A value is cut off within the item of its kind, or in a list within one of several. -/
theorem cutsShort_takeValue (m : Member) : CutsShort (takeValue m) := by
  obtain ⟨name, content, relation, tags⟩ := m
  cases content with
  | scalar kind =>
    cases kind with
    | bool => exact (CutsShort.take cutsShort_takeBool).bind fun _ => .pure _
    | int16 => exact (CutsShort.take cutsShort_takeI16).bind fun _ => .pure _
    | int32 => exact (CutsShort.take cutsShort_takeI32).bind fun _ => .pure _
    | int64 => exact (CutsShort.take cutsShort_takeI64).bind fun _ => .pure _
    | uint16 => exact (CutsShort.take cutsShort_takeU16).bind fun _ => .pure _
    | uint32 => exact (CutsShort.take cutsShort_takeU32).bind fun _ => .pure _
    | uint64 => exact (CutsShort.take cutsShort_takeU64).bind fun _ => .pure _
    | string | value | delay => exact cutsShort_takeSymbol.bind fun _ => .pure _
  | object _ card | union _ card =>
    cases card with
    | one => exact cutsShort_takeTarget.bind fun _ => .pure _
    -- A list is told to be there by a byte of its own.
    | many =>
      refine (CutsShort.take cutsShort_takeBool).bind fun made => ?_
      cases made with
      | false => exact .pure _
      | true => exact cutsShort_takeTargets.bind fun _ => .pure _

/-- An object is put into its place only when all of it has been read. -/
theorem cutsShort_takeObject (r : Ref) : CutsShort (takeObject r) := by
  refine cutsShort_takeHeader.bind fun header =>
    CutsShort.bind (.of_blind (blind_changeGraph _)) fun _ =>
      CutsShort.bind (.of_blind (blind_fromGraph _)) fun members => ?_
  exact (CutsShort.mapM fun m _ => cutsShort_takeValue m).bind fun values =>
    .of_blind (blind_changeGraph _)

/-- An archive is cut off in one of its sections. -/
theorem cutsShort_takeArchive : CutsShort takeArchive := by
  refine (CutsShort.take cutsShort_takePreamble).bind fun _ => cutsShort_takeSymbols.bind fun _ =>
    cutsShort_takeRoots.bind fun roots => CutsShort.bind (.of_blind (blind_fromGraph _)) fun tags =>
      (cutsShort_takeCounts 0 tags).bind fun counts => ?_
  refine CutsShort.bind (.forM fun entry _ => .forM fun index _ => cutsShort_takeObject _)
    fun _ => ?_
  refine CutsShort.bind (.of_blind (blind_changeGraph _)) fun _ => ?_
  exact CutsShort.bind (.forM fun r _ => cutsShort_checkRef r) fun _ => .pure _

end Restoring

namespace Graph

variable {g : Graph} {m : Model} {roots objects : List Ref} {bytes cut : List UInt8}

/-- An archive of a well-typed graph in which all counts can be written is not
    restored if it is cut off, but found to be short of bytes. -/
theorem restore_prefix (hg : g.WellTyped) (hnum : g.schema.Numbered) (hm : m.Built)
    (hs : m.schema = g.schema) (hreach : g.reachable roots = .ok objects)
    (hfit : g.FitsArchive roots objects) (hsave : g.save roots = .ok bytes)
    (hcut : cut <+: bytes) (hne : cut ≠ bytes) :
    ∃ fault : Fault, fault.Short ∧ m.restore cut = .error (.archive fault) := by
  obtain ⟨q, rfl⟩ := hcut
  obtain ⟨h, t, room, hrun, -⟩ :=
    Restoring.exists_run_takeArchive hg hnum hm hs hreach hfit hsave
  rcases Restoring.cutsShort_takeArchive q (.start m (cut ++ q)) (.start m cut) _ _ rfl hrun with
    ⟨s, hall, -⟩ | ⟨_, s, ⟨fault, hshort, rfl⟩, hrun'⟩
  · -- Nothing of the whole archive is left unread, so the cut would be empty.
    have hunread : [] = s.unread ++ q := congrArg Restoration.unread hall
    have hq : q = [] := (List.append_eq_nil_iff.1 hunread.symm).2
    exact absurd (by rw [hq, List.append_nil]) hne
  · refine ⟨fault, hshort, ?_⟩
    rw [Model.restore, hrun']
    rfl

/-- The archive of two nodes that refer to each other, cut off anywhere. -/
theorem restore_prefix_pair :
    let g := Network.graph {} [{}, { name := "a", next := some 2, left := some [1, 2, 1] },
      { name := "a", right := some [], parent := some 1 }]
    ∃ bytes, g.save [Network.ref 2, Network.ref 2] = .ok bytes ∧ 0 < bytes.length ∧
      ∀ k < bytes.length, ∃ fault : Fault, fault.Short ∧
        (Network.model {}).restore (bytes.take k) = .error (.archive fault) := by
  intro g
  have hg : g.WellTyped := Network.wellTyped _ _
  have hreach : g.reachable [Network.ref 2, Network.ref 2] =
      .ok [Network.ref 1, Network.ref 2] := by
    decide +kernel
  have hfit : g.FitsArchive [Network.ref 2, Network.ref 2] [Network.ref 1, Network.ref 2] :=
    Network.fitsArchive (by decide) (by decide) (by decide +kernel) (by decide) (by decide)
  refine ⟨_, save_eq hg hreach, ?_, fun k hk => ?_⟩
  · rw [List.length_append]
    exact Nat.add_pos_left (by decide) _
  refine restore_prefix hg (Network.numbered _) (Network.built {}) rfl hreach hfit
    (save_eq hg hreach) (List.take_prefix k _) fun h => ?_
  exact absurd (congrArg List.length h) (by rw [List.length_take]; omega)

end Graph

end ObjectModel
