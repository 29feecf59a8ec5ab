import ObjectModel.Proofs.Wire.Reading

/-!
# Reading what is cut off

A reader that succeeds on some bytes finds the same in the first of them, or
finds that these are too few (`Wire.CutsShort`): no other fault comes up, as all
that it has read so far is the same. This holds of each reader, and of what is
put together from readers.
-/

namespace ObjectModel.Wire

/-- The fault is that there are fewer bytes than are asked for. -/
def Fault.Short : Fault → Prop
  | bufferTooShort required available => available < required
  | countTooLarge count minSize available => available < count * minSize
  | _ => False

/-- A reader finds of bytes that are cut off what it finds of all of them, or
    that they are short. -/
def CutsShort {α : Type} (r : Reader α) : Prop :=
  ∀ q, Tracks (fun s s' => s = s' ++ q) Fault.Short r

variable {α β : Type} {r : Reader α} {f : α → Reader β}

namespace CutsShort

theorem pure (a : α) : CutsShort (pure a) := fun _ => .pure a

theorem throw_bind (e : Fault) : CutsShort (throw e >>= f) := fun _ => .throw_bind e

theorem throw (e : Fault) : CutsShort (throw e : Reader α) := fun _ => .throw e

/-- In the first of the bytes, one part falls short after the other. So what is put
    together from readers that only fall short does no more. -/
theorem bind (hr : CutsShort r) (hf : ∀ a, CutsShort (f a)) : CutsShort (r >>= f) :=
  fun q => (hr q).bind fun a => hf a q

end CutsShort

/-- If fewer bytes are left than are asked for, this is told, and with enough of
    them the same ones are taken. -/
theorem cutsShort_takeBytes (n : Nat) : CutsShort (takeBytes n) := by
  rintro q _ p bytes rest rfl hrun
  rw [run_takeBytes] at hrun ⊢
  split at hrun
  · cases congrArg Prod.fst hrun
  · by_cases hshort : p.length < n
    · rw [if_pos hshort]
      exact .inr ⟨.bufferTooShort n p.length, p, hshort, rfl⟩
    · cases hrun
      rw [if_neg hshort]
      have hle := Nat.le_of_not_lt hshort
      refine .inl ⟨p.drop n, List.drop_append_of_le_length hle, ?_⟩
      rw [List.take_append_of_le_length hle]

/-- A count that the whole bytes allow for may be too large for the first of them.
    This is the other way in which bytes are found to be too few. -/
theorem cutsShort_checkCount (count minSize : Nat) : CutsShort (checkCount count minSize) := by
  rintro q _ p _ rest rfl hrun
  rw [run_checkCount_eq] at hrun ⊢
  split at hrun
  · cases congrArg Prod.fst hrun
  · obtain ⟨-, rfl⟩ := Prod.mk.inj hrun
    by_cases hshort : p.length < count * minSize
    · rw [if_pos hshort]
      exact .inr ⟨.countTooLarge count minSize p.length, p, hshort, rfl⟩
    · rw [if_neg hshort]
      exact .inl ⟨p, rfl, rfl⟩

/-- A number is read from a fixed number of bytes. -/
theorem cutsShort_takeNat (n : Nat) : CutsShort (takeNat n) :=
  (cutsShort_takeBytes n).bind fun _ => .pure _

theorem cutsShort_takeBool : CutsShort takeBool := (cutsShort_takeNat 1).bind fun _ => .pure _

theorem cutsShort_takeU16 : CutsShort takeU16 := (cutsShort_takeNat 2).bind fun _ => .pure _

theorem cutsShort_takeI16 : CutsShort takeI16 := cutsShort_takeU16.bind fun _ => .pure _

theorem cutsShort_takeU32 : CutsShort takeU32 := (cutsShort_takeNat 4).bind fun _ => .pure _

theorem cutsShort_takeI32 : CutsShort takeI32 := cutsShort_takeU32.bind fun _ => .pure _

theorem cutsShort_takeU64 : CutsShort takeU64 := (cutsShort_takeNat 8).bind fun _ => .pure _

theorem cutsShort_takeI64 : CutsShort takeI64 := cutsShort_takeU64.bind fun _ => .pure _

/-- A text may be cut within its length or within its bytes. What is read of them in
    full is checked as before. -/
theorem cutsShort_takeText : CutsShort takeText := by
  refine (cutsShort_takeNat 4).bind fun length => (cutsShort_takeBytes length).bind fun bytes => ?_
  split
  · exact .pure _
  · exact .throw _

/-- A count is read, and checked against what is left. -/
theorem cutsShort_takeCount (minSize : Nat) : CutsShort (takeCount minSize) :=
  (cutsShort_takeNat 4).bind fun count => (cutsShort_checkCount count minSize).bind fun _ => .pure _

theorem cutsShort_takeRef : CutsShort takeRef :=
  (cutsShort_takeNat 4).bind fun _ => (cutsShort_takeNat 4).bind fun _ => .pure _

/-- The preamble is looked at only after all of it has been read. -/
theorem cutsShort_takePreamble : CutsShort takePreamble := by
  refine cutsShort_takeU32.bind fun magic => ?_
  dsimp only
  split
  · exact .throw_bind _
  · refine cutsShort_takeU16.bind fun version => ?_
    split
    · exact .throw_bind _
    · exact cutsShort_takeU16.bind fun _ => .pure _

end ObjectModel.Wire
