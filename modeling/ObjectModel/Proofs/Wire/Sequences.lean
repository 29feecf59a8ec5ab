import ObjectModel.Proofs.Wire.Reading

/-!
# Reading sequences

A sequence of items is read back from its bytes, none of which are left
(`reads_encodeAll`). If the bytes are cut off, the items before the cut are read
all the same, and the one that is cut tells that bytes are missing: no part of
an item is taken for one of its kind (`Wire.Lacks`, `Wire.Asks`).

`read_encodeAll` says both of all sequences of items that can be read.
-/

namespace ObjectModel.Wire

/-! ## Missing bytes -/

variable {α β : Type} {r : Reader α} {f : α → Reader β} {a : α} {bytes bytes' part q : List UInt8}

/-- The reader fails on the bytes, as there are fewer than it asks for. -/
def Lacks (r : Reader α) (bytes : List UInt8) : Prop :=
  ∃ required available rest, available < required ∧
    r.run bytes = (.error (.bufferTooShort required available), rest)

/-- What follows does not find the bytes that are missing. -/
theorem Lacks.bind (h : Lacks r bytes) : Lacks (r >>= f) bytes := by
  obtain ⟨required, available, rest, hlt, hrun⟩ := h
  exact ⟨required, available, rest, hlt, run_bind_error hrun⟩

/-- What lacks bytes after a part that was read lacks them in the whole. -/
theorem Reads.lacks (hr : Reads r bytes a) (h : Lacks (f a) bytes') :
    Lacks (r >>= f) (bytes ++ bytes') := by
  obtain ⟨required, available, rest, hlt, hrun⟩ := h
  exact ⟨required, available, rest, hlt, (run_bind_ok (hr _)).trans hrun⟩

/-- The reader asks for all the bytes: wherever they are cut off, it lacks some. -/
def Asks (r : Reader α) (bytes : List UInt8) : Prop :=
  ∀ part q, bytes = part ++ q → q ≠ [] → Lacks r part

/-- A cut falls into one half, or between the two. -/
theorem exists_of_append_eq (h : bytes ++ bytes' = part ++ q) :
    (∃ missing, missing ≠ [] ∧ bytes = part ++ missing) ∨
      ∃ more, part = bytes ++ more ∧ bytes' = more ++ q := by
  rcases List.append_eq_append_iff.1 h with ⟨more, hpart, hq⟩ | ⟨missing, hbytes, hq⟩
  · exact .inr ⟨more, hpart, hq⟩
  · rcases eq_or_ne missing [] with rfl | hmissing
    · exact .inr ⟨[], by simpa using hbytes.symm, hq.symm⟩
    · exact .inl ⟨missing, hmissing, hbytes⟩

namespace Asks

theorem nil : Asks r [] := fun _ _ h hq => absurd (List.append_eq_nil_iff.1 h.symm).2 hq

/-- If the first reader is satisfied, it is the second that asks for what is missing. -/
theorem bind (hr : Reads r bytes a) (h : Asks r bytes) (hf : Asks (f a) bytes') :
    Asks (r >>= f) (bytes ++ bytes') := by
  intro part q hpart hq
  rcases exists_of_append_eq hpart with ⟨missing, hmissing, hbytes⟩ | ⟨more, rfl, hbytes'⟩
  · exact (h part missing hbytes hmissing).bind
  · exact hr.lacks (hf more q hbytes' hq)

/-- What is read is put in another form. -/
theorem andReturn {f : α → β} (h : Asks r bytes) : Asks (do return f (← r)) bytes :=
  fun part q hpart hq => (h part q hpart hq).bind

end Asks

/-- Fewer bytes than are asked for are no answer. -/
theorem takeBytes_asks (bytes : List UInt8) : Asks (takeBytes bytes.length) bytes := by
  rintro part q rfl hq
  have hshort : part.length < (part ++ q).length := by
    rw [List.length_append]
    exact Nat.lt_add_of_pos_right (List.length_pos_iff.2 hq)
  exact ⟨_, part.length, part, hshort, by rw [run_takeBytes, if_pos hshort]⟩

theorem takeNat_asks (k n : Nat) : Asks (takeNat k) (littleEndian k n) := by
  have hbytes := takeBytes_asks (littleEndian k n)
  rw [length_littleEndian] at hbytes
  exact hbytes.andReturn

theorem takeU16_asks (n : UInt16) : Asks takeU16 (littleEndian 2 n.toNat) :=
  (takeNat_asks 2 _).andReturn

theorem takeU32_asks (n : UInt32) : Asks takeU32 (littleEndian 4 n.toNat) :=
  (takeNat_asks 4 _).andReturn

theorem takeU64_asks (n : UInt64) : Asks takeU64 (littleEndian 8 n.toNat) :=
  (takeNat_asks 8 _).andReturn

/-- A text is asked for until its length is there and as many bytes as this says. -/
theorem takeText_asks {s : String} (h : s.utf8ByteSize < 2 ^ 32) :
    Asks takeText (Item.text s).encode := by
  have hread := takeBytes_reads s.toUTF8.data.toList
  have hasks := takeBytes_asks s.toUTF8.data.toList
  have hlength : s.toUTF8.data.toList.length = s.utf8ByteSize := by simp
  rw [hlength] at hread hasks
  rw [Item.encode, takeText, ← List.append_nil s.toUTF8.data.toList]
  exact .bind (takeNat_reads h) (takeNat_asks 4 _) (.bind hread hasks .nil)

theorem takeRef_asks (tag index : UInt32) : Asks takeRef (Item.ref tag index).encode := by
  rw [takeRef]
  exact .bind (takeNat_reads tag.toNat_lt) (takeNat_asks 4 _) (takeNat_asks 4 _).andReturn

/-- A preamble that can be read is asked for in full. -/
theorem takePreamble_asks {p : Preamble} (hmagic : p.magic = Preamble.currentMagic)
    (hversion : p.version ≤ Preamble.currentVersion) :
    Asks takePreamble (Item.preamble p).encode := by
  rw [takePreamble, Item.encode, List.append_assoc]
  refine .bind (takeU32_reads p.magic) (takeU32_asks p.magic) ?_
  rw [if_neg (not_not.2 hmagic)]
  refine .bind (takeU16_reads p.version) (takeU16_asks p.version) ?_
  rw [if_neg (UInt16.not_lt.2 hversion)]
  exact (takeU16_asks p.flags).andReturn

/-! ## Items -/

/-- What is written as the item can be read: the length of a text fits its place,
    and a preamble is one of an archive, of no later version. -/
def Item.Readable : Item → Prop
  | text s => s.utf8ByteSize < 2 ^ 32
  | preamble p => p.magic = Preamble.currentMagic ∧ p.version ≤ Preamble.currentVersion
  | _ => True

instance (i : Item) : Decidable i.Readable := by
  cases i <;> unfold Item.Readable <;> infer_instance

/-- Each kind of item has a reader that gives back what the item stands for. -/
theorem Item.reads {i : Item} (h : i.Readable) : Reads i.kind.read i.encode i.datum := by
  cases i with
  | bool b => exact (takeBool_reads b).andReturn
  | u8 n => exact (takeU8_reads n).andReturn
  | u16 n => exact (takeU16_reads n).andReturn
  | i16 n => exact (takeI16_reads n).andReturn
  | u32 n => exact (takeU32_reads n).andReturn
  | i32 n => exact (takeI32_reads n).andReturn
  | u64 n => exact (takeU64_reads n).andReturn
  | i64 n => exact (takeI64_reads n).andReturn
  | text s => exact (takeText_reads h).andReturn
  | ref tag index => exact (takeRef_reads tag index).andReturn
  | preamble p => exact (takePreamble_reads_of h.1 h.2).andReturn

/-- The reader of an item takes no part of one for an item of its kind. -/
theorem Item.asks {i : Item} (h : i.Readable) : Asks i.kind.read i.encode := by
  cases i with
  | bool b => exact (takeBytes_asks [_]).andReturn.andReturn.andReturn
  | u8 n => exact (takeBytes_asks [_]).andReturn.andReturn.andReturn
  | u16 n => exact (takeU16_asks n).andReturn
  | i16 n => exact (takeU16_asks n.toUInt16).andReturn.andReturn
  | u32 n => exact (takeU32_asks n).andReturn
  | i32 n => exact (takeU32_asks n.toUInt32).andReturn.andReturn
  | u64 n => exact (takeU64_asks n).andReturn
  | i64 n => exact (takeU64_asks n.toUInt64).andReturn.andReturn
  | text s => exact (takeText_asks h).andReturn
  | ref tag index => exact (takeRef_asks tag index).andReturn
  | preamble p => exact (takePreamble_asks h.1 h.2).andReturn

/-! ## Sequences -/

variable {items : List Item}

/-- The items of a sequence are read back, one after the other. -/
theorem reads_encodeAll (h : ∀ i ∈ items, i.Readable) :
    Reads ((items.map Item.kind).mapM Kind.read) (encodeAll items) (items.map Item.datum) := by
  induction items with
  | nil => exact .pure []
  | cons i items ih =>
    rw [List.forall_mem_cons] at h
    rw [List.map_cons, List.mapM_cons, encodeAll_cons]
    exact (Item.reads h.1).bind (ih h.2).andReturn

/-- Where the bytes of a sequence are cut off, some items come before the cut,
    and one is cut. -/
theorem exists_cut_of_encodeAll (h : encodeAll items = part ++ q) (hq : q ≠ []) :
    ∃ before i after rest missing, items = before ++ i :: after ∧
      part = encodeAll before ++ rest ∧ i.encode = rest ++ missing ∧ missing ≠ [] := by
  induction items generalizing part with
  | nil => exact absurd (List.append_eq_nil_iff.1 h.symm).2 hq
  | cons i items ih =>
    rw [encodeAll_cons] at h
    rcases exists_of_append_eq h with ⟨missing, hmissing, hi⟩ | ⟨more, rfl, hitems⟩
    · exact ⟨[], i, items, part, missing, rfl, rfl, hi, hmissing⟩
    · obtain ⟨before, j, after, rest, missing, rfl, rfl, hj, hmissing⟩ := ih hitems
      refine ⟨i :: before, j, after, rest, missing, rfl, ?_, hj, hmissing⟩
      rw [encodeAll_cons, List.append_assoc]

/-- Reading gives what was written, to the last byte. Of bytes that are cut off,
    it gives the items that are whole, and the first that is not lacks bytes. -/
theorem read_encodeAll (items : List Item) (h : ∀ i ∈ items, i.Readable) :
    ((items.map Item.kind).mapM Kind.read).run (encodeAll items) =
        (.ok (items.map Item.datum), []) ∧
      ∀ part, part <+: encodeAll items → part ≠ encodeAll items →
        ∃ before i after rest, items = before ++ i :: after ∧ part = encodeAll before ++ rest ∧
          rest.length < i.encode.length ∧
          ((before.map Item.kind).mapM Kind.read).run part = (.ok (before.map Item.datum), rest) ∧
          Lacks i.kind.read rest := by
  constructor
  · simpa using reads_encodeAll h []
  · rintro part ⟨q, hq⟩ hne
    have hmissing : q ≠ [] := fun h => hne (by rw [← hq, h, List.append_nil])
    obtain ⟨before, i, after, rest, missing, rfl, rfl, hi, hcut⟩ :=
      exists_cut_of_encodeAll hq.symm hmissing
    rw [List.forall_mem_append, List.forall_mem_cons] at h
    refine ⟨before, i, after, rest, rfl, rfl, ?_, reads_encodeAll h.1 rest, ?_⟩
    · rw [hi, List.length_append]
      exact Nat.lt_add_of_pos_right (List.length_pos_iff.2 hcut)
    · exact Item.asks h.2.1 rest missing hi hcut

/-- A number, a text and two references, one of which is to no object. The bytes
    are cut off between the halves of the other one. -/
theorem read_encodeAll_halves :
    let items := [.i16 (-3), .text "top.u1", .ref 4 2, .nullRef, .preamble .current]
    (∀ i ∈ items, i.Readable) ∧
      ((items.map Item.kind).mapM Kind.read).run (encodeAll items) =
        (.ok [.i16 (-3), .text "top.u1", .ref (some ⟨4, 1⟩), .ref none, .preamble .current], []) ∧
      ∃ before i after rest, items = before ++ i :: after ∧
        (encodeAll items).take 16 = encodeAll before ++ rest ∧ rest.length < i.encode.length ∧
        ((before.map Item.kind).mapM Kind.read).run ((encodeAll items).take 16) =
          (.ok (before.map Item.datum), rest) ∧
        Lacks i.kind.read rest := by
  intro items
  have hreadable : ∀ i ∈ items, i.Readable := by decide
  have hcut : (encodeAll items).take 16 ≠ encodeAll items := by decide +kernel
  obtain ⟨hwhole, hpart⟩ := read_encodeAll items hreadable
  exact ⟨hreadable, hwhole, hpart _ (List.take_prefix ..) hcut⟩

end ObjectModel.Wire
