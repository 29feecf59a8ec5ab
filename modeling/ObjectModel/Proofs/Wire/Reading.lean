import Mathlib.Algebra.Ring.Nat
import ObjectModel.Proofs.Outcome
import ObjectModel.Wire.Reader

/-!
# Reading what was written

Each reader takes the bytes of an item of its kind off the front, and gives
what was written (`Wire.Reads`); it does not look at what follows.

* `ofLittleEndian_littleEndian`: a number is read from as many bytes as hold
  it;
* `takeText_reads`, `takeRef_reads` and others: one for each kind of item;
* `encodeAll_inj`: the bytes of a sequence of items tell the items, if their kinds
  are known.
-/

namespace ObjectModel.Wire

/-! ## Numbers as bytes -/

@[simp]
theorem length_littleEndian (k n : Nat) : (littleEndian k n).length = k := by
  induction k generalizing n with
  | zero => rfl
  | succ k ih => rw [littleEndian, List.length_cons, ih]

/-- A number is read modulo what the bytes can hold. -/
theorem ofLittleEndian_littleEndian (k n : Nat) :
    ofLittleEndian (littleEndian k n) = n % 256 ^ k := by
  induction k generalizing n with
  | zero => rw [littleEndian, ofLittleEndian, Nat.pow_zero, Nat.mod_one]
  | succ k ih =>
    rw [littleEndian, ofLittleEndian, ih, UInt8.toNat_ofNat']
    exact (Nat.pow_succ' ▸ Nat.mod_mul).symm

/-! ## Readers -/

/-- `r` takes the bytes off the front of what is unread, and gives `a`. -/
def Reads {α : Type} (r : Reader α) (bytes : List UInt8) (a : α) : Prop :=
  ∀ rest, r.run (bytes ++ rest) = (.ok a, rest)

variable {α β : Type} {r : Reader α} {bytes bytes' : List UInt8} {a : α} {b : β}

theorem Reads.bind {f : α → Reader β} (h : Reads r bytes a) (hf : Reads (f a) bytes' b) :
    Reads (r >>= f) (bytes ++ bytes') b := by
  intro rest
  rw [List.append_assoc]
  exact (run_bind_ok (h _)).trans (hf rest)

theorem Reads.pure (a : α) : Reads (pure a) [] a := fun _ => rfl

/-- What is read is put in another form. -/
theorem Reads.andReturn {f : α → β} (h : Reads r bytes a) :
    Reads (do return f (← r)) bytes (f a) := by
  rw [← List.append_nil bytes]
  exact h.bind (.pure _)

/-- Bytes are taken off the front, or it is told how many there are. -/
theorem run_takeBytes (n : Nat) (unread : List UInt8) : (takeBytes n).run unread =
    if unread.length < n then (.error (.bufferTooShort n unread.length), unread)
    else (.ok (unread.take n), unread.drop n) := by
  have hget : (get : Reader (List UInt8)).run unread = (.ok unread, unread) := rfl
  have hlength : (unread.take n).length < n ↔ unread.length < n := by
    rw [List.length_take]
    omega
  rw [takeBytes]
  refine (run_bind_ok hget).trans ?_
  simp only [hlength]
  split
  · rfl
  · rfl

theorem takeBytes_reads (bytes : List UInt8) : Reads (takeBytes bytes.length) bytes bytes := by
  intro rest
  rw [run_takeBytes, if_neg (by simp), List.take_left, List.drop_left]

/-- A number is read back from bytes that can hold it. -/
theorem takeNat_reads {k n : Nat} (h : n < 256 ^ k) : Reads (takeNat k) (littleEndian k n) n := by
  have hbytes := takeBytes_reads (littleEndian k n)
  rw [length_littleEndian] at hbytes
  have hread := hbytes.andReturn (f := ofLittleEndian)
  rwa [ofLittleEndian_littleEndian, Nat.mod_eq_of_lt h] at hread

theorem takeBool_reads (b : Bool) : Reads takeBool (Item.bool b).encode b := by
  cases b with
  | false => exact fun _ => rfl
  | true => exact fun _ => rfl

theorem takeU8_reads (n : UInt8) : Reads takeU8 (Item.u8 n).encode n := by
  have h := (takeNat_reads (k := 1) n.toNat_lt).andReturn (f := UInt8.ofNat)
  rwa [UInt8.ofNat_toNat, littleEndian, littleEndian, UInt8.ofNat_toNat] at h

theorem takeU16_reads (n : UInt16) : Reads takeU16 (Item.u16 n).encode n := by
  have h := (takeNat_reads (k := 2) n.toNat_lt).andReturn (f := UInt16.ofNat)
  rwa [UInt16.ofNat_toNat] at h

theorem takeI16_reads (n : Int16) : Reads takeI16 (Item.i16 n).encode n :=
  (takeU16_reads n.toUInt16).andReturn

theorem takeU32_reads (n : UInt32) : Reads takeU32 (Item.u32 n).encode n := by
  have h := (takeNat_reads (k := 4) n.toNat_lt).andReturn (f := UInt32.ofNat)
  rwa [UInt32.ofNat_toNat] at h

theorem takeI32_reads (n : Int32) : Reads takeI32 (Item.i32 n).encode n :=
  (takeU32_reads n.toUInt32).andReturn

theorem takeU64_reads (n : UInt64) : Reads takeU64 (Item.u64 n).encode n := by
  have h := (takeNat_reads (k := 8) n.toNat_lt).andReturn (f := UInt64.ofNat)
  rwa [UInt64.ofNat_toNat] at h

theorem takeI64_reads (n : Int64) : Reads takeI64 (Item.i64 n).encode n :=
  (takeU64_reads n.toUInt64).andReturn

theorem fromUTF8?_toUTF8 (s : String) :
    String.fromUTF8? ⟨s.toUTF8.data.toList.toArray⟩ = some s :=
  dif_pos s.isValidUTF8

/-- A text is read if its length can be written. -/
theorem takeText_reads {s : String} (h : s.utf8ByteSize < 2 ^ 32) :
    Reads takeText (Item.text s).encode s := by
  have hbytes := takeBytes_reads s.toUTF8.data.toList
  have hlength : s.toUTF8.data.toList.length = s.utf8ByteSize := by simp
  rw [hlength] at hbytes
  rw [Item.encode, takeText, ← List.append_nil s.toUTF8.data.toList]
  refine (takeNat_reads h).bind (hbytes.bind ?_)
  rw [fromUTF8?_toUTF8]
  exact .pure s

/-- A reference is read as the object with the position one lower, or as none. -/
theorem takeRef_reads (tag index : UInt32) :
    Reads takeRef (Item.ref tag index).encode (Ref.ofWire tag.toNat index.toNat) := by
  rw [takeRef]
  exact (takeNat_reads (k := 4) tag.toNat_lt).bind (takeNat_reads (k := 4) index.toNat_lt).andReturn

/-- A count is too large if its elements would take more bytes than are left.
    Nothing is read for this. -/
theorem run_checkCount_eq (count minSize : Nat) (unread : List UInt8) :
    (checkCount count minSize).run unread = if unread.length < count * minSize then
      (.error (.countTooLarge count minSize unread.length), unread) else (.ok (), unread) := by
  have hget : (get : Reader (List UInt8)).run unread = (.ok unread, unread) := rfl
  rw [checkCount]
  refine (run_bind_ok hget).trans ?_
  split
  · rfl
  · rfl

theorem run_checkCount {count minSize : Nat} {rest : List UInt8}
    (hrest : count * minSize ≤ rest.length) :
    (checkCount count minSize).run rest = (.ok (), rest) := by
  rw [run_checkCount_eq, if_neg (Nat.not_lt.2 hrest)]

/-- A count is read if what follows can hold so many elements. -/
theorem run_takeCount {count minSize : Nat} {rest : List UInt8} (h : count < 2 ^ 32)
    (hrest : count * minSize ≤ rest.length) :
    (takeCount minSize).run (littleEndian 4 count ++ rest) = (.ok count, rest) :=
  (run_bind_ok (takeNat_reads h rest)).trans ((run_bind_ok (run_checkCount hrest)).trans rfl)

/-- A preamble is read if it is one of an archive, of no later version. -/
theorem takePreamble_reads_of {p : Preamble} (hmagic : p.magic = Preamble.currentMagic)
    (hversion : p.version ≤ Preamble.currentVersion) :
    Reads takePreamble (Item.preamble p).encode p := by
  rw [takePreamble, Item.encode, List.append_assoc]
  refine (takeU32_reads p.magic).bind ?_
  rw [if_neg (not_not.2 hmagic)]
  refine (takeU16_reads p.version).bind ?_
  rw [if_neg (UInt16.not_lt.2 hversion)]
  exact (takeU16_reads p.flags).andReturn

/-- The preamble that archives are written with is one that can be read. -/
theorem takePreamble_reads : Reads takePreamble (Item.preamble .current).encode .current :=
  takePreamble_reads_of rfl (by decide)

/-! ## Telling items apart -/

variable {rest rest' : List UInt8} {a' : α}

/-- What is read tells what there was to read, whatever follows. -/
theorem Reads.inj (h : Reads r bytes a) (h' : Reads r bytes' a')
    (heq : bytes ++ rest = bytes' ++ rest') : a = a' ∧ rest = rest' := by
  have hrun := (h rest).symm.trans ((congrArg r.run heq).trans (h' rest'))
  exact ⟨Except.ok.inj (congrArg Prod.fst hrun), congrArg Prod.snd hrun⟩

/-- The length of a text can be written. -/
def Item.Writable : Item → Prop
  | text s => s.utf8ByteSize < 2 ^ 32
  | _ => True

/-- The bytes of an item tell which one of its kind it is. -/
theorem Item.encode_inj {i j : Item} (hkind : i.kind = j.kind) (hi : i.Writable) (hj : j.Writable)
    (h : i.encode ++ rest = j.encode ++ rest') : i = j ∧ rest = rest' := by
  -- Items of one kind are read by one reader, which takes
  -- from either the same item and leaves the same rest.
  match i, j, hkind with
  | bool b, bool b', _ =>
    exact ((takeBool_reads b).inj (takeBool_reads b') h).imp_left (congrArg bool)
  | u8 n, u8 n', _ => exact ((takeU8_reads n).inj (takeU8_reads n') h).imp_left (congrArg u8)
  | u16 n, u16 n', _ => exact ((takeU16_reads n).inj (takeU16_reads n') h).imp_left (congrArg u16)
  | i16 n, i16 n', _ => exact ((takeI16_reads n).inj (takeI16_reads n') h).imp_left (congrArg i16)
  | u32 n, u32 n', _ => exact ((takeU32_reads n).inj (takeU32_reads n') h).imp_left (congrArg u32)
  | i32 n, i32 n', _ => exact ((takeI32_reads n).inj (takeI32_reads n') h).imp_left (congrArg i32)
  | u64 n, u64 n', _ => exact ((takeU64_reads n).inj (takeU64_reads n') h).imp_left (congrArg u64)
  | i64 n, i64 n', _ => exact ((takeI64_reads n).inj (takeI64_reads n') h).imp_left (congrArg i64)
  | text s, text s', _ =>
    exact ((takeText_reads hi).inj (takeText_reads hj) h).imp_left (congrArg text)
  | ref tag index, ref tag' index', _ =>
    rw [encode, encode, List.append_assoc, List.append_assoc] at h
    obtain ⟨rfl, hindex⟩ := (takeU32_reads tag).inj (takeU32_reads tag') h
    exact ((takeU32_reads index).inj (takeU32_reads index') hindex).imp_left (congrArg (ref tag))
  | preamble p, preamble p', _ =>
    obtain ⟨magic, version, flags⟩ := p
    obtain ⟨magic', version', flags'⟩ := p'
    simp only [encode, List.append_assoc] at h
    obtain ⟨rfl, hversion⟩ := (takeU32_reads magic).inj (takeU32_reads magic') h
    obtain ⟨rfl, hflags⟩ := (takeU16_reads version).inj (takeU16_reads version') hversion
    obtain ⟨rfl, hrest⟩ := (takeU16_reads flags).inj (takeU16_reads flags') hflags
    exact ⟨rfl, hrest⟩

/-- The bytes of a sequence tell which one of its kinds it is. -/
theorem encodeAll_inj {l l' : List Item} (hkinds : l.map Item.kind = l'.map Item.kind)
    (hl : ∀ i ∈ l, i.Writable) (hl' : ∀ i ∈ l', i.Writable)
    (h : encodeAll l ++ rest = encodeAll l' ++ rest') : l = l' ∧ rest = rest' := by
  induction l generalizing l' with
  | nil =>
    obtain rfl := List.map_eq_nil_iff.1 hkinds.symm
    exact ⟨rfl, h⟩
  | cons i l ih =>
    cases l' with
    | nil => cases hkinds
    | cons j l' =>
      rw [List.forall_mem_cons] at hl hl'
      obtain ⟨hkind, htail⟩ := List.cons.inj hkinds
      rw [encodeAll_cons, encodeAll_cons, List.append_assoc, List.append_assoc] at h
      obtain ⟨rfl, hrest⟩ := Item.encode_inj hkind hl.1 hl'.1 h
      exact (ih htail hl.2 hl'.2 hrest).imp_left (congrArg (i :: ·))

end ObjectModel.Wire
