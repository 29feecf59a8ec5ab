import ObjectModel.Proofs.Wire.Reading

/-!
# What has been read

What a reader took, when it succeeds, is an item of its kind, and it gives what
the item stands for (`Wire.Takes`). With `Wire.Reads`, this says that readers
read the encodings of items and nothing else; only in what they give, some items
are alike.
-/

namespace ObjectModel.Wire

/-- Bytes are what is written of the number that they make. -/
theorem littleEndian_ofLittleEndian (bytes : List UInt8) :
    littleEndian bytes.length (ofLittleEndian bytes) = bytes := by
  induction bytes with
  | nil => rfl
  | cons b bytes ih =>
    have hlow : UInt8.ofNat (b.toNat + 256 * ofLittleEndian bytes) = b := by
      rw [← UInt8.toNat_inj, UInt8.toNat_ofNat', Nat.add_mul_mod_self_left,
        Nat.mod_eq_of_lt b.toNat_lt]
    have hhigh : (b.toNat + 256 * ofLittleEndian bytes) / 256 = ofLittleEndian bytes := by
      rw [Nat.add_mul_div_left _ _ (by decide), Nat.div_eq_of_lt b.toNat_lt, Nat.zero_add]
    rw [List.length_cons, ofLittleEndian, littleEndian, hlow, hhigh, ih]

theorem ofLittleEndian_lt (bytes : List UInt8) : ofLittleEndian bytes < 256 ^ bytes.length := by
  have h := ofLittleEndian_littleEndian bytes.length (ofLittleEndian bytes)
  rw [littleEndian_ofLittleEndian] at h
  rw [h]
  exact Nat.mod_lt _ (Nat.pow_pos (by decide))

variable {α β : Type} {r : Reader α} {unread rest : List UInt8} {n k : Nat}

/-- What was taken stood at the front, and the rest is left. -/
theorem eq_append_of_run_takeBytes {bytes : List UInt8}
    (h : (takeBytes k).run unread = (.ok bytes, rest)) :
    bytes.length = k ∧ unread = bytes ++ rest := by
  rw [run_takeBytes] at h
  split at h
  · cases congrArg Prod.fst h
  · cases h
    exact ⟨List.length_take_of_le (Nat.le_of_not_lt ‹_›), (List.take_append_drop k unread).symm⟩

/-- A number was written as it is always written. -/
theorem eq_append_of_run_takeNat (h : (takeNat k).run unread = (.ok n, rest)) :
    n < 256 ^ k ∧ unread = littleEndian k n ++ rest := by
  obtain ⟨bytes, rest', hbytes, h⟩ := exists_run_bind_ok h
  cases h
  obtain ⟨rfl, rfl⟩ := eq_append_of_run_takeBytes hbytes
  rw [littleEndian_ofLittleEndian]
  exact ⟨ofLittleEndian_lt bytes, rfl⟩

/-- The bytes that `r` takes are those of an item, and `P` holds of the item and
    what `r` gives. -/
def Takes (r : Reader α) (P : Item → α → Prop) : Prop :=
  ∀ unread a rest, r.run unread = (.ok a, rest) → ∃ item, unread = item.encode ++ rest ∧ P item a

/-- Reading does not add to what is left to be read. -/
theorem Takes.length_le {P : Item → α → Prop} (h : Takes r P) (unread : List UInt8) (a : α)
    (rest : List UInt8) (hrun : r.run unread = (.ok a, rest)) : rest.length ≤ unread.length := by
  obtain ⟨item, rfl, -⟩ := h unread a rest hrun
  rw [List.length_append]
  exact Nat.le_add_left _ _

/-- A number is taken, and put in another form. -/
theorem takeNat_takes {f : Nat → α} {P : Item → α → Prop}
    (hP : ∀ n < 256 ^ k, ∃ item : Item, item.encode = littleEndian k n ∧ P item (f n)) :
    Takes (do return f (← takeNat k)) P := by
  intro unread a rest hrun
  obtain ⟨n, rest', hn, hrun⟩ := exists_run_bind_ok hrun
  cases hrun
  obtain ⟨hlt, rfl⟩ := eq_append_of_run_takeNat hn
  obtain ⟨item, hitem, h⟩ := hP n hlt
  exact ⟨item, hitem ▸ rfl, h⟩

/-- What is taken is put in another form. -/
theorem Takes.andReturn {f : α → β} {P : Item → α → Prop} {Q : Item → β → Prop} (h : Takes r P)
    (hPQ : ∀ item a, P item a → ∃ item', item'.encode = item.encode ∧ Q item' (f a)) :
    Takes (do return f (← r)) Q := by
  intro unread b rest hrun
  obtain ⟨a, rest', hr, hrun⟩ := exists_run_bind_ok hrun
  cases hrun
  obtain ⟨item, rfl, hitem⟩ := h unread a rest hr
  obtain ⟨item', hencode, hQ⟩ := hPQ item a hitem
  exact ⟨item', hencode ▸ rfl, hQ⟩

/-- An id is taken as it is. -/
theorem takeId_takes :
    Takes (takeNat 4) fun item n => ∃ id : UInt32, item = .u32 id ∧ id.toNat = n := by
  intro unread n rest hrun
  obtain ⟨hlt, rfl⟩ := eq_append_of_run_takeNat hrun
  have hid : (UInt32.ofNat n).toNat = n := UInt32.toNat_ofNat_of_lt' hlt
  exact ⟨.u32 (UInt32.ofNat n), by rw [Item.encode, hid], _, rfl, hid⟩

/-- All bytes but one stand for the same. -/
theorem takeBool_takes :
    Takes takeBool fun item b => ∃ byte : UInt8, item = .u8 byte ∧ (byte != 0) = b := by
  refine takeNat_takes fun n hn => ⟨.u8 (UInt8.ofNat n), rfl, _, rfl, ?_⟩
  have hbyte : (UInt8.ofNat n).toNat = n := UInt8.toNat_ofNat_of_lt' hn
  rw [bne, bne, Bool.not_inj_iff, Bool.eq_iff_iff, beq_iff_eq, beq_iff_eq, ← UInt8.toNat_inj, hbyte]
  rfl

theorem takeU16_takes : Takes takeU16 fun item n => item = .u16 n :=
  takeNat_takes fun _ hn => ⟨_, by rw [Item.encode, UInt16.toNat_ofNat_of_lt' hn], rfl⟩

theorem takeU32_takes : Takes takeU32 fun item n => item = .u32 n :=
  takeNat_takes fun _ hn => ⟨_, by rw [Item.encode, UInt32.toNat_ofNat_of_lt' hn], rfl⟩

theorem takeU64_takes : Takes takeU64 fun item n => item = .u64 n :=
  takeNat_takes fun _ hn => ⟨_, by rw [Item.encode, UInt64.toNat_ofNat_of_lt' hn], rfl⟩

theorem takeI16_takes : Takes takeI16 fun item n => item = .i16 n :=
  takeU16_takes.andReturn fun _ _ h => ⟨_, h ▸ rfl, rfl⟩

theorem takeI32_takes : Takes takeI32 fun item n => item = .i32 n :=
  takeU32_takes.andReturn fun _ _ h => ⟨_, h ▸ rfl, rfl⟩

theorem takeI64_takes : Takes takeI64 fun item n => item = .i64 n :=
  takeU64_takes.andReturn fun _ _ h => ⟨_, h ▸ rfl, rfl⟩

/-- Bytes that are a text are the bytes of that text. -/
theorem toUTF8_of_fromUTF8? {bytes : List UInt8} {s : String}
    (h : String.fromUTF8? ⟨bytes.toArray⟩ = some s) : s.toUTF8.data.toList = bytes := by
  rw [String.fromUTF8?] at h
  split at h
  · cases h
    rfl
  · cases h

/-- What is read as a text is the item of this text, whose length fits in four bytes. -/
theorem takeText_takes :
    Takes takeText fun item s => item = .text s ∧ s.utf8ByteSize < 2 ^ 32 := by
  intro unread s rest hrun
  obtain ⟨n, rest₁, hn, hrun₁⟩ := exists_run_bind_ok hrun
  obtain ⟨bytes, rest₂, hbytes, hrun₂⟩ := exists_run_bind_ok hrun₁
  obtain ⟨hlt, rfl⟩ := eq_append_of_run_takeNat hn
  obtain ⟨rfl, rfl⟩ := eq_append_of_run_takeBytes hbytes
  rcases htext : String.fromUTF8? ⟨bytes.toArray⟩ with _ | text
  · rw [htext] at hrun₂
    cases congrArg Prod.fst hrun₂
  · rw [htext] at hrun₂
    cases hrun₂
    have hlist := toUTF8_of_fromUTF8? htext
    have hsize : s.utf8ByteSize = bytes.length := by
      rw [← hlist]
      simp
    exact ⟨.text s, by rw [Item.encode, hlist, hsize, List.append_assoc], rfl, hsize ▸ hlt⟩

/-- What is read as a reference is the item of a tag and a position, and the
    reference is what these stand for. -/
theorem takeRef_takes : Takes takeRef fun item target => ∃ tag index : UInt32,
    item = .ref tag index ∧ Ref.ofWire tag.toNat index.toNat = target := by
  intro unread target rest hrun
  obtain ⟨_, rest', htag, hrun⟩ := exists_run_bind_ok hrun
  obtain ⟨_, rest'', hindex, hrun⟩ := exists_run_bind_ok hrun
  cases hrun
  obtain ⟨_, rfl, tag, rfl, rfl⟩ := takeId_takes _ _ _ htag
  obtain ⟨_, rfl, index, rfl, rfl⟩ := takeId_takes _ _ _ hindex
  exact ⟨_, (List.append_assoc _ _ _).symm, tag, index, rfl, rfl⟩

/-- A preamble is read only if archives of its version can be. -/
theorem takePreamble_takes : Takes takePreamble fun item p => item = .preamble p ∧
    p.magic = Preamble.currentMagic ∧ p.version ≤ Preamble.currentVersion := by
  intro unread p rest hrun
  obtain ⟨magic, rest₁, hmagic, hrun₁⟩ := exists_run_bind_ok hrun
  obtain ⟨_, rfl, rfl⟩ := takeU32_takes _ _ _ hmagic
  dsimp only at hrun₁
  split at hrun₁
  · cases congrArg Prod.fst hrun₁
  rename_i hcurrent
  obtain ⟨version, rest₂, hversion, hrun₂⟩ := exists_run_bind_ok hrun₁
  obtain ⟨_, rfl, rfl⟩ := takeU16_takes _ _ _ hversion
  split at hrun₂
  · cases congrArg Prod.fst hrun₂
  rename_i hread
  obtain ⟨flags, rest₃, hflags, hrun₃⟩ := exists_run_bind_ok hrun₂
  obtain ⟨_, rfl, rfl⟩ := takeU16_takes _ _ _ hflags
  cases hrun₃
  refine ⟨.preamble ⟨magic, version, flags⟩, ?_, rfl, not_not.1 hcurrent, UInt16.not_lt.1 hread⟩
  simp only [Item.encode, List.append_assoc]

/-- What is counted has its place among the bytes that are left. -/
theorem le_of_run_checkCount {count minSize : Nat}
    (h : (checkCount count minSize).run unread = (.ok (), rest)) :
    count * minSize ≤ unread.length ∧ rest = unread := by
  rw [run_checkCount_eq] at h
  split at h
  · cases congrArg Prod.fst h
  · exact ⟨Nat.le_of_not_lt ‹_›, (congrArg Prod.snd h).symm⟩

/-- A count is read as a number of four bytes. -/
theorem eq_append_of_run_takeCount {minSize : Nat}
    (h : (takeCount minSize).run unread = (.ok n, rest)) :
    n < 2 ^ 32 ∧ unread = littleEndian 4 n ++ rest := by
  obtain ⟨_, rest', hn, h⟩ := exists_run_bind_ok h
  obtain ⟨_, rest'', hcheck, h⟩ := exists_run_bind_ok h
  cases h
  obtain ⟨-, rfl⟩ := le_of_run_checkCount hcheck
  exact eq_append_of_run_takeNat hn

/-- There are bytes left for as many elements as were counted. -/
theorem le_of_run_takeCount {minSize : Nat}
    (h : (takeCount minSize).run unread = (.ok n, rest)) :
    n * minSize ≤ rest.length ∧ rest.length ≤ unread.length := by
  obtain ⟨_, rest', hn, h⟩ := exists_run_bind_ok h
  obtain ⟨_, rest'', hcheck, h⟩ := exists_run_bind_ok h
  cases h
  obtain ⟨hle, rfl⟩ := le_of_run_checkCount hcheck
  exact ⟨hle, takeId_takes.length_le _ _ _ hn⟩

end ObjectModel.Wire
