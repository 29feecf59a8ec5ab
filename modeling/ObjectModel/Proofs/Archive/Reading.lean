import ObjectModel.Archive.Restore
import ObjectModel.Proofs.Archive.Numbering
import ObjectModel.Proofs.Symbols
import ObjectModel.Proofs.Wire.Reading

/-!
# Reading objects back

What is written of an object is read back item by item, with references by
their new numbers (`Restoring.takeHeader_reads`, `Restoring.takeValue_reads`).
For this the objects have to have been made, the symbols to be known, and all
numbers to be such that they can be written (`Ready`, `Object.Writable`).
-/

namespace ObjectModel

open Wire

/-- The texts and lists of an object are of lengths that can be written. -/
structure Object.Writable (o : Object) : Prop where
  texts : ∀ s ∈ o.texts, s.utf8ByteSize < 2 ^ 32
  children : o.header.children.length < 2 ^ 32
  lists : ∀ items, .refs (some items) ∈ o.values → items.length < 2 ^ 32

namespace Restoring

variable {α β γ : Type} {t : SymbolTable} {g : Graph} {x : Restoring α} {a : α} {b : β}
  {item : Item} {items items' : List Item}

/-- With the symbols `t` and in the graph `g`, `x` takes the items off the front
    of what is unread, and gives `a`. Nothing else changes but the room. -/
def Reads (t : SymbolTable) (g : Graph) (x : Restoring α) (items : List Item) (a : α) : Prop :=
  ∀ rest room, ∃ room',
    x.run ⟨encodeAll items ++ rest, t, g, room⟩ = (.ok a, ⟨rest, t, g, room'⟩)

theorem Reads.pure (a : α) : Reads t g (pure a) [] a := fun _ room => ⟨room, rfl⟩

/-- Two parts read their items one after the other. -/
theorem Reads.bind {f : α → Restoring β} (h : Reads t g x items a) (hf : Reads t g (f a) items' b) :
    Reads t g (x >>= f) (items ++ items') b := by
  intro rest room
  obtain ⟨room₁, h₁⟩ := h (encodeAll items' ++ rest) room
  obtain ⟨room₂, h₂⟩ := hf rest room₁
  refine ⟨room₂, ?_⟩
  rw [encodeAll_append, List.append_assoc]
  exact (run_bind_ok h₁).trans h₂

/-- One item after the other. -/
theorem Reads.next {f : α → Restoring β} (h : Reads t g x [item] a)
    (hf : Reads t g (f a) items b) : Reads t g (x >>= f) (item :: items) b :=
  h.bind hf

/-- What is read is put in another form. -/
theorem Reads.andReturn {f : α → β} (h : Reads t g x items a) :
    Reads t g (do return f (← x)) items (f a) := by
  rw [← List.append_nil items]
  exact h.bind (.pure _)

/-- A reader changes nothing but what is left to be read. -/
theorem run_take {r : Reader α} {s : Restoration} {rest : List UInt8}
    (h : r.run s.unread = (.ok a, rest)) : (take r).run s = (.ok a, { s with unread := rest }) := by
  change ((r.run s.unread).1.mapError GraphError.archive,
    { s with unread := (r.run s.unread).2 }) = _
  rw [h]
  rfl

/-- What succeeds has been read off the front of what is unread. -/
theorem exists_of_run_take {r : Reader α} {s s' : Restoration} (h : (take r).run s = (.ok a, s')) :
    ∃ rest, s' = { s with unread := rest } ∧ r.run s.unread = (.ok a, rest) := by
  change ((r.run s.unread).1.mapError GraphError.archive,
    { s with unread := (r.run s.unread).2 }) = _ at h
  rcases hread : r.run s.unread with ⟨e | b, rest⟩
  · rw [hread] at h
    cases congrArg Prod.fst h
  · rw [hread] at h
    cases h
    exact ⟨rest, rfl, rfl⟩

theorem Reads.take {r : Reader α} (h : Wire.Reads r item.encode a) :
    Reads t g (take r) [item] a := fun rest room => by
  refine ⟨room, run_take ?_⟩
  rw [encodeAll_singleton]
  exact h rest

theorem Reads.andReturn_eq {f : α → β} (h : Reads t g x items a) (hf : f a = b) :
    Reads t g (do return f (← x)) items b :=
  hf ▸ h.andReturn

/-- What is read as often as there are elements of a list. -/
theorem Reads.times {l : List β} {item : β → Item} {value : β → α}
    (h : ∀ b ∈ l, Reads t g x [item b] (value b)) :
    Reads t g (times x l.length) (l.map item) (l.map value) := by
  induction l with
  | nil => exact .pure _
  | cons b l ih =>
    exact (h b List.mem_cons_self).next (ih fun c hc => h c (List.mem_cons_of_mem _ hc)).andReturn

/-- What is read for each element of a list. -/
theorem Reads.mapM {f : β → Restoring α} {item : β → γ → List Item} {value : γ → α}
    {l : List β} {k : List γ}
    (h : List.Forall₂ (fun b c => Reads t g (f b) (item b c) (value c)) l k) :
    Reads t g (l.mapM f) ((l.zip k).flatMap fun e => item e.1 e.2) (k.map value) := by
  induction h with
  | nil => exact .pure _
  | cons hb _ ih =>
    rw [List.mapM_cons]
    exact hb.bind ih.andReturn

/-! ## References and texts -/

/-- The numbers of objects can be written. -/
structure Numerable (objects : List Ref) : Prop where
  tags : ∀ r ∈ objects, r.tag < 2 ^ 32
  count : objects.length < 2 ^ 32

/-- Objects can be read back: they have been made, and their numbers and those
    of the symbols can be written. -/
structure Ready (objects : List Ref) (t : SymbolTable) (g : Graph) : Prop
    extends Numerable objects where
  symbols : t.size < 2 ^ 32
  made : ∀ r ∈ objects, g.contains (renumber objects r) = true

variable {objects : List Ref} {r : Ref} {target : Option Ref} {l : List Ref} {text : String}

/-- Objects may change while others are read, as long as they are there. -/
theorem Ready.of_contains {g' : Graph} (h : Ready objects t g)
    (hcontains : ∀ s, g'.contains s = g.contains s) : Ready objects t g' :=
  { h with made := fun r hr => (hcontains _).trans (h.made r hr) }

theorem encode_countItem {n : Nat} (h : n < 2 ^ 32) : (countItem n).encode = littleEndian 4 n := by
  rw [countItem, Item.encode, UInt32.toNat_ofNat_of_lt' h]

/-- A length is let through if there are bytes for as many references. -/
theorem run_takeLength {n : Nat} {room : Room} {rest : List UInt8} (h : n < 2 ^ 32)
    (hrest : n * refSize ≤ rest.length) :
    takeLength.run ⟨(countItem n).encode ++ rest, t, g, room⟩ =
      (.ok n, ⟨rest, t, g, room.reserve n⟩) := by
  have hcount : (take (takeCount refSize)).run ⟨littleEndian 4 n ++ rest, t, g, room⟩ =
    (.ok n, ⟨rest, t, g, room⟩) := run_take (run_takeCount h hrest)
  rw [encode_countItem h]
  exact (run_bind_ok hcount).trans rfl

theorem length_encode_refItem (objects : List Ref) (target : Option Ref) :
    (refItem objects target).encode.length = refSize := by
  rw [refItem]
  split
  · simp [Item.encode, refSize]
  · simp [Item.encode, Item.nullRef, refSize]

/-- A list of references takes the bytes of each of them. -/
theorem length_encodeAll_refItems (l : List (Option Ref)) :
    (encodeAll (l.map (refItem objects))).length = l.length * refSize := by
  induction l with
  | nil => rfl
  | cons target l ih =>
    rw [List.map_cons, encodeAll_cons, List.length_append, length_encode_refItem, ih,
      List.length_cons, Nat.succ_mul, Nat.add_comm]

/-- The references of a list are at least as many bytes as they are checked against. -/
theorem length_le_encodeAll_refItems (objects l : List Ref) (rest : List UInt8) :
    l.length * refSize ≤
      (encodeAll (l.map fun r => refItem objects (some r)) ++ rest).length := by
  have hrefs : (encodeAll ((l.map some).map (refItem objects))).length = _ :=
    length_encodeAll_refItems _
  rw [List.map_map, List.length_map] at hrefs
  rw [List.length_append]
  exact Nat.le_add_right_of_le hrefs.ge

/-- References are read behind their number. -/
theorem takeList_reads {x : Restoring (Option Ref)} (hlength : l.length < 2 ^ 32)
    (hx : ∀ r ∈ l, Reads t g x [refItem objects (some r)] (some (renumber objects r))) :
    Reads t g (do
      let n ← takeLength
      return (← times x n).filterMap id)
      (countItem l.length :: l.map fun r => refItem objects (some r))
      (l.map (renumber objects)) := by
  intro rest room
  -- The references themselves are unread, so there is room for so many.
  have hrest := length_le_encodeAll_refItems objects l rest
  obtain ⟨room', hrun⟩ := Reads.times hx rest (room.reserve l.length)
  refine ⟨room', ?_⟩
  rw [encodeAll_cons, List.append_assoc]
  refine (run_bind_ok (run_takeLength hlength hrest)).trans ((run_bind_ok hrun).trans ?_)
  have hsome : (l.map fun r => some (renumber objects r)).filterMap id =
      l.map (renumber objects) := by
    rw [List.filterMap_map]
    exact List.filterMap_eq_map' ▸ rfl
  rw [← hsome]
  rfl

/-- A reference that was written is read as the new number of its object. -/
theorem takeRef_reads (hnum : Numerable objects) (htarget : ∀ r ∈ target, r ∈ objects) :
    Wire.Reads takeRef (refItem objects target).encode (target.map (renumber objects)) := by
  cases target with
  | none => exact Wire.takeRef_reads 0 0
  | some r =>
    have hr := htarget r rfl
    have hindex : (renumber objects r).index + 1 < 2 ^ 32 := by
      have hlt := index_renumber_lt hr
      have hle : objects.countP (·.tag == r.tag) ≤ objects.length := List.countP_le_length
      have := hnum.count
      omega
    have hread := Wire.takeRef_reads (UInt32.ofNat r.tag)
      (UInt32.ofNat ((renumber objects r).index + 1))
    rw [UInt32.toNat_ofNat_of_lt' (hnum.tags r hr), UInt32.toNat_ofNat_of_lt' hindex] at hread
    rw [refItem, Option.bind_some, archiveIndex?_eq_some hr]
    exact hread

/-- Roots are read as they are written. -/
theorem takeRoots_reads (hnum : Numerable objects) (hlength : l.length < 2 ^ 32)
    (hl : ∀ r ∈ l, r ∈ objects) :
    Reads t g takeRoots (countItem l.length :: l.map fun r => refItem objects (some r))
      (l.map (renumber objects)) :=
  takeList_reads hlength fun r hr => .take <| takeRef_reads hnum fun s hs => by
    cases hs
    exact hl r hr

section

variable (hready : Ready objects t g)

include hready

/-- Saved objects have been made before they are referred to. -/
theorem run_checkRef {rest : List UInt8} {room : Room} (hr : r ∈ objects) :
    (checkRef (renumber objects r)).run ⟨rest, t, g, room⟩ = (.ok (), ⟨rest, t, g, room⟩) := by
  change ((if g.contains (renumber objects r) then _ else _ : Except GraphError Unit), _) = _
  rw [if_pos (hready.made r hr)]
  rfl

theorem checkRef_reads (hr : r ∈ objects) : Reads t g (checkRef (renumber objects r)) [] () :=
  fun _ room => ⟨room, run_checkRef hready hr⟩

/-- A reference is read, and found to name an object. -/
theorem takeTarget_reads (htarget : ∀ r ∈ target, r ∈ objects) :
    Reads t g takeTarget [refItem objects target] (target.map (renumber objects)) := by
  rw [takeTarget]
  refine (Reads.take (takeRef_reads hready.toNumerable htarget)).next ?_
  cases target with
  | none => exact .pure _
  | some r => exact (checkRef_reads hready (htarget r rfl)).bind (.pure _)

/-- A list of references is read behind its length. -/
theorem takeTargets_reads (hlength : l.length < 2 ^ 32) (hl : ∀ r ∈ l, r ∈ objects) :
    Reads t g takeTargets (countItem l.length :: l.map fun r => refItem objects (some r))
      (l.map (renumber objects)) :=
  takeList_reads hlength fun r hr => takeTarget_reads hready fun s hs => by
    cases hs
    exact hl r hr

/-- References are read one by one, and put behind those that have been read. -/
theorem pushTargets_reads (hl : ∀ r ∈ l, r ∈ objects) (pushed : Growing Ref) :
    Reads t g (pushTargets pushed l.length) (l.map fun r => refItem objects (some r))
      (pushed.elements ++ l.map (renumber objects)) := by
  induction l generalizing pushed with
  | nil =>
    rw [List.map_nil, List.map_nil, List.append_nil]
    exact .pure _
  | cons r l ih =>
    have hr : ∀ s ∈ some r, s ∈ objects := fun s hs => by
      cases hs
      exact hl r List.mem_cons_self
    refine (takeTarget_reads hready hr).next fun rest room => ?_
    obtain ⟨room', hrun⟩ := ih (fun s hs => hl s (List.mem_cons_of_mem _ hs))
      (pushed.push (renumber objects r)) rest (room.grow (pushed.push (renumber objects r)))
    refine ⟨room', hrun.trans ?_⟩
    rw [List.map_cons, List.append_cons]
    rfl

/-- Children are read behind their number. -/
theorem takeChildren_reads (hlength : l.length < 2 ^ 32) (hl : ∀ r ∈ l, r ∈ objects) :
    Reads t g takeChildren (countItem l.length :: l.map fun r => refItem objects (some r))
      (l.map (renumber objects)) := by
  intro rest room
  have hrest := length_le_encodeAll_refItems objects l rest
  obtain ⟨room', hrun⟩ := pushTargets_reads hready hl .empty rest room
  refine ⟨room', ?_⟩
  rw [encodeAll_cons, List.append_assoc, encode_countItem hlength]
  exact (run_bind_ok (run_take (run_takeCount hlength hrest))).trans hrun

/-- A text is read back from its id, the empty one from zero. -/
theorem takeSymbol_reads (htext : text = "" ∨ text ∈ t.texts) :
    Reads t g takeSymbol [symbolItem t text] text := by
  obtain ⟨id, hid⟩ := SymbolTable.exists_find? htext
  have hlt : id < 2 ^ 32 := Nat.lt_of_le_of_lt (SymbolTable.le_size_of_find? hid) hready.symbols
  have hitem : (symbolItem t text).encode = littleEndian 4 id := by
    rw [symbolItem, hid]
    exact encode_countItem hlt
  have hread : Wire.Reads (takeNat 4) (symbolItem t text).encode id := hitem ▸ takeNat_reads hlt
  rw [takeSymbol]
  refine (Reads.take hread).next fun rest room => ⟨room, ?_⟩
  have hget : (getThe Restoration : Restoring _).run ⟨encodeAll [] ++ rest, t, g, room⟩ =
    (.ok ⟨rest, t, g, room⟩, ⟨rest, t, g, room⟩) := rfl
  refine (run_bind_ok hget).trans ?_
  rw [SymbolTable.resolve?_of_find? hid]
  rfl

/-! ## Headers and values -/

omit hready in
theorem toInt64_toInt16 {n : Int64} (h : (-0x8000 ≤ n.toInt && n.toInt < 0x8000) = true) :
    n.toInt16.toInt64 = n := by
  rw [Bool.and_eq_true, decide_eq_true_eq, decide_eq_true_eq] at h
  rw [← Int64.toInt_inj, Int16.toInt_toInt64, Int64.toInt_toInt16]
  exact Int.bmod_eq_of_le h.1 h.2

omit hready in
theorem toInt64_toInt32 {n : Int64} (h : (-0x80000000 ≤ n.toInt && n.toInt < 0x80000000) = true) :
    n.toInt32.toInt64 = n := by
  rw [Bool.and_eq_true, decide_eq_true_eq, decide_eq_true_eq] at h
  rw [← Int64.toInt_inj, Int32.toInt_toInt64, Int64.toInt_toInt32]
  exact Int.bmod_eq_of_le h.1 h.2

omit hready in
theorem toUInt64_toUInt16 {n : UInt64} (h : decide (n.toNat < 0x10000) = true) :
    n.toUInt16.toUInt64 = n := by
  rw [← UInt64.toNat_inj, UInt16.toNat_toUInt64, UInt64.toNat_toUInt16]
  exact Nat.mod_eq_of_lt (of_decide_eq_true h)

omit hready in
theorem toUInt64_toUInt32 {n : UInt64} (h : decide (n.toNat < 0x100000000) = true) :
    n.toUInt32.toUInt64 = n := by
  rw [← UInt64.toNat_inj, UInt32.toNat_toUInt64, UInt64.toNat_toUInt32]
  exact Nat.mod_eq_of_lt (of_decide_eq_true h)

/-- A header is read back with the new numbers of its parent and its children. -/
theorem takeHeader_reads {h : Header} (hfile : h.file = "" ∨ h.file ∈ t.texts)
    (hparent : ∀ r ∈ h.parent, r ∈ objects) (hchildren : ∀ r ∈ h.children, r ∈ objects)
    (hlength : h.children.length < 2 ^ 32) :
    Reads t g takeHeader (h.items objects t) (h.map (renumber objects)) := by
  rw [takeHeader, Header.items]
  refine (Reads.take (takeU32_reads h.id)).next ?_
  refine (takeTarget_reads hready hparent).next ?_
  refine (takeSymbol_reads hready hfile).next ?_
  refine (Reads.take (takeU32_reads h.start.line)).next ?_
  refine (Reads.take (takeU16_reads h.start.column)).next ?_
  refine (Reads.take (takeU32_reads h.stop.line)).next ?_
  refine (Reads.take (takeU16_reads h.stop.column)).next ?_
  exact (takeChildren_reads hready hlength hchildren).andReturn

/-- A list says first whether it was made. -/
theorem takeItems_reads {items : Option (List Ref)} (hitems : ∀ l ∈ items, ∀ r ∈ l, r ∈ objects)
    (hlength : ∀ l ∈ items, l.length < 2 ^ 32) :
    Reads t g
      (do
        if ← take takeBool then
          return .refs (some (← takeTargets))
        return .refs none)
      (match items with
        | none => [.bool false]
        | some l => [.bool true, countItem l.length] ++ l.map fun r => refItem objects (some r))
      (Value.refs (items.map (·.map (renumber objects)))) := by
  cases items with
  | none => exact (Reads.take (takeBool_reads false)).next (.pure _)
  | some l =>
    refine (Reads.take (takeBool_reads true)).next ?_
    exact (takeTargets_reads hready (hlength l rfl) (hitems l rfl)).andReturn

/-- A value is read back if it fits its member. -/
theorem takeValue_reads {m : Member} {v : Value} (hfits : v.fits m = true)
    (htext : ∀ s, v = .text s → s = "" ∨ s ∈ t.texts) (href : ∀ r ∈ v.references, r ∈ objects)
    (hlength : ∀ l, v = .refs (some l) → l.length < 2 ^ 32) :
    Reads t g (takeValue m) (v.items objects t m) (v.map (renumber objects)) := by
  -- A case for each kind of member; other values do not fit it. Integers are
  -- written in the width of the member, which loses nothing as they fit.
  obtain ⟨name, content, relation, tags⟩ := m
  cases content with
  | scalar kind =>
    cases kind with
    | bool =>
      cases v with
      | bool b => exact (Reads.take (takeBool_reads b)).andReturn
      | _ => cases hfits
    | int16 =>
      cases v with
      | int n =>
        have hn := congrArg Value.int (toInt64_toInt16 hfits)
        exact (Reads.take (takeI16_reads n.toInt16)).andReturn_eq hn
      | _ => cases hfits
    | int32 =>
      cases v with
      | int n =>
        have hn := congrArg Value.int (toInt64_toInt32 hfits)
        exact (Reads.take (takeI32_reads n.toInt32)).andReturn_eq hn
      | _ => cases hfits
    | int64 =>
      cases v with
      | int n => exact (Reads.take (takeI64_reads n)).andReturn
      | _ => cases hfits
    | uint16 =>
      cases v with
      | uint n =>
        have hn := congrArg Value.uint (toUInt64_toUInt16 hfits)
        exact (Reads.take (takeU16_reads n.toUInt16)).andReturn_eq hn
      | _ => cases hfits
    | uint32 =>
      cases v with
      | uint n =>
        have hn := congrArg Value.uint (toUInt64_toUInt32 hfits)
        exact (Reads.take (takeU32_reads n.toUInt32)).andReturn_eq hn
      | _ => cases hfits
    | uint64 =>
      cases v with
      | uint n => exact (Reads.take (takeU64_reads n)).andReturn
      | _ => cases hfits
    | string | value | delay =>
      cases v with
      | text s => exact (takeSymbol_reads hready (htext s rfl)).andReturn
      | _ => cases hfits
  | object _ card | union _ card =>
    cases card with
    | one =>
      cases v with
      | ref target =>
        have htarget : ∀ r ∈ target, r ∈ objects := by
          rintro r ⟨⟩
          exact href r List.mem_cons_self
        exact (takeTarget_reads hready htarget).andReturn
      | _ => cases hfits
    | many =>
      cases v with
      | refs items =>
        have hitems : ∀ l ∈ items, ∀ r ∈ l, r ∈ objects := by
          rintro l ⟨⟩
          exact href
        have hlengths : ∀ l ∈ items, l.length < 2 ^ 32 := by
          rintro l ⟨⟩
          exact hlength l rfl
        have hread : Reads t g _ _ _ := takeItems_reads hready hitems hlengths
        cases items <;> exact hread
      | _ => cases hfits

end

end Restoring

end ObjectModel
