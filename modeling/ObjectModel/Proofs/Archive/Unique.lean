import Mathlib.Data.List.Basic
import ObjectModel.Proofs.Archive.Format
import ObjectModel.Proofs.Wire.Reading

/-!
# Archives are told by their bytes

No bytes begin with two archives that conform to one model
(`Archive.items_inj`): each part tells what it is before the next one begins, so
that they can be told apart one after the other.
-/

namespace ObjectModel.Archive

open Wire

variable {β : Type} {rest rest' : List UInt8}

theorem countItem_inj {n n' : Nat} (hn : n < 2 ^ 32) (hn' : n' < 2 ^ 32)
    (h : countItem n = countItem n') : n = n' := by
  have hnat := congrArg UInt32.toNat (Item.u32.inj h)
  rwa [UInt32.toNat_ofNat_of_lt' hn, UInt32.toNat_ofNat_of_lt' hn'] at hnat

/-- Things that have one item each, all of one kind, are told by as many items. -/
theorem encodeAll_map_inj {item : β → Item} {k : Kind} {l l' : List β}
    (hkind : ∀ b, (item b).kind = k) (hinj : Function.Injective item)
    (hlength : l.length = l'.length) (hl : ∀ b ∈ l, (item b).Writable)
    (hl' : ∀ b ∈ l', (item b).Writable)
    (h : encodeAll (l.map item) ++ rest = encodeAll (l'.map item) ++ rest') :
    l = l' ∧ rest = rest' := by
  have hkinds (l : List β) : (l.map item).map Item.kind = List.replicate l.length k := by
    rw [List.map_map, List.map_eq_replicate_iff]
    exact fun b _ => hkind b
  refine (encodeAll_inj ?_ (List.forall_mem_map.2 hl) (List.forall_mem_map.2 hl') h).imp_left
    (List.map_injective_iff.2 hinj ·)
  rw [hkinds, hkinds, hlength]

/-- Things that are told by their items are told one after the other. -/
theorem encodeAll_flatMap_inj {items : β → List Item} {l l' : List β} {S : β → Prop}
    (hinj : ∀ b b' rest rest', S b → S b' →
      encodeAll (items b) ++ rest = encodeAll (items b') ++ rest' → b = b' ∧ rest = rest')
    (hlength : l.length = l'.length) (hl : ∀ b ∈ l, S b) (hl' : ∀ b ∈ l', S b)
    (h : encodeAll (l.flatMap items) ++ rest = encodeAll (l'.flatMap items) ++ rest') :
    l = l' ∧ rest = rest' := by
  induction l generalizing l' with
  | nil =>
    obtain rfl := List.eq_nil_of_length_eq_zero hlength.symm
    exact ⟨rfl, h⟩
  | cons b l ih =>
    cases l' with
    | nil => cases hlength
    | cons b' l' =>
      rw [List.forall_mem_cons] at hl hl'
      rw [List.flatMap_cons, List.flatMap_cons, encodeAll_append, encodeAll_append,
        List.append_assoc, List.append_assoc] at h
      obtain ⟨rfl, htail⟩ := hinj b b' _ _ hl.1 hl'.1 h
      exact (ih (Nat.succ.inj hlength) hl.2 hl'.2 htail).imp_left (congrArg (b :: ·))

theorem Pointer.item_inj : Function.Injective Pointer.item := by
  rintro ⟨tag, index⟩ ⟨tag', index'⟩ h
  cases h
  rfl

/-- A list of pointers tells where it ends, as its length comes first. -/
theorem pointerItems_inj {l l' : List Pointer} (hl : l.length < 2 ^ 32) (hl' : l'.length < 2 ^ 32)
    (h : encodeAll (pointerItems l) ++ rest = encodeAll (pointerItems l') ++ rest') :
    l = l' ∧ rest = rest' := by
  have hkind (p : Pointer) : p.item.kind = .ref := rfl
  have hwritable (p : Pointer) : p.item.Writable := trivial
  rw [pointerItems, pointerItems, encodeAll_cons, encodeAll_cons, List.append_assoc,
    List.append_assoc] at h
  obtain ⟨hcount, htail⟩ := Item.encode_inj (by rfl) (by trivial) (by trivial) h
  exact encodeAll_map_inj hkind Pointer.item_inj (countItem_inj hl hl' hcount)
    (fun p _ => hwritable p) (fun p _ => hwritable p) htail

/-- The member tells of what kind a field is, and of
    this kind there is only one with these bytes. -/
theorem Field.items_inj {m : Member} {f f' : Field} (hf : f.Suits m) (hf' : f'.Suits m)
    (h : encodeAll f.items ++ rest = encodeAll f'.items ++ rest') : f = f' ∧ rest = rest' := by
  obtain ⟨name, content, relation, tags⟩ := m
  cases content with
  | scalar kind =>
    -- Each kind of scalar has fields of one form, with one item each.
    cases kind <;> cases f <;> first | exact hf.elim | cases f' <;> first | exact hf'.elim | skip
    all_goals
      obtain ⟨hitems, hrest⟩ := encodeAll_inj (by rfl) (by simp [items, Item.Writable])
        (by simp [items, Item.Writable]) h
      cases hitems
      exact ⟨rfl, hrest⟩
  | object _ card | union _ card =>
    cases card with
    | one =>
      cases f with
      | one target =>
        cases f' with
        | one target' =>
          obtain ⟨hitems, hrest⟩ := encodeAll_inj (by rfl)
            (by simp [items, Pointer.item, Item.Writable])
            (by simp [items, Pointer.item, Item.Writable]) h
          exact ⟨congrArg one (Pointer.item_inj (List.cons.inj hitems).1), hrest⟩
        | _ => exact hf'.elim
      | _ => exact hf.elim
    | many =>
      -- The mark tells whether the list was made.
      cases f with
      | unmade =>
        cases f' with
        | unmade => exact ⟨rfl, List.append_cancel_left h⟩
        | many mark' l' =>
          obtain ⟨hmark, -⟩ := Item.encode_inj (i := .u8 0) (j := .u8 mark') rfl trivial trivial h
          exact absurd (Item.u8.inj hmark).symm hf'.1
        | _ => exact hf'.elim
      | many mark l =>
        cases f' with
        | unmade =>
          obtain ⟨hmark, -⟩ := Item.encode_inj (i := .u8 mark) (j := .u8 0) rfl trivial trivial h
          exact absurd (Item.u8.inj hmark) hf.1
        | many mark' l' =>
          obtain ⟨hmark, htail⟩ :=
            Item.encode_inj (i := .u8 mark) (j := .u8 mark') rfl trivial trivial h
          obtain ⟨rfl, hrest⟩ := pointerItems_inj hf.2 hf'.2 htail
          exact ⟨congrArg (many · l) (Item.u8.inj hmark), hrest⟩
        | _ => exact hf'.elim
      | _ => exact hf.elim

/-- A heading is told part by part. -/
theorem Heading.items_inj {x x' : Heading} (hx : x.children.length < 2 ^ 32)
    (hx' : x'.children.length < 2 ^ 32)
    (h : encodeAll x.items ++ rest = encodeAll x'.items ++ rest') : x = x' ∧ rest = rest' := by
  rw [items, items, encodeAll_append, encodeAll_append, List.append_assoc, List.append_assoc] at h
  obtain ⟨hitems, htail⟩ := encodeAll_inj (by rfl) (by simp [Pointer.item, Item.Writable])
    (by simp [Pointer.item, Item.Writable]) h
  obtain ⟨hchildren, hrest⟩ := pointerItems_inj hx hx' htail
  obtain ⟨id, ⟨tag, index⟩, file, ⟨line, column⟩, ⟨line₁, column₁⟩, children⟩ := x
  obtain ⟨id', ⟨tag', index'⟩, file', ⟨line', column'⟩, ⟨line₁', column₁'⟩, children'⟩ := x'
  cases hitems
  cases hchildren
  exact ⟨rfl, hrest⟩

/-- Field by field, the members tell where one ends and the next begins. -/
theorem fields_inj {members : List Member} {l l' : List Field}
    (hl : List.Forall₂ Field.Suits members l) (hl' : List.Forall₂ Field.Suits members l')
    (h : encodeAll (l.flatMap Field.items) ++ rest = encodeAll (l'.flatMap Field.items) ++ rest') :
    l = l' ∧ rest = rest' := by
  induction hl generalizing l' with
  | nil =>
    cases hl'
    exact ⟨rfl, h⟩
  | @cons m f members l hf _ ih =>
    obtain ⟨f', l', hf', htails, rfl⟩ := List.forall₂_cons_left_iff.1 hl'
    rw [List.flatMap_cons, List.flatMap_cons, encodeAll_append, encodeAll_append,
      List.append_assoc, List.append_assoc] at h
    obtain ⟨rfl, htail⟩ := Field.items_inj hf hf' h
    exact (ih htails htail).imp_left (congrArg (f :: ·))

/-- An entry is told by its bytes, if its members are known. -/
theorem Entry.items_inj {members : List Member} {x x' : Entry} (hx : x.Suits members)
    (hx' : x'.Suits members) (h : encodeAll x.items ++ rest = encodeAll x'.items ++ rest') :
    x = x' ∧ rest = rest' := by
  rw [items, items, encodeAll_append, encodeAll_append, List.append_assoc, List.append_assoc] at h
  obtain ⟨hheading, htail⟩ := Heading.items_inj hx.children hx'.children h
  obtain ⟨hfields, hrest⟩ := fields_inj hx.fields hx'.fields htail
  exact ⟨by cases x; cases x'; cases hheading; cases hfields; rfl, hrest⟩

/-- The numbers of objects of the tags are told by their items. -/
theorem counts_inj {l l' : List Section} (hlength : l.length = l'.length)
    (hl : ∀ s ∈ l, s.tag < 2 ^ 32 ∧ s.entries.length < 2 ^ 32)
    (hl' : ∀ s ∈ l', s.tag < 2 ^ 32 ∧ s.entries.length < 2 ^ 32)
    (h : encodeAll (l.flatMap fun s => [countItem s.tag, countItem s.entries.length]) ++ rest =
      encodeAll (l'.flatMap fun s => [countItem s.tag, countItem s.entries.length]) ++ rest') :
    l.map (fun s => (s.tag, s.entries.length)) = l'.map (fun s => (s.tag, s.entries.length)) ∧
      rest = rest' := by
  let items (c : Nat × Nat) : List Item := [countItem c.1, countItem c.2]
  have hinj (c c' : Nat × Nat) (rest rest' : List UInt8) (hc : c.1 < 2 ^ 32 ∧ c.2 < 2 ^ 32)
      (hc' : c'.1 < 2 ^ 32 ∧ c'.2 < 2 ^ 32)
      (h : encodeAll (items c) ++ rest = encodeAll (items c') ++ rest') :
      c = c' ∧ rest = rest' := by
    obtain ⟨hitems, hrest⟩ := encodeAll_inj (by rfl) (by simp [items, countItem, Item.Writable])
      (by simp [items, countItem, Item.Writable]) h
    obtain ⟨htag, hitems⟩ := List.cons.inj hitems
    exact ⟨Prod.ext (countItem_inj hc.1 hc'.1 htag)
      (countItem_inj hc.2 hc'.2 (List.cons.inj hitems).1), hrest⟩
  refine encodeAll_flatMap_inj hinj (by simp [hlength]) (List.forall_mem_map.2 hl)
    (List.forall_mem_map.2 hl') ?_
  rwa [List.flatMap_map, List.flatMap_map]

/-- The objects of the tags are told by their items, if their numbers are known. -/
theorem sections_inj {schema : Schema} {l l' : List Section}
    (hcounts : l.map (fun s => (s.tag, s.entries.length)) =
      l'.map (fun s => (s.tag, s.entries.length)))
    (hl : ∀ s ∈ l, ∃ e, schema.entityAt? s.tag = some e ∧
      ∀ x ∈ s.entries, x.Suits (schema.membersBaseFirst e))
    (hl' : ∀ s ∈ l', ∃ e, schema.entityAt? s.tag = some e ∧
      ∀ x ∈ s.entries, x.Suits (schema.membersBaseFirst e))
    (h : encodeAll (l.flatMap fun s => s.entries.flatMap Entry.items) ++ rest =
      encodeAll (l'.flatMap fun s => s.entries.flatMap Entry.items) ++ rest') :
    l = l' ∧ rest = rest' := by
  induction l generalizing l' with
  | nil =>
    obtain rfl := List.map_eq_nil_iff.1 hcounts.symm
    exact ⟨rfl, h⟩
  | cons s l ih =>
    cases l' with
    | nil => cases hcounts
    | cons s' l' =>
      rw [List.forall_mem_cons] at hl hl'
      obtain ⟨hcount, htails⟩ := List.cons.inj hcounts
      obtain ⟨htag, hlength⟩ := Prod.mk.inj hcount
      obtain ⟨e, he, hs⟩ := hl.1
      obtain ⟨e', he', hs'⟩ := hl'.1
      obtain rfl := Option.some.inj (he.symm.trans (htag ▸ he'))
      rw [List.flatMap_cons, List.flatMap_cons, encodeAll_append, encodeAll_append,
        List.append_assoc, List.append_assoc] at h
      obtain ⟨hentries, htail⟩ := encodeAll_flatMap_inj
        (fun _ _ _ _ hx hx' => Entry.items_inj hx hx') hlength hs hs' h
      obtain ⟨rfl, hrest⟩ := ih htails hl.2 hl'.2 htail
      exact ⟨by cases s; cases s'; cases htag; cases hentries; rfl, hrest⟩

/-- No bytes begin with two archives that conform to one model. -/
theorem items_inj {m : Model} {a a' : Archive} (ha : a.Conforms m) (ha' : a'.Conforms m)
    (h : encodeAll a.items ++ rest = encodeAll a'.items ++ rest') : a = a' ∧ rest = rest' := by
  -- The parts are told apart from the left, since each says how much of it there is.
  simp only [items, encodeAll_append, List.append_assoc] at h
  obtain ⟨hfirst, hsymbols⟩ := encodeAll_inj (by rfl) (by simp [countItem, Item.Writable])
    (by simp [countItem, Item.Writable]) h
  obtain ⟨hpreamble, hcount⟩ := List.cons.inj hfirst
  have hlength := countItem_inj ha.symbolCount ha'.symbolCount (List.cons.inj hcount).1
  obtain ⟨hsymbols, hroots⟩ := encodeAll_map_inj (k := .text) (fun _ => rfl)
    (fun _ _ => Item.text.inj) hlength ha.symbols ha'.symbols hsymbols
  obtain ⟨hroots, hcounts⟩ := pointerItems_inj ha.rootCount ha'.rootCount hroots
  have htags := congrArg List.length (ha.tags.trans ha'.tags.symm)
  rw [List.length_map, List.length_map] at htags
  obtain ⟨hcounts, hentries⟩ := counts_inj htags ha.counts ha'.counts hcounts
  obtain ⟨hsections, hrest⟩ := sections_inj hcounts ha.entries ha'.entries hentries
  obtain ⟨preamble, symbols, roots, sections⟩ := a
  obtain ⟨preamble', symbols', roots', sections'⟩ := a'
  cases hpreamble
  cases hsymbols
  cases hroots
  cases hsections
  exact ⟨rfl, hrest⟩

end ObjectModel.Archive
