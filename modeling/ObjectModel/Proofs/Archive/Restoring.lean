import ObjectModel.Proofs.Archive.Saved
import ObjectModel.Proofs.Graph.Growth
import ObjectModel.Proofs.Schema.Tags

/-!
# Restoring what was saved

An archive that was saved is restored part by part, in the order in which it
was written: the symbols (`Restoring.run_takeSymbols`), the roots, the objects,
which are made first (`Restoring.run_makeObjects`) and then read one after the
other (`Restoring.run_takeObjects`), each into its place.

* `Graph.Renumbered`: a graph has the objects of another one under their new
  numbers;
* `Model.restore_save`: what is saved is restored as such a graph.
-/

namespace ObjectModel

open Wire

namespace Restoring

variable {t : SymbolTable} {g : Graph} {rest : List UInt8} {room : Room}

theorem run_changeGraph {f : Graph → Except GraphError Graph} {g' : Graph} (h : f g = .ok g') :
    (changeGraph f).run ⟨rest, t, g, room⟩ = (.ok (), ⟨rest, t, g', room⟩) := by
  unfold changeGraph
  rw [ExceptT.run, h]

theorem run_takePreamble :
    (take takePreamble).run ⟨(Item.preamble .current).encode ++ rest, t, g, room⟩ =
      (.ok .current, ⟨rest, t, g, room⟩) :=
  run_take (takePreamble_reads rest)

/-- Where each element takes a number of bytes, the
    list takes them for each of its elements. -/
theorem length_encodeAll_flatMap {α : Type} {l : List α} {items : α → List Item} {k : Nat}
    (h : ∀ a ∈ l, k ≤ (encodeAll (items a)).length) :
    l.length * k ≤ (encodeAll (l.flatMap items)).length := by
  induction l with
  | nil => exact Nat.le_of_eq (Nat.zero_mul _)
  | cons a l ih =>
    rw [List.flatMap_cons, encodeAll_append, List.length_append, List.length_cons, Nat.succ_mul,
      Nat.add_comm]
    exact Nat.add_le_add (h a List.mem_cons_self) (ih fun b hb => h b (List.mem_cons_of_mem _ hb))

/-! ## Symbols -/

theorem run_takeText {s : String} (hs : s.utf8ByteSize < 2 ^ 32) :
    Restoring.takeText.run ⟨(Item.text s).encode ++ rest, t, g, room⟩ =
      (.ok (), ⟨rest, (t.intern s).2, g, room⟩) := by
  have htext : (take Wire.takeText).run ⟨(Item.text s).encode ++ rest, t, g, room⟩ =
    (.ok s, ⟨rest, t, g, room⟩) := run_take (takeText_reads hs rest)
  exact (run_bind_ok htext).trans rfl

variable (g rest room) in
/-- The symbols are entered in the order in which they were written. -/
theorem run_times_takeText {texts : List String} (htexts : ∀ s ∈ texts, s.utf8ByteSize < 2 ^ 32) :
    ∃ l, (times Restoring.takeText texts.length).run
      ⟨encodeAll (texts.map .text) ++ rest, t, g, room⟩ =
        (.ok l, ⟨rest, t.internAll texts, g, room⟩) := by
  induction texts generalizing t with
  | nil => exact ⟨[], rfl⟩
  | cons s texts ih =>
    obtain ⟨l, hl⟩ := ih (t := (t.intern s).2) fun s hs => htexts s (List.mem_cons_of_mem _ hs)
    refine ⟨() :: l, ?_⟩
    rw [List.map_cons, encodeAll_cons, List.append_assoc]
    exact (run_bind_ok (run_takeText (htexts s List.mem_cons_self))).trans
      ((run_bind_ok hl).trans rfl)

/-- There are bytes enough for the count of the symbols to be let through. -/
theorem length_encodeAll_texts (texts : List String) :
    texts.length * symbolMinSize ≤ (encodeAll (texts.map .text)).length := by
  rw [List.map_eq_flatMap]
  refine length_encodeAll_flatMap fun s _ => ?_
  simp [encodeAll, Item.encode, symbolMinSize]

/-- Symbols are read as they are written. -/
theorem run_takeSymbols (ht : SymbolTable.Proper t.texts) (hsize : t.size < 2 ^ 32)
    (htexts : ∀ s ∈ t.texts, s.utf8ByteSize < 2 ^ 32) :
    takeSymbols.run ⟨encodeAll (countItem t.size :: t.texts.map .text) ++ rest, {}, g, room⟩ =
      (.ok (), ⟨rest, t, g, room⟩) := by
  obtain ⟨l, hl⟩ := run_times_takeText (t := {}) g rest room htexts
  rw [SymbolTable.internAll_texts ht] at hl
  have hrest : t.size * symbolMinSize ≤ (encodeAll (t.texts.map .text) ++ rest).length := by
    rw [List.length_append]
    exact Nat.le_add_right_of_le (length_encodeAll_texts t.texts)
  rw [encodeAll_cons, List.append_assoc, encode_countItem hsize]
  have hcount : (take (takeCount symbolMinSize)).run
      ⟨littleEndian 4 t.size ++ (encodeAll (t.texts.map .text) ++ rest), {}, g, room⟩ =
        (.ok t.size, ⟨encodeAll (t.texts.map .text) ++ rest, {}, g, room⟩) :=
    run_take (run_takeCount hsize hrest)
  refine (run_bind_ok hcount).trans ?_
  exact (run_bind_ok hl).trans rfl

/-! ## Making objects -/

/-- The graph goes by the model `m`, and has `n tag` objects of each tag. -/
structure Counts (m : Model) (n : Nat → Nat) (g : Graph) : Prop where
  model : g.model = m
  stores : g.stores.length = m.layouts.length
  count : ∀ tag, g.count tag = n tag

variable {m : Model} {n : Nat → Nat} {tag : Nat} {e : Entity}

/-- An empty graph has no objects of any tag. -/
theorem Counts.empty (m : Model) : Counts m (fun _ => 0) (.empty m) where
  model := rfl
  stores := List.length_map _
  count tag := by
    rw [Graph.count, Graph.empty, List.getElem?_map]
    cases m.layouts[tag]? <;> rfl

/-- An object is made, which takes an id. -/
theorem run_makeObject (hm : m.Built) (he : m.schema.entityAt? tag = some e)
    (hc : e.kind.isConcrete = true) (hg : Counts m n g) (hleft : g.IdsLeft 1) :
    ∃ g', (makeObject tag).run ⟨rest, t, g, room⟩ = (.ok (), ⟨rest, t, g', room⟩) ∧
      Counts m (fun u => n u + if u = tag then 1 else 0) g' ∧
      g'.lastId.toNat = g.lastId.toNat + 1 := by
  have hmodel := hg.model
  subst hmodel
  obtain ⟨l, hl, hcreate⟩ := Graph.exists_createTag hm he hc hleft
  have htag : tag < g.stores.length := hg.stores ▸ Model.lt_of_layout_eq_ok hl
  refine ⟨_, run_changeGraph (map_eq_ok.2 ⟨_, hcreate, rfl⟩), ⟨rfl, ?_, fun u => ?_⟩,
    Graph.toNat_succ hleft⟩
  · exact (List.length_modify _ _ _).trans hg.stores
  · exact (Graph.count_append htag).trans (by rw [hg.count])

/-- As many objects are made as there are ids for. -/
theorem run_times_makeObject (hm : m.Built) (he : m.schema.entityAt? tag = some e)
    (hc : e.kind.isConcrete = true) (hg : Counts m n g) {k : Nat} (hleft : g.IdsLeft k) :
    ∃ l g', (times (makeObject tag) k).run ⟨rest, t, g, room⟩ = (.ok l, ⟨rest, t, g', room⟩) ∧
      Counts m (fun u => n u + if u = tag then k else 0) g' ∧
      g'.lastId.toNat = g.lastId.toNat + k := by
  induction k generalizing n g with
  | zero => exact ⟨[], g, rfl, ⟨hg.model, hg.stores, fun u => by simp [hg.count]⟩, rfl⟩
  | succ k ih =>
    obtain ⟨g₁, h₁, hg₁, hid₁⟩ := run_makeObject hm he hc hg (hleft.mono (Nat.le_add_left 1 k))
    have hleft₁ : g₁.IdsLeft k := by
      rw [Graph.IdsLeft, hid₁, Nat.add_assoc, Nat.add_comm 1 k]
      exact hleft
    obtain ⟨l, g', hl, hg', hid'⟩ := ih hg₁ hleft₁
    refine ⟨() :: l, g', (run_bind_ok h₁).trans ((run_bind_ok hl).trans rfl),
      ⟨hg'.model, hg'.stores, fun u => ?_⟩, by omega⟩
    rw [hg'.count]
    split <;> omega

theorem run_takeCountItem {k : Nat} (h : k < 2 ^ 32) :
    (take (takeNat 4)).run ⟨(countItem k).encode ++ rest, t, g, room⟩ =
      (.ok k, ⟨rest, t, g, room⟩) := by
  rw [encode_countItem h]
  exact run_take (takeNat_reads h rest)

/-- A tag and a number are read, and so many objects are made before the next tag. -/
theorem run_takeCounts_cons (t : SymbolTable) (room : Room) (hm : m.Built) (htag : tag < 2 ^ 32)
    (he : m.schema.entityAt? tag = some e) (hc : e.kind.isConcrete = true) {k total : Nat}
    (hk : k < 2 ^ 32) (hcheck : (total + k) * objectMinSize ≤ rest.length) (hg : Counts m n g)
    (hleft : g.IdsLeft k) :
    ∃ g₁, Counts m (fun u => n u + if u = tag then k else 0) g₁ ∧
      g₁.lastId.toNat = g.lastId.toNat + k ∧ ∀ tags counts s,
        (takeCounts (total + k) tags).run ⟨rest, t, g₁, room⟩ = (.ok counts, s) →
          (takeCounts total (tag :: tags)).run
            ⟨(countItem tag).encode ++ ((countItem k).encode ++ rest), t, g, room⟩ =
              (.ok ((tag, k) :: counts), s) := by
  obtain ⟨l, g₁, hmake, hg₁, hid₁⟩ : ∃ l g₁, (times (makeObject tag) k).run ⟨rest, t, g, room⟩ =
      (.ok l, ⟨rest, t, g₁, room⟩) ∧ _ := run_times_makeObject hm he hc hg hleft
  refine ⟨g₁, hg₁, hid₁, fun tags counts s hrun => ?_⟩
  rw [takeCounts]
  refine (run_bind_ok (run_takeCountItem htag)).trans ?_
  rw [if_neg (not_not.2 rfl)]
  refine (run_bind_ok (run_takeCountItem hk)).trans ?_
  refine (run_bind_ok (run_take (run_checkCount hcheck))).trans ((run_bind_ok hmake).trans ?_)
  exact (run_bind_ok hrun).trans rfl

/-- Objects are counted and made. -/
theorem run_takeCounts (hm : m.Built) {tags : List Nat} (hnodup : tags.Nodup)
    (htags : ∀ tag ∈ tags, tag < 2 ^ 32 ∧
      ∃ e, m.schema.entityAt? tag = some e ∧ e.kind.isConcrete = true)
    {count : Nat → Nat} {total : Nat} (hcount : ∀ tag, count tag < 2 ^ 32)
    (hrest : (total + (tags.map count).sum) * objectMinSize ≤ rest.length)
    (hg : Counts m n g) (hleft : g.IdsLeft (tags.map count).sum) :
    ∃ g', (takeCounts total tags).run
      ⟨encodeAll (tags.flatMap fun tag => [countItem tag, countItem (count tag)]) ++ rest, t, g,
        room⟩ = (.ok (tags.map fun tag => (tag, count tag)), ⟨rest, t, g', room⟩) ∧
      Counts m (fun u => n u + if u ∈ tags then count u else 0) g' := by
  induction tags generalizing n g total with
  | nil => exact ⟨g, rfl, hg.model, hg.stores, fun u => by simp [hg.count]⟩
  | cons tag tags ih =>
    obtain ⟨hnew, hnodup⟩ := List.nodup_cons.1 hnodup
    obtain ⟨htag, e, he, hc⟩ := htags tag List.mem_cons_self
    rw [List.map_cons, List.sum_cons, ← Nat.add_assoc] at hrest
    rw [List.map_cons, List.sum_cons] at hleft
    -- What is unread once the objects of the first tag have been counted.
    let unread := encodeAll (tags.flatMap fun tag => [countItem tag, countItem (count tag)]) ++ rest
    have hcheck : (total + count tag) * objectMinSize ≤ unread.length := by
      have := Nat.mul_le_mul_right objectMinSize
        (Nat.le_add_right (total + count tag) (tags.map count).sum)
      simp only [unread, List.length_append]
      omega
    obtain ⟨g₁, hg₁, hid₁, hcons⟩ := run_takeCounts_cons t room hm htag he hc (hcount tag) hcheck
      hg (hleft.mono (Nat.le_add_right _ _))
    have hleft₁ : g₁.IdsLeft (tags.map count).sum := by
      rw [Graph.IdsLeft, hid₁, Nat.add_assoc]
      exact hleft
    obtain ⟨g', h', hg'⟩ :=
      ih hnodup (fun u hu => htags u (List.mem_cons_of_mem _ hu)) hrest hg₁ hleft₁
    refine ⟨g', ?_, hg'.model, hg'.stores, fun u => ?_⟩
    · rw [List.flatMap_cons, encodeAll_append, encodeAll_cons, encodeAll_singleton,
        List.append_assoc, List.append_assoc]
      exact hcons _ _ _ h'
    · -- The tag does not come again, so none of its objects are added later.
      rw [hg'.count, Nat.add_assoc]
      congr 1
      by_cases hu : u = tag
      · subst hu
        simp [hnew]
      · simp [hu]

/-! ## Objects -/

variable {objects : List Ref} {r : Ref} {o : Object}

/-- There are bytes enough for the count of the objects
    to be let through, as each has a header. -/
theorem length_headerItems (h : Header) :
    objectMinSize ≤ (encodeAll (h.items objects t)).length := by
  have hu32 (n : UInt32) : (Item.u32 n).encode.length = 4 := length_littleEndian 4 _
  have hu16 (n : UInt16) : (Item.u16 n).encode.length = 2 := length_littleEndian 2 _
  simp only [Header.items, symbolItem, countItem, encodeAll, List.flatMap_append, List.flatMap_cons,
    List.length_append, hu32, hu16, length_encode_refItem, objectMinSize]
  omega

/-- The values of an object are read back member by member. -/
theorem takeValues_reads (hready : Ready objects t g) {members : List Member}
    (hfits : List.Forall₂ (fun m v => Value.fits m v = true) members o.values)
    (hwritable : o.Writable) (hnext : ∀ s ∈ o.neighbours, s ∈ objects)
    (htexts : ∀ s ∈ o.texts, s = "" ∨ s ∈ t.texts) :
    Reads t g (members.mapM takeValue) (o.valueItems objects t members)
      (o.values.map (·.map (renumber objects))) := by
  refine Reads.mapM (List.forall₂_iff_zip.2 ⟨hfits.length_eq, fun {m v} hmv => ?_⟩)
  have hv := (List.of_mem_zip hmv).2
  refine takeValue_reads hready (List.forall₂_zip hfits hmv) (fun s hs => htexts s ?_)
    (fun s hs => hnext s ?_) (fun items hitems => hwritable.lists items (hitems ▸ hv))
  · exact Object.mem_texts.2 (.inr (hs ▸ hv))
  · exact Object.mem_neighbours.2 (.inr (.inr ⟨v, hv, hs⟩))

variable (rest room) in
/-- An object is read into one that has been made. -/
theorem run_takeObject (hm : g.model.Built) (hready : Ready objects t g) (hr : r ∈ objects)
    (he : g.schema.entityAt? r.tag = some e) (hc : e.kind.isConcrete = true)
    (hfits : List.Forall₂ (fun m v => Value.fits m v = true) (g.schema.membersBaseFirst e) o.values)
    (hwritable : o.Writable) (hnext : ∀ s ∈ o.neighbours, s ∈ objects)
    (htexts : ∀ s ∈ o.texts, s = "" ∨ s ∈ t.texts) :
    ∃ g' room', (takeObject (renumber objects r)).run
        ⟨encodeAll (o.items objects t (g.schema.membersBaseFirst e)) ++ rest, t, g, room⟩ =
          (.ok (), ⟨rest, t, g', room'⟩) ∧
      g'.model = g.model ∧ (∀ s, g'.contains s = g.contains s) ∧
      g'.object? (renumber objects r) = some (o.map (renumber objects)) ∧
      ∀ s ≠ renumber objects r, g'.object? s = g.object? s := by
  obtain ⟨made, hmade⟩ := Graph.contains_iff.1 (hready.made r hr)
  obtain ⟨l, hl, hmembers⟩ := hm.exists_layout he hc
  -- The header is read in the graph as it is,
  -- the values in the one with the header.
  let header := o.header.map (renumber objects)
  let values := o.values.map (·.map (renumber objects))
  let g₁ := g.modify (renumber objects r) fun o => { o with header }
  let g₂ := g₁.modify (renumber objects r) fun o => { o with values }
  have hmade₁ : g₁.object? (renumber objects r) = some { made with header } := by
    rw [Graph.object?_modify_self, hmade]
    rfl
  have hheader : g.updateHeader (renumber objects r) (fun _ => header) = .ok g₁ :=
    bind_eq_ok.2 ⟨made, Graph.object_eq_ok.2 hmade, rfl⟩
  have hvalues : g₁.setValues (renumber objects r) values = .ok g₂ :=
    bind_eq_ok.2 ⟨_, Graph.object_eq_ok.2 hmade₁, rfl⟩
  have hready₁ : Ready objects t g₁ := hready.of_contains fun _ => Graph.contains_modify _
  obtain ⟨room₁, hrun₁⟩ := takeHeader_reads hready (h := o.header) (htexts _ List.mem_cons_self)
    (fun s hs => hnext s (Object.mem_neighbours.2 (.inl hs)))
    (fun s hs => hnext s (Object.mem_neighbours.2 (.inr (.inl hs)))) hwritable.children
      (encodeAll (o.valueItems objects t (g.schema.membersBaseFirst e)) ++ rest) room
  obtain ⟨room₂, hrun₂⟩ := takeValues_reads hready₁ hfits hwritable hnext htexts rest room₁
  refine ⟨g₂, room₂, ?_, rfl, fun s => ?_, ?_, fun s hs => ?_⟩
  · rw [Object.items, encodeAll_append, List.append_assoc]
    refine (run_bind_ok hrun₁).trans ((run_bind_ok (run_changeGraph hheader)).trans ?_)
    have hlayout : (fromGraph (·.members (renumber objects r))).run
        ⟨encodeAll (o.valueItems objects t (g.schema.membersBaseFirst e)) ++ rest, t, g₁, room₁⟩ =
          (.ok (g.schema.membersBaseFirst e), _) :=
      congrArg (·, _) (map_eq_ok.2 ⟨l, hl, hmembers⟩)
    refine (run_bind_ok hlayout).trans ((run_bind_ok hrun₂).trans ?_)
    exact run_changeGraph hvalues
  · exact (Graph.contains_modify _).trans (Graph.contains_modify _)
  · rw [Graph.object?_modify_self, hmade₁]
    rfl
  · rw [Graph.object?_modify_of_ne _ hs, Graph.object?_modify_of_ne _ hs]

section

variable {source : Graph} {roots todo : List Ref} (hg : source.WellTyped)
  (hreach : source.reachable roots = .ok objects) (hfit : source.FitsArchive roots objects)

include hg hreach hfit

variable (rest room) in
/-- The objects of a list are read one after the other, and no others change. -/
theorem run_takeObjects (htodo : ∀ r ∈ todo, r ∈ objects) (hnodup : todo.Nodup)
    (hm : g.model.Built) (hs : g.schema = source.schema)
    (hready : Ready objects (source.symbols objects) g) :
    ∃ g' room', ((todo.map (renumber objects)).forM takeObject).run
        ⟨encodeAll (todo.flatMap (source.bodyItems objects (source.symbols objects))) ++ rest,
          source.symbols objects, g, room⟩ =
        (.ok (), ⟨rest, source.symbols objects, g', room'⟩) ∧
      g'.model = g.model ∧ (∀ s, g'.contains s = g.contains s) ∧
      (∀ r ∈ todo, ∀ o, source.object? r = some o →
        g'.object? (renumber objects r) = some (o.map (renumber objects))) ∧
      ∀ s ∉ todo.map (renumber objects), g'.object? s = g.object? s := by
  induction todo generalizing g room with
  | nil =>
    exact ⟨g, room, rfl, rfl, fun _ => rfl, fun _ h => absurd h List.not_mem_nil, fun _ _ => rfl⟩
  | cons r todo ih =>
    obtain ⟨hnew, hnodup⟩ := List.nodup_cons.1 hnodup
    have hr := htodo r List.mem_cons_self
    have htodo := fun s hs => htodo s (List.mem_cons_of_mem _ hs)
    obtain ⟨o, ho⟩ := Graph.object_of_mem_reachable hreach hr
    obtain ⟨e, he, hc, hfits⟩ := hg.typed r o ho
    obtain ⟨g₁, room₁, hrun₁, hmodel₁, hcontains₁, hobject₁, hothers₁⟩ := run_takeObject
      (encodeAll (todo.flatMap (source.bodyItems objects (source.symbols objects))) ++ rest) room
      hm hready hr (hs ▸ he) hc (hs ▸ hfits) (hfit.writable r hr o ho)
      (hg.neighbours_reachable hreach hr ho) (fun s => Graph.mem_texts_symbols hr ho)
    have hready₁ : Ready objects (source.symbols objects) g₁ := hready.of_contains hcontains₁
    obtain ⟨g', room', hrun, hmodel, hcontains, hobject, hothers⟩ := ih room₁ htodo
      hnodup (hmodel₁ ▸ hm) ((congrArg Model.schema hmodel₁).trans hs) hready₁
    -- The object is not among those that follow, under its number either.
    have hrenumber : renumber objects r ∉ todo.map (renumber objects) := by
      rintro h
      obtain ⟨s, hs, heq⟩ := List.mem_map.1 h
      exact hnew (renumber_injOn (htodo s hs) hr heq ▸ hs)
    refine ⟨g', room', ?_, hmodel.trans hmodel₁, fun s => (hcontains s).trans (hcontains₁ s),
      ?_, ?_⟩
    · rw [List.flatMap_cons, Graph.bodyItems_eq ho he, encodeAll_append, List.append_assoc, ← hs]
      exact (run_bind_ok hrun₁).trans hrun
    · intro s hs o' ho'
      rcases List.mem_cons.1 hs with rfl | hs
      · obtain rfl := Option.some.inj (ho.symm.trans ho')
        rw [hothers _ hrenumber, hobject₁]
      · exact hobject s hs o' ho'
    · intro s hs
      rw [List.map_cons, List.mem_cons, not_or] at hs
      rw [hothers s hs.2, hothers₁ s hs.1]

omit hfit in
/-- An archive has enough bytes for the headers of its objects. -/
theorem length_bodies :
    objects.length * objectMinSize ≤
      (encodeAll (objects.flatMap (source.bodyItems objects t))).length := by
  refine length_encodeAll_flatMap fun r hr => ?_
  obtain ⟨o, ho⟩ := Graph.object_of_mem_reachable hreach hr
  obtain ⟨e, he, -⟩ := hg.typed r o ho
  rw [Graph.bodyItems_eq ho he, Object.items, encodeAll_append, List.length_append]
  exact Nat.le_add_right_of_le (length_headerItems o.header)

end

/-! ## Archives -/

/-- The roots are found among the objects that were restored. -/
theorem run_forM_checkRef (hready : Ready objects t g) {roots : List Ref}
    (hroots : ∀ r ∈ roots, r ∈ objects) :
    ((roots.map (renumber objects)).forM checkRef).run ⟨rest, t, g, room⟩ =
      (.ok (), ⟨rest, t, g, room⟩) := by
  induction roots with
  | nil => rfl
  | cons r roots ih =>
    exact (run_bind_ok (run_checkRef hready (hroots r List.mem_cons_self))).trans
      (ih fun s hs => hroots s (List.mem_cons_of_mem _ hs))

/-- The objects of all tags are those of one tag after the other. -/
theorem forM_counts (f : Ref → Restoring Unit) (tags : List Nat) (count : Nat → Nat) :
    ((tags.map fun tag => (tag, count tag)).forM fun (tag, count) =>
      (List.range count).forM fun index => f ⟨tag, index⟩) =
        (tags.flatMap fun tag => (List.range (count tag)).map (⟨tag, ·⟩)).forM f := by
  induction tags with
  | nil => rfl
  | cons tag tags ih =>
    simp only [List.forM_eq_forM] at ih ⊢
    rw [List.map_cons, List.forM_cons, ih, List.flatMap_cons, List.forM_append, List.forM_map]

section

variable {source : Graph} {roots : List Ref} (hg : source.WellTyped)
  (hnum : source.schema.Numbered) (hreach : source.reachable roots = .ok objects)
  (hfit : source.FitsArchive roots objects)

include hg hnum hreach

theorem tag_mem_concrete (hr : r ∈ objects) : r.tag ∈ source.schema.concrete.map (·.tag) := by
  obtain ⟨o, ho⟩ := Graph.object_of_mem_reachable hreach hr
  obtain ⟨e, he, hc, -⟩ := hg.typed r o ho
  exact hnum.mem_concrete.2 ⟨e, he, hc⟩

/-- Tag by tag, the new numbers of the saved objects are those that restoring gives. -/
theorem map_renumber_reachable : objects.map (renumber objects) =
    (source.schema.concrete.map (·.tag)).flatMap fun tag =>
      (List.range (objects.countP (·.tag == tag))).map (⟨tag, ·⟩) :=
  map_renumber (Graph.sorted_reachable hreach) hnum.concrete_ascending fun _ hr =>
    tag_mem_concrete hg hnum hreach hr

/-- The objects of all tags are all objects. -/
theorem sum_counts :
    ((source.schema.concrete.map (·.tag)).map fun tag => objects.countP (·.tag == tag)).sum =
      objects.length := by
  have hlength := congrArg List.length (map_renumber_reachable hg hnum hreach)
  rw [List.length_map, List.length_flatMap] at hlength
  simpa using hlength.symm

include hfit

/-- The numbers of objects that fit in an archive can be written. -/
theorem numerable_reachable : Numerable objects where
  tags r hr := by
    obtain ⟨e, he, -⟩ := hnum.mem_concrete.1 (tag_mem_concrete hg hnum hreach hr)
    exact Nat.lt_of_lt_of_le (List.getElem?_eq_some_iff.1 he).1 hfit.entityCount
  count := hfit.objectCount

variable (t rest room) in
/-- The objects are made that are to be read. -/
theorem run_makeObjects (hm : m.Built) (hs : m.schema = source.schema)
    (hrest : objects.length * objectMinSize ≤ rest.length) :
    ∃ g', (takeCounts 0 (source.schema.concrete.map (·.tag))).run
        ⟨encodeAll ((source.schema.concrete.map (·.tag)).flatMap fun tag =>
          [countItem tag, countItem (objects.countP (·.tag == tag))]) ++ rest, t, .empty m, room⟩ =
        (.ok ((source.schema.concrete.map (·.tag)).map fun tag =>
          (tag, objects.countP (·.tag == tag))), ⟨rest, t, g', room⟩) ∧
      g'.model = m ∧ ∀ s, g'.contains s = true ↔ ∃ r ∈ objects, renumber objects r = s := by
  have htags : ∀ tag ∈ source.schema.concrete.map (·.tag), tag < 2 ^ 32 ∧
      ∃ e, m.schema.entityAt? tag = some e ∧ e.kind.isConcrete = true := by
    intro tag htag
    obtain ⟨e, he, hc⟩ := hnum.mem_concrete.1 htag
    have hlt := (List.getElem?_eq_some_iff.1 he).1
    exact ⟨Nat.lt_of_lt_of_le hlt hfit.entityCount, e, hs ▸ he, hc⟩
  have hcount tag : objects.countP (·.tag == tag) < 2 ^ 32 :=
    Nat.lt_of_le_of_lt List.countP_le_length hfit.objectCount
  have hsum := sum_counts hg hnum hreach
  -- An archive has fewer objects than there are ids.
  have hleft : (Graph.empty m).IdsLeft objects.length := by
    rw [Graph.IdsLeft, Graph.empty, UInt32.toNat_zero, Nat.zero_add]
    exact hfit.objectCount
  rw [← hsum, ← Nat.zero_add (List.sum _)] at hrest
  obtain ⟨g', hrun, hcounts⟩ := run_takeCounts hm (hnum.concrete_ascending.imp Nat.ne_of_lt) htags
    hcount hrest (.empty m) (hsum ▸ hleft)
  refine ⟨g', hrun, hcounts.model, fun s => ?_⟩
  -- Objects are numbered by their place within the tag, which is what the counts bound.
  rw [Graph.contains_iff_index_lt, hcounts.count, Nat.zero_add]
  constructor
  · intro hlt
    split at hlt
    · exact exists_renumber_eq (Graph.sorted_reachable hreach) hlt
    · exact absurd hlt (Nat.not_lt_zero _)
  · rintro ⟨r, hr, rfl⟩
    rw [tag_renumber, if_pos (tag_mem_concrete hg hnum hreach hr)]
    exact index_renumber_lt hr

end

end Restoring

open Restoring

/-- The objects of `h` are `objects` of `g` under their new numbers. -/
structure Graph.Renumbered (g : Graph) (objects : List Ref) (h : Graph) : Prop where
  schema : h.schema = g.schema
  built : h.model.Built
  contains : ∀ s, h.contains s = true ↔ ∃ r ∈ objects, renumber objects r = s
  object : ∀ r ∈ objects, ∀ o, g.object? r = some o →
    h.object? (renumber objects r) = some (o.map (renumber objects))

/-- What is saved is restored, under new numbers, and nothing is left unread. -/
theorem Restoring.exists_run_takeArchive {g : Graph} {m : Model} {roots objects : List Ref}
    {bytes : List UInt8} (hg : g.WellTyped) (hnum : g.schema.Numbered) (hm : m.Built)
    (hs : m.schema = g.schema) (hreach : g.reachable roots = .ok objects)
    (hfit : g.FitsArchive roots objects) (hsave : g.save roots = .ok bytes) :
    ∃ h t room, takeArchive.run (.start m bytes) =
      (.ok (roots.map (renumber objects)), ⟨[], t, h, room⟩) ∧ g.Renumbered objects h := by
  let tags := g.schema.concrete.map (·.tag)
  let t := g.symbols objects
  -- The parts of the archive behind its symbols, each with what follows it.
  let bodies := encodeAll (objects.flatMap (g.bodyItems objects t)) ++ []
  let counts := encodeAll (tags.flatMap fun tag =>
    [countItem tag, countItem (objects.countP (·.tag == tag))]) ++ bodies
  have hroots : ∀ r ∈ roots, r ∈ objects := fun _ => Graph.root_mem_reachable hreach
  obtain ⟨room₁, hrun_roots⟩ := takeRoots_reads (t := t) (g := .empty m)
    (numerable_reachable hg hnum hreach hfit) hfit.rootCount hroots counts {}
  have hrun_tags : (fromGraph fun g => pure (g.schema.concrete.map (·.tag))).run
      ⟨counts, t, .empty m, room₁⟩ = (.ok tags, ⟨counts, t, .empty m, room₁⟩) := by
    change (Except.ok (m.schema.concrete.map (·.tag)), _) = _
    rw [hs]
  have hrest : objects.length * objectMinSize ≤ bodies.length := by
    rw [List.length_append]
    exact Nat.le_add_right_of_le (length_bodies hg hreach)
  obtain ⟨g₁, hrun_counts, hmodel₁, hcontains₁⟩ :=
    run_makeObjects t bodies room₁ hg hnum hreach hfit hm hs hrest
  have hready : Ready objects t g₁ :=
    { numerable_reachable hg hnum hreach hfit with
      symbols := hfit.symbolCount
      made := fun r hr => (hcontains₁ _).2 ⟨r, hr, rfl⟩ }
  obtain ⟨g₂, room₂, hrun_objects, hmodel₂, hcontains₂, hobject, -⟩ := run_takeObjects [] room₁ hg
    hreach hfit (fun r hr => hr) (Graph.sorted_reachable hreach).nodup (hmodel₁ ▸ hm)
    ((congrArg Model.schema hmodel₁).trans hs) hready
  rw [map_renumber_reachable hg hnum hreach, ← forM_counts] at hrun_objects
  let h : Graph := { g₂ with lastId := maxId g₂ }
  have hrun_last : (changeGraph fun g => pure { g with lastId := maxId g }).run
      ⟨[], t, g₂, room₂⟩ = (.ok (), ⟨[], t, h, room₂⟩) := rfl
  have hready₂ : Ready objects t h := hready.of_contains hcontains₂
  have hmodel : h.model = m := hmodel₂.trans hmodel₁
  have hcontains s : h.contains s = true ↔ ∃ r ∈ objects, renumber objects r = s :=
    (Bool.eq_iff_iff.1 (hcontains₂ s)).trans (hcontains₁ s)
  have hrun : takeArchive.run (.start m bytes) =
      (.ok (roots.map (renumber objects)), ⟨[], t, h, room₂⟩) := by
    have hbytes := Except.ok.inj (hsave.symm.trans (Graph.save_eq hg hreach))
    rw [← List.append_nil (encodeAll (objects.flatMap _))] at hbytes
    rw [Restoration.start, hbytes]
    refine (run_bind_ok run_takePreamble).trans ?_
    refine (run_bind_ok (run_takeSymbols (Graph.proper_symbols objects) hfit.symbolCount
      fun s => hfit.text)).trans ?_
    refine (run_bind_ok hrun_roots).trans ((run_bind_ok hrun_tags).trans ?_)
    refine (run_bind_ok hrun_counts).trans ((run_bind_ok hrun_objects).trans ?_)
    refine (run_bind_ok hrun_last).trans ?_
    exact (run_bind_ok (run_forM_checkRef hready₂ hroots)).trans rfl
  exact ⟨h, t, room₂, hrun, (congrArg Model.schema hmodel).trans hs, hmodel ▸ hm, hcontains,
    hobject⟩

/-- What is saved is restored, under new numbers. -/
theorem Model.restore_save {g : Graph} {m : Model} {roots objects : List Ref} {bytes : List UInt8}
    (hg : g.WellTyped) (hnum : g.schema.Numbered) (hm : m.Built) (hs : m.schema = g.schema)
    (hreach : g.reachable roots = .ok objects) (hfit : g.FitsArchive roots objects)
    (hsave : g.save roots = .ok bytes) :
    ∃ h, m.restore bytes = .ok (h, roots.map (renumber objects)) ∧ g.Renumbered objects h := by
  obtain ⟨h, t, room, hrun, hh⟩ := exists_run_takeArchive hg hnum hm hs hreach hfit hsave
  refine ⟨h, ?_, hh⟩
  rw [Model.restore, hrun]
  rfl

end ObjectModel
