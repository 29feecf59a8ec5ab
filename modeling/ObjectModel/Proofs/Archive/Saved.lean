import ObjectModel.Proofs.Archive.Reading
import ObjectModel.Proofs.Graph.Network
import ObjectModel.Proofs.Schema.Tags

/-!
# What is saved

What an archive consists of, in terms of the objects that are reachable from
its roots (`Graph.archiveItems_eq`, `Graph.save_eq`), and what it takes for all
that is counted in it to be written in 32 bits (`Graph.FitsArchive`).
-/

namespace ObjectModel

open Wire

/-- The items of the values of an object in such members. -/
def Object.valueItems (objects : List Ref) (t : SymbolTable) (members : List Member)
    (o : Object) : List Item :=
  (members.zip o.values).flatMap fun e => e.2.items objects t e.1

/-- The items of an object with such members. -/
def Object.items (objects : List Ref) (t : SymbolTable) (members : List Member) (o : Object) :
    List Item :=
  o.header.items objects t ++ o.valueItems objects t members

namespace Graph

variable (g : Graph)

/-- The texts of an object. -/
def textsOf (r : Ref) : List String :=
  match g.object? r with
  | some o => o.texts
  | none => []

/-- The symbols of an archive of some objects. -/
def symbols (objects : List Ref) : SymbolTable :=
  ({} : SymbolTable).internAll (objects.flatMap g.textsOf)

/-- The items of an object in an archive. -/
def bodyItems (objects : List Ref) (t : SymbolTable) (r : Ref) : List Item :=
  match g.object? r, g.schema.entityAt? r.tag with
  | some o, some e => o.items objects t (g.schema.membersBaseFirst e)
  | _, _ => []

/-- In an archive of the objects that are reachable from the roots, all that is
    counted is less than `2 ^ 32`: roots, objects, symbols, and the bytes of
    texts and elements of lists. So are all tags. -/
structure FitsArchive (roots objects : List Ref) : Prop where
  entityCount : g.schema.entities.length ≤ 2 ^ 32
  rootCount : roots.length < 2 ^ 32
  objectCount : objects.length < 2 ^ 32
  symbolCount : (g.symbols objects).size < 2 ^ 32
  writable : ∀ r ∈ objects, ∀ o, g.object? r = some o → o.Writable

variable {g} {roots objects : List Ref} {t : SymbolTable} {r : Ref} {o : Object}

theorem bodyItems_eq {e : Entity} (ho : g.object? r = some o)
    (he : g.schema.entityAt? r.tag = some e) :
    g.bodyItems objects t r = o.items objects t (g.schema.membersBaseFirst e) := by
  rw [bodyItems, ho, he]

theorem WellTyped.objectItems (hg : g.WellTyped) (ho : g.object? r = some o) :
    g.objectItems objects t r = .ok (g.bodyItems objects t r) := by
  obtain ⟨e, l, he, -, hl, hmembers, -⟩ := hg.object ho
  rw [bodyItems_eq ho he]
  exact bind_eq_ok.2 ⟨o, object_eq_ok.2 ho, bind_eq_ok.2 ⟨_, map_eq_ok.2 ⟨l, hl, hmembers⟩, rfl⟩⟩

/-- The texts of objects that there are can be gathered. -/
theorem exists_mapM_object (h : ∀ r ∈ objects, ∃ o, g.object? r = some o) :
    ∃ os, objects.mapM g.object = .ok os ∧ os.flatMap Object.texts = objects.flatMap g.textsOf := by
  obtain ⟨os, hos⟩ := exists_mapM (f := g.object) fun r hr =>
    (h r hr).imp fun _ => object_eq_ok.2
  refine ⟨os, hos, ?_⟩
  rw [List.flatMap_def, List.flatMap_def, map_of_mapM (p := g.textsOf) hos fun r _ o ho => ?_]
  rw [textsOf, object_eq_ok.1 ho]

/-- The texts of what is saved are symbols. -/
theorem mem_texts_symbols {s : String} (hr : r ∈ objects) (ho : g.object? r = some o)
    (hs : s ∈ o.texts) : s = "" ∨ s ∈ (g.symbols objects).texts := by
  by_cases hempty : s = ""
  · exact .inl hempty
  · refine .inr (SymbolTable.mem_texts_internAll.2 (.inr ⟨hempty, List.mem_flatMap.2 ⟨r, hr, ?_⟩⟩))
    rw [textsOf, ho]
    exact hs

/-- The symbols of an archive are different texts, and none is empty. -/
theorem proper_symbols (objects : List Ref) : SymbolTable.Proper (g.symbols objects).texts :=
  SymbolTable.Proper.empty.internAll _

/-- The texts in an archive have lengths that can be written. -/
theorem FitsArchive.text {s : String} (h : g.FitsArchive roots objects)
    (hs : s ∈ (g.symbols objects).texts) : s.utf8ByteSize < 2 ^ 32 := by
  obtain ⟨-, hs⟩ := (SymbolTable.mem_texts_internAll.1 hs).resolve_left List.not_mem_nil
  obtain ⟨r, hr, hs⟩ := List.mem_flatMap.1 hs
  rw [textsOf] at hs
  split at hs
  · rename_i o ho
    exact (h.writable r hr o ho).texts s hs
  · cases hs

/-- The items of an archive. -/
theorem archiveItems_eq (hg : g.WellTyped) (h : g.reachable roots = .ok objects) :
    g.archiveItems roots = .ok (.preamble .current ::
      countItem (g.symbols objects).size :: (g.symbols objects).texts.map .text ++
      countItem roots.length :: roots.map (fun r => refItem objects (some r)) ++
      (g.schema.concrete.flatMap fun e =>
        [countItem e.tag, countItem (objects.countP (·.tag == e.tag))]) ++
      objects.flatMap (g.bodyItems objects (g.symbols objects))) := by
  obtain ⟨os, hos, htexts⟩ := exists_mapM_object fun r hr => object_of_mem_reachable h hr
  have hbodies : objects.mapM (g.objectItems objects (g.symbols objects)) =
      .ok (objects.map (g.bodyItems objects (g.symbols objects))) := by
    refine mapM_eq_ok.2 (List.forall₂_map_right_iff.2 (List.forall₂_same.2 fun r hr => ?_))
    obtain ⟨o, ho⟩ := object_of_mem_reachable h hr
    exact hg.objectItems ho
  refine bind_eq_ok.2 ⟨objects, h, bind_eq_ok.2 ⟨os, hos, ?_⟩⟩
  rw [htexts]
  exact bind_eq_ok.2 ⟨_, hbodies, rfl⟩

/-- The parts of an archive. -/
theorem save_eq (hg : g.WellTyped) (h : g.reachable roots = .ok objects) :
    g.save roots = .ok ((Item.preamble .current).encode ++
      (encodeAll (countItem (g.symbols objects).size :: (g.symbols objects).texts.map .text) ++
      (encodeAll (countItem roots.length :: roots.map fun r => refItem objects (some r)) ++
      (encodeAll ((g.schema.concrete.map (·.tag)).flatMap fun tag =>
        [countItem tag, countItem (objects.countP (·.tag == tag))]) ++
      encodeAll (objects.flatMap (g.bodyItems objects (g.symbols objects))))))) := by
  refine map_eq_ok.2 ⟨_, archiveItems_eq hg h, ?_⟩
  rw [encodeAll_append, encodeAll_append, encodeAll_append, encodeAll_cons, List.flatMap_map]
  simp only [List.append_assoc]

end Graph

namespace Network

theorem numbered (policy : PolicyTable) : (model policy).schema.Numbered := rfl

/-- A network fits an archive if the names and lists of its nodes do. -/
theorem fitsArchive {policy : PolicyTable} {nodes : List Node} {roots objects : List Ref}
    (hroots : roots.length < 2 ^ 32) (hobjects : objects.length < 2 ^ 32)
    (hsymbols : ((graph policy nodes).symbols objects).size < 2 ^ 32)
    (hnames : ∀ n ∈ nodes, n.name.utf8ByteSize < 2 ^ 32)
    (hlists : ∀ n ∈ nodes, ∀ l ∈ n.children :: n.left.toList ++ n.right.toList,
      l.length < 2 ^ 32) :
    (graph policy nodes).FitsArchive roots objects where
  entityCount := Nat.one_le_two_pow
  rootCount := hroots
  objectCount := hobjects
  symbolCount := hsymbols
  writable r _ o ho := by
    obtain ⟨-, n, hn, rfl⟩ := object?_eq_some.1 ho
    have hnode := List.mem_of_getElem? hn
    refine ⟨fun s hs => ?_, ?_, fun items hitems => ?_⟩
    · rcases List.mem_cons.1 hs with rfl | hs
      · exact Nat.two_pow_pos 32
      · rw [List.mem_singleton.1 hs]
        exact hnames n hnode
    · rw [Node.object, List.length_map]
      exact hlists n hnode _ List.mem_cons_self
    · simp only [Node.object, List.mem_cons, List.not_mem_nil, or_false, reduceCtorEq, false_or,
        Value.refs.injEq] at hitems
      -- A list among the values is that of `left` or that of `right`.
      have hmem : ∃ l ∈ n.left.toList ++ n.right.toList, l.map ref = items := by
        rcases hitems with h | h
        · obtain ⟨l, hl, rfl⟩ := Option.map_eq_some_iff.1 h.symm
          exact ⟨l, by simp [hl], rfl⟩
        · obtain ⟨l, hl, rfl⟩ := Option.map_eq_some_iff.1 h.symm
          exact ⟨l, by simp [hl], rfl⟩
      obtain ⟨l, hl, rfl⟩ := hmem
      rw [List.length_map]
      exact hlists n hnode l (List.mem_cons_of_mem _ hl)

end Network

end ObjectModel
