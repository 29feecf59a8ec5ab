import ObjectModel.Proofs.Archive.Restoring
import ObjectModel.Proofs.Archive.Taking
import ObjectModel.Proofs.Graph.Growth

/-!
# Restoring step by step

An archive is restored in steps that do one thing at a time (`Restoring.Step`):
bytes are read, a check is made, one object is made or changed, one symbol is
entered, or one list is made room for. A run passes through the states that these
steps leave (`Restoring.Passes`), up to the one in which it ends, or fails.

Nothing that was made is given up again (`Restoring.Passes.grows`), so what holds of
the end bounds what there was at any moment before. The parts that make no objects
and enter no symbols make no more room than bytes are left for (`Restoring.Modest`):
once for lists that are made room for by their announced length, and twice for lists
of children, which are given room as they grow (`Room.Justified`).
-/

namespace ObjectModel

open Wire

namespace Graph

/-- Nothing but objects has changed, and at most one has been made. -/
structure Alters (g h : Graph) : Prop where
  model : h.model = g.model
  places : h.stores.length = g.stores.length
  size_le : g.size ≤ h.size
  le_size : h.size ≤ g.size + 1

variable {g h : Graph} {r : Ref} {tag : Nat}

theorem alters_modify {f : Object → Object} : g.Alters (g.modify r f) where
  model := rfl
  places := List.length_modify _ _ _
  size_le := size_modify.ge
  le_size := size_modify.le.trans (Nat.le_succ _)

theorem alters_createTag (hh : (·.2) <$> g.createTag tag = .ok h) : g.Alters h := by
  obtain ⟨⟨r, h⟩, hcreate, rfl⟩ := map_eq_ok.1 hh
  obtain ⟨l, -, -, rfl⟩ := createTag_eq_ok hcreate
  rcases Nat.lt_or_ge tag g.stores.length with htag | htag
  · exact ⟨rfl, List.length_modify _ _ _, (Nat.le_succ _).trans (size_add htag).ge,
      (size_add htag).le⟩
  · exact ⟨rfl, List.length_modify _ _ _, (size_add_of_le htag).ge,
      (size_add_of_le htag).le.trans (Nat.le_succ _)⟩

end Graph

namespace Room

/-- No list has been given less room. -/
structure Within (room room' : Room) : Prop where
  reserved : room.reserved ≤ room'.reserved
  children : room.children ≤ room'.children
  grown : room.grown ≤ room'.grown

/-- So many bytes justify the room. Each element takes its bytes, and a list that grows
    has at most twice the room that its elements need. -/
structure Justified (n : Nat) (room : Room) : Prop where
  reserved : room.reserved * refSize ≤ n
  children : room.children * refSize ≤ n
  grown : room.grown * refSize ≤ 2 * n

variable {room room' room'' : Room} {n k : Nat} {l : Growing Ref}

theorem Within.refl (room : Room) : room.Within room :=
  ⟨Nat.le_refl _, Nat.le_refl _, Nat.le_refl _⟩

theorem Within.trans (h : room.Within room') (h' : room'.Within room'') : room.Within room'' where
  reserved := h.reserved.trans h'.reserved
  children := h.children.trans h'.children
  grown := h.grown.trans h'.grown

theorem within_reserve (room : Room) (k : Nat) : room.Within (room.reserve k) :=
  ⟨Nat.le_max_left _ _, Nat.le_refl _, Nat.le_refl _⟩

theorem within_grow (room : Room) (l : Growing Ref) : room.Within (room.grow l) :=
  ⟨Nat.le_refl _, Nat.le_max_left _ _, Nat.le_max_left _ _⟩

/-- Room for a list is justified by the bytes of its references. -/
theorem Justified.reserve (h : room.Justified n) (hk : k * refSize ≤ n) :
    (room.reserve k).Justified n := by
  refine ⟨?_, h.children, h.grown⟩
  change max room.reserved k * refSize ≤ n
  rw [← Nat.mul_max_mul_right]
  exact Nat.max_le.2 ⟨h.reserved, hk⟩

/-- A list that has grown is justified by its elements, and by sixteen bytes at least:
    so many make up for the four places that the first element is given. -/
theorem Justified.grow (h : room.Justified n) (hn : 16 ≤ n)
    (hl : l.elements.length * refSize ≤ n) : (room.grow l).Justified n := by
  refine ⟨h.reserved, ?_, ?_⟩
  · change max room.children l.elements.length * refSize ≤ n
    rw [← Nat.mul_max_mul_right]
    exact Nat.max_le.2 ⟨h.children, hl⟩
  · change max room.grown l.capacity * refSize ≤ 2 * n
    rw [← Nat.mul_max_mul_right]
    refine Nat.max_le.2 ⟨h.grown, ?_⟩
    have hcapacity := l.thrifty
    simp only [refSize] at hl ⊢
    omega

end Room

namespace Restoring

variable {α β : Type} {x : Restoring α} {f : α → Restoring β} {s t u : Restoration} {n k : Nat}

/-! ## Steps -/

/-- What is done at once. -/
inductive Step : {α : Type} → Restoring α → Prop
  | take {α : Type} (r : Reader α) : Step (take r)
  | look : Step (getThe Restoration : Restoring Restoration)
  | fromGraph {α : Type} (f : Graph → Except GraphError α) : Step (fromGraph f)
  | throw {α : Type} (e : GraphError) : Step (throw e : Restoring α)
  /-- Objects are changed, or a single one is made. -/
  | changeGraph {f : Graph → Except GraphError Graph}
      (hf : ∀ g h, f g = .ok h → g.Alters h) : Step (changeGraph f)
  /-- A single symbol is entered. -/
  | intern (text : String) : Step (modifyThe Restoration fun s =>
      { s with symbols := (s.symbols.intern text).2 } : Restoring Unit)
  /-- A single list is made room for. -/
  | reserve (n : Nat) : Step (modifyThe Restoration fun s =>
      { s with room := s.room.reserve n } : Restoring Unit)
  /-- A single list has grown by an element. -/
  | grow (l : Growing Ref) : Step (modifyThe Restoration fun s =>
      { s with room := s.room.grow l } : Restoring Unit)

/-- The computation is made of steps, each of which may depend on what those before
    it have found. -/
inductive Stepwise : {α : Type} → Restoring α → Prop
  | pure {α : Type} (a : α) : Stepwise (pure a)
  | step {α : Type} {x : Restoring α} (hx : Step x) : Stepwise x
  | bind {α β : Type} {x : Restoring α} {f : α → Restoring β} (hx : Stepwise x)
      (hf : ∀ a, Stepwise (f a)) : Stepwise (x >>= f)

/-- On its way from `s`, the run of `x` passes through `t`: this is where it starts,
    or where it ends or fails, or a state that one of two parts passes through, the
    second of which goes on where the first has ended well. -/
inductive Passes : {α : Type} → Restoring α → Restoration → Restoration → Prop
  | start {α : Type} {x : Restoring α} {s : Restoration} (hx : Stepwise x) : Passes x s s
  | finish {α : Type} {x : Restoring α} {s : Restoration} : Passes x s (x.run s).2
  | first {α β : Type} {x : Restoring α} {f : α → Restoring β} {s t : Restoration}
      (h : Passes x s t) (hf : ∀ a, Stepwise (f a)) : Passes (x >>= f) s t
  | next {α β : Type} {x : Restoring α} {f : α → Restoring β} {s t u : Restoration} {a : α}
      (hrun : x.run s = (.ok a, u)) (h : Passes (f a) u t) : Passes (x >>= f) s t

/-- Nothing that there was in `s` has been given up in `t`. -/
structure Grows (s t : Restoration) : Prop where
  model : t.graph.model = s.graph.model
  places : t.graph.stores.length = s.graph.stores.length
  objects : s.graph.size ≤ t.graph.size
  symbols : s.symbols.size ≤ t.symbols.size
  room : s.room.Within t.room

theorem Grows.refl (s : Restoration) : Grows s s :=
  ⟨rfl, rfl, Nat.le_refl _, Nat.le_refl _, .refl _⟩

theorem Grows.trans (hst : Grows s t) (htu : Grows t u) : Grows s u where
  model := htu.model.trans hst.model
  places := htu.places.trans hst.places
  objects := hst.objects.trans htu.objects
  symbols := hst.symbols.trans htu.symbols
  room := hst.room.trans htu.room

/-- At most one text is entered. -/
theorem size_intern (table : SymbolTable) (text : String) :
    table.size ≤ (table.intern text).2.size ∧ (table.intern text).2.size ≤ table.size + 1 := by
  rw [SymbolTable.intern]
  split
  · exact ⟨Nat.le_refl _, Nat.le_succ _⟩
  · simp [SymbolTable.size, SymbolTable.enter]

theorem run_changeGraph_error {f : Graph → Except GraphError Graph} {e : GraphError}
    (h : f s.graph = .error e) : (changeGraph f).run s = (.error e, s) := by
  unfold changeGraph
  rw [ExceptT.run, h]

/-- A single step gives up nothing that was made, even if it fails. -/
theorem Step.grows (hx : Step x) : Follows Grows x := by
  intro s
  cases hx with
  | take => exact ⟨rfl, rfl, Nat.le_refl _, Nat.le_refl _, .refl _⟩
  | look | fromGraph | throw => exact .refl s
  | @changeGraph f hf =>
    cases hh : f s.graph with
    | ok h =>
      have hrun : (Restoring.changeGraph f).run s = (.ok (), { s with graph := h }) :=
        run_changeGraph hh
      rw [hrun]
      obtain ⟨hmodel, hplaces, hsize, -⟩ := hf s.graph h hh
      exact ⟨hmodel, hplaces, hsize, Nat.le_refl _, .refl _⟩
    | error e =>
      rw [run_changeGraph_error hh]
      exact .refl s
  | intern text =>
    exact ⟨rfl, rfl, Nat.le_refl _, (size_intern s.symbols text).1, .refl _⟩
  | reserve n => exact ⟨rfl, rfl, Nat.le_refl _, Nat.le_refl _, Room.within_reserve _ _⟩
  | grow l => exact ⟨rfl, rfl, Nat.le_refl _, Nat.le_refl _, Room.within_grow _ _⟩

/-- Nothing follows what is thrown. -/
theorem Stepwise.throw_bind (e : GraphError) : Stepwise (throw e >>= f) :=
  Stepwise.step (.throw e)

/-- What is done several times is done step by step. -/
theorem Stepwise.times (hx : Stepwise x) (n : Nat) : Stepwise (times x n) := by
  induction n with
  | zero => exact .pure []
  | succ n ih => exact hx.bind fun _ => ih.bind fun _ => .pure _

/-- What is done step by step gives up nothing that was made. -/
theorem Stepwise.grows (hx : Stepwise x) : Follows Grows x := by
  induction hx with
  | pure => exact Grows.refl
  | step hx => exact hx.grows
  | bind _ _ ihx ihf => exact ihx.bind (fun _ _ _ => .trans) ihf

/-- At the end, there is at least what there was at any moment. -/
theorem Passes.grows (h : Passes x s t) : Grows t (x.run s).2 := by
  induction h with
  | start hx => exact hx.grows _
  | finish => exact .refl _
  | @first _ _ x f s t _ hf ih =>
    rw [run_bind_eq]
    split
    · exact ih.trans ((hf _).grows _)
    · exact ih
  | next hrun _ ih =>
    rw [run_bind_ok hrun]
    exact ih

/-! ## Parts that make nothing -/

/-- `n` bytes justify what has been made room for. -/
structure Justified (n : Nat) (s : Restoration) : Prop where
  objects : s.graph.size * objectMinSize ≤ n
  symbols : s.symbols.size * symbolMinSize ≤ n
  room : s.room.Justified n

/-- In addition, no more than `n` bytes are left, and no more than `k` objects have
    been made. -/
structure Covered (n k : Nat) (s : Restoration) : Prop extends Justified n s where
  unread : s.unread.length ≤ n
  made : s.graph.size ≤ k

theorem Covered.of_unread (hs : Covered n k s) {rest : List UInt8}
    (h : rest.length ≤ s.unread.length) : Covered n k { s with unread := rest } :=
  ⟨⟨hs.objects, hs.symbols, hs.room⟩, h.trans hs.unread, hs.made⟩

/-- The least number of bytes before the objects: those of a preamble, and of the numbers
    of symbols and of roots. -/
def headMinSize : Nat := 8 + 4 + 4

/-- A part behind these that goes step by step, makes no objects, and makes no
    more room than the bytes that were there justify. -/
structure Modest (x : Restoring α) : Prop where
  stepwise : Stepwise x
  keeps : ∀ n k, headMinSize ≤ n → Keeps (Covered n k) (Justified n) x

/-- Reading changes nothing but what is unread. -/
theorem Covered.ends_take (hs : Covered n k s) {r : Reader α} (hr : ∀ unread a rest,
    r.run unread = (.ok a, rest) → rest.length ≤ unread.length) :
    Ends (take r) s (fun a t => Covered n k t ∧ ∃ rest, t = { s with unread := rest } ∧
      r.run s.unread = (.ok a, rest)) (Justified n) := by
  unfold Ends
  split
  · rename_i a ha
    obtain ⟨rest, hrest, hread⟩ := exists_of_run_take (run_eq_iff.2 ⟨ha, rfl⟩)
    exact ⟨hrest ▸ hs.of_unread (hr _ _ _ hread), rest, hrest, hread⟩
  · exact ⟨hs.objects, hs.symbols, hs.room⟩

theorem run_modify (f : Restoration → Restoration) (s : Restoration) :
    (modifyThe Restoration f : Restoring Unit).run s = (.ok (), f s) := rfl

namespace Modest

theorem pure (a : α) : Modest (pure a) := ⟨.pure a, fun _ _ _ => .pure a⟩

/-- A part made of modest parts is modest. -/
theorem bind (hx : Modest x) (hf : ∀ a, Modest (f a)) : Modest (x >>= f) :=
  ⟨hx.stepwise.bind fun a => (hf a).stepwise,
    fun n k hn => (hx.keeps n k hn).bind fun a => (hf a).keeps n k hn⟩

/-- Doing a modest part several times is modest, as each time starts from what is left. -/
theorem times (hx : Modest x) (n : Nat) : Modest (times x n) := by
  induction n with
  | zero => exact .pure []
  | succ n ih => exact hx.bind fun _ => ih.bind fun _ => .pure _

/-- A list of modest parts is modest, as each part starts from the bytes that are left. -/
theorem mapM {l : List α} (hf : ∀ a, Modest (f a)) : Modest (l.mapM f) := by
  induction l with
  | nil =>
    rw [List.mapM_nil]
    exact .pure []
  | cons a l ih =>
    rw [List.mapM_cons]
    exact (hf a).bind fun _ => ih.bind fun _ => .pure _

theorem forM {f : α → Restoring PUnit} {l : List α} (hf : ∀ a, Modest (f a)) :
    Modest (l.forM f) := by
  induction l with
  | nil => exact .pure _
  | cons a l ih => exact (hf a).bind fun _ => ih

/-- A step that leaves everything as it is. -/
theorem of_still (hx : Step x) (h : ∀ s, (x.run s).2 = s) : Modest x := by
  refine ⟨.step hx, fun n k _ s hs => ?_⟩
  have hstate := h s
  unfold Ends
  split
  · exact hstate.symm ▸ hs
  · exact hstate.symm ▸ hs.toJustified

theorem throw (e : GraphError) : Modest (throw e : Restoring α) :=
  .of_still (.throw e) fun _ => rfl

theorem fromGraph (f : Graph → Except GraphError α) : Modest (fromGraph f) :=
  .of_still (.fromGraph f) fun _ => rfl

theorem look : Modest (getThe Restoration : Restoring Restoration) :=
  .of_still .look fun _ => rfl

/-- A reader makes nothing. -/
theorem take {r : Reader α} {P : Item → α → Prop} (hr : Wire.Takes r P) : Modest (take r) :=
  ⟨.step (.take r), fun _ _ _ _ hs => (hs.ends_take hr.length_le).mono (fun _ _ h => h.1)
    fun _ h => h⟩

/-- A change to objects that there are. -/
theorem changeGraph {f : Graph → Except GraphError Graph}
    (hf : ∀ g h, f g = .ok h → g.Alters h ∧ h.size = g.size) : Modest (changeGraph f) := by
  refine ⟨.step (.changeGraph fun g h hh => (hf g h hh).1), fun n k _ s hs => ?_⟩
  cases hh : f s.graph with
  | ok h =>
    have hsize := (hf _ _ hh).2.symm
    exact .of_run (run_changeGraph hh)
      ⟨⟨hsize ▸ hs.objects, hs.symbols, hs.room⟩, hs.unread, hsize ▸ hs.made⟩
  | error e => exact .of_run_error (run_changeGraph_error hh) hs.toJustified

end Modest

/-- A number takes four bytes. -/
theorem length_of_run_takeCount {size : Nat} {unread rest : List UInt8}
    (h : (takeCount size).run unread = (.ok n, rest)) : 4 + rest.length = unread.length := by
  rw [(eq_append_of_run_takeCount h).2, List.length_append, length_littleEndian]

theorem modest_checkRef (r : Ref) : Modest (checkRef r) := .fromGraph _

theorem modest_takeTarget : Modest takeTarget := by
  refine (Modest.take takeRef_takes).bind fun target => ?_
  dsimp only
  split
  · exact (modest_checkRef _).bind fun _ => .pure _
  · exact .pure _

theorem stepwise_takeLength : Stepwise takeLength :=
  (Stepwise.step (.take _)).bind fun n => (Stepwise.step (.reserve n)).bind fun _ => .pure n

/-- Room is made for a list after its length has been checked, which takes four bytes. -/
theorem Covered.ends_takeLength (hs : Covered n k s) :
    Ends takeLength s (fun _ t => Covered n k t ∧ 4 ≤ s.unread.length) (Justified n) := by
  refine (hs.ends_take fun _ _ _ h => (le_of_run_takeCount h).2).bind ?_
  rintro length _ ⟨ht, rest, rfl, hread⟩
  have hroom := ht.room.reserve ((le_of_run_takeCount hread).1.trans ht.unread)
  exact Ends.after (run_modify _ _) (.pure ⟨⟨⟨ht.objects, ht.symbols, hroom⟩, ht.unread, ht.made⟩,
    (Nat.le_add_right _ _).trans_eq (length_of_run_takeCount hread)⟩)

theorem modest_takeLength : Modest takeLength :=
  ⟨stepwise_takeLength, fun _ _ _ _ hs => hs.ends_takeLength.mono (fun _ _ h => h.1) fun _ h => h⟩

/-- Children are read and put in their list one at a time. -/
theorem stepwise_pushTargets (l : Growing Ref) (j : Nat) : Stepwise (pushTargets l j) := by
  induction j generalizing l with
  | zero => exact .pure _
  | succ j ih =>
    refine modest_takeTarget.stepwise.bind fun target => ?_
    cases target with
    | none => exact ih l
    | some r => exact (Stepwise.step (.grow _)).bind fun _ => ih _

/-- The elements of a list that grows are never more than were announced. -/
theorem Covered.ends_pushTargets (hs : Covered n k s) (hn : headMinSize ≤ n) {l : Growing Ref}
    {j : Nat} (hl : (l.elements.length + j) * refSize ≤ n) :
    Ends (pushTargets l j) s (fun _ => Covered n k) (Justified n) := by
  induction j generalizing l s with
  | zero => exact .pure hs
  | succ j ih =>
    refine (modest_takeTarget.keeps n k hn s hs).bind fun target t ht => ?_
    cases target with
    | none => exact ih ht ((Nat.mul_le_mul_right _ (Nat.le_succ _)).trans hl)
    | some r =>
      have hlength : (l.push r).elements.length = l.elements.length + 1 :=
        List.length_append.trans (congrArg _ List.length_singleton)
      have hpushed : ((l.push r).elements.length + j) * refSize ≤ n := by
        rw [hlength, Nat.add_right_comm]
        exact hl
      -- The room is asked for by the list with the new child, whose bytes have been read.
      have hroom := ht.room.grow hn
        ((Nat.mul_le_mul_right refSize (Nat.le_add_right _ j)).trans hpushed)
      have hgrown : Covered n k { t with room := t.room.grow (l.push r) } :=
        ⟨⟨ht.objects, ht.symbols, hroom⟩, ht.unread, ht.made⟩
      exact Ends.after (run_modify _ _) (ih hgrown hpushed)

/-- Lists of children grow after their length has been checked. -/
theorem modest_takeChildren : Modest takeChildren := by
  refine ⟨(Stepwise.step (.take _)).bind fun n => stepwise_pushTargets .empty n,
    fun n k hn s hs => ?_⟩
  refine (hs.ends_take fun _ _ _ h => (le_of_run_takeCount h).2).bind ?_
  rintro length _ ⟨ht, rest, rfl, hread⟩
  refine ht.ends_pushTargets hn ?_
  rw [Growing.empty, List.length_nil, Nat.zero_add]
  exact (le_of_run_takeCount hread).1.trans ht.unread

theorem modest_takeTargets : Modest takeTargets :=
  modest_takeLength.bind fun n => (modest_takeTarget.times n).bind fun _ => .pure _

theorem stepwise_takeRoots : Stepwise takeRoots :=
  stepwise_takeLength.bind fun n => ((Stepwise.step (.take _)).times n).bind fun _ => .pure _

/-- Where the roots have been read, the head of the archive has been. -/
theorem Covered.ends_takeRoots (hs : Covered n k s) (hunread : 8 + 4 + s.unread.length ≤ n) :
    Ends takeRoots s (fun _ t => Covered n k t ∧ headMinSize ≤ n) (Justified n) := by
  refine hs.ends_takeLength.bind fun length t ⟨ht, hfour⟩ => ?_
  have hn : headMinSize ≤ n := (Nat.add_le_add_left hfour _).trans hunread
  exact (((Modest.take takeRef_takes).times length).keeps n k hn t ht).bind
    fun _ _ hu => .pure ⟨hu, hn⟩

/-- What is done `n` times has `n` results. -/
theorem length_of_run_times {l : List α} (h : (times x n).run s = (.ok l, t)) : l.length = n := by
  induction n generalizing s l with
  | zero =>
    cases h
    rfl
  | succ n ih =>
    obtain ⟨a, u, -, h⟩ := exists_run_bind_ok h
    obtain ⟨l, v, hl, h⟩ := exists_run_bind_ok h
    cases h
    exact congrArg (· + 1) (ih hl)

/-- The room that is made for a list is enough for what is read of it. -/
theorem length_le_room {x : Restoring (Option Ref)} (hx : Stepwise x) {l : List Ref}
    (h : (do let n ← takeLength; return (← times x n).filterMap id).run s = (.ok l, t)) :
    l.length ≤ t.room.reserved := by
  obtain ⟨n, u, hn, h⟩ := exists_run_bind_ok h
  obtain ⟨targets, v, htargets, h⟩ := exists_run_bind_ok h
  cases h
  obtain ⟨_, w, -, hn⟩ := exists_run_bind_ok hn
  cases hn
  have hgrows := (hx.times n).grows { w with room := w.room.reserve n }
  rw [htargets] at hgrows
  calc (targets.filterMap id).length ≤ targets.length := List.length_filterMap_le _ _
    _ = n := length_of_run_times htargets
    _ ≤ (w.room.reserve n).reserved := Nat.le_max_right _ _
    _ ≤ t.room.reserved := hgrows.room.reserved

theorem length_le_room_of_run_takeTargets {l : List Ref} (h : takeTargets.run s = (.ok l, t)) :
    l.length ≤ t.room.reserved :=
  length_le_room modest_takeTarget.stepwise h

theorem length_le_room_of_run_takeRoots {l : List Ref} (h : takeRoots.run s = (.ok l, t)) :
    l.length ≤ t.room.reserved :=
  length_le_room (.step (.take takeRef)) h

/-- The room that a list of children is given is enough for those read of it. -/
theorem length_le_room_of_run_pushTargets {pushed : Growing Ref} {j : Nat} {l : List Ref}
    (hpushed : pushed.capacity ≤ s.room.grown)
    (h : (pushTargets pushed j).run s = (.ok l, t)) : l.length ≤ t.room.grown := by
  induction j generalizing pushed s with
  | zero =>
    cases h
    exact pushed.fits.trans hpushed
  | succ j ih =>
    obtain ⟨target, u, hrun, h⟩ := exists_run_bind_ok h
    have hgrows := modest_takeTarget.stepwise.grows s
    rw [hrun] at hgrows
    cases target with
    | none => exact ih (hpushed.trans hgrows.room.grown) h
    | some r =>
      obtain ⟨_, v, hv, h⟩ := exists_run_bind_ok h
      cases hv
      exact ih (Nat.le_max_right _ _) h

theorem length_le_room_of_run_takeChildren {l : List Ref} (h : takeChildren.run s = (.ok l, t)) :
    l.length ≤ t.room.grown := by
  obtain ⟨n, u, -, h⟩ := exists_run_bind_ok h
  exact length_le_room_of_run_pushTargets (Nat.zero_le _) h

theorem modest_takeSymbol : Modest takeSymbol := by
  refine (Modest.take takeId_takes).bind fun id => Modest.look.bind fun s => ?_
  split
  · exact .pure _
  · exact .throw _

/-- A header makes room for its children only. -/
theorem modest_takeHeader : Modest takeHeader := by
  refine (Modest.take takeU32_takes).bind fun id => modest_takeTarget.bind fun parent =>
    modest_takeSymbol.bind fun file => ?_
  refine (Modest.take takeU32_takes).bind fun _ => (Modest.take takeU16_takes).bind fun _ => ?_
  refine (Modest.take takeU32_takes).bind fun _ => (Modest.take takeU16_takes).bind fun _ => ?_
  exact modest_takeChildren.bind fun _ => .pure _

/-- A value makes room for its references, if it is a list. -/
theorem modest_takeValue (m : Member) : Modest (takeValue m) := by
  obtain ⟨name, content, relation, tags⟩ := m
  cases content with
  | scalar kind =>
    cases kind with
    | bool => exact (Modest.take takeBool_takes).bind fun _ => .pure _
    | int16 => exact (Modest.take takeI16_takes).bind fun _ => .pure _
    | int32 => exact (Modest.take takeI32_takes).bind fun _ => .pure _
    | int64 => exact (Modest.take takeI64_takes).bind fun _ => .pure _
    | uint16 => exact (Modest.take takeU16_takes).bind fun _ => .pure _
    | uint32 => exact (Modest.take takeU32_takes).bind fun _ => .pure _
    | uint64 => exact (Modest.take takeU64_takes).bind fun _ => .pure _
    | string | value | delay => exact modest_takeSymbol.bind fun _ => .pure _
  | object _ card | union _ card =>
    cases card with
    | one => exact modest_takeTarget.bind fun _ => .pure _
    | many =>
      refine (Modest.take takeBool_takes).bind fun made => ?_
      cases made with
      | false => exact .pure _
      | true => exact modest_takeTargets.bind fun _ => .pure _

/-- Reading an object into its place makes none. -/
theorem modest_takeObject (r : Ref) : Modest (takeObject r) := by
  refine modest_takeHeader.bind fun header => Modest.bind (.changeGraph fun g h hh => ?_) fun _ =>
    (Modest.fromGraph _).bind fun members => (Modest.mapM modest_takeValue).bind fun values =>
      .changeGraph fun g h hh => ?_
  · obtain ⟨o, -, hh⟩ := bind_eq_ok.1 hh
    exact pure_eq_ok.1 hh ▸ ⟨Graph.alters_modify, Graph.size_modify⟩
  · obtain ⟨o, -, hh⟩ := bind_eq_ok.1 hh
    exact pure_eq_ok.1 hh ▸ ⟨Graph.alters_modify, Graph.size_modify⟩

/-! ## Parts that make something -/

/-- What holds after so many rounds, if each round leads to the next. -/
theorem ends_times {P : Nat → Restoration → Prop} {E : Restoration → Prop}
    (hx : ∀ j < n, ∀ s, P j s → Ends x s (fun _ => P (j + 1)) E) (hs : P 0 s) :
    Ends (times x n) s (fun _ => P n) E := by
  induction n generalizing P s with
  | zero => exact .pure hs
  | succ n ih =>
    refine (hx 0 n.succ_pos s hs).bind fun _ t ht => ?_
    exact (ih (P := fun j => P (j + 1)) (fun j hj => hx (j + 1) (Nat.succ_lt_succ hj)) ht).bind
      fun _ _ hu => .pure hu

theorem stepwise_takeSymbols : Stepwise takeSymbols := by
  have htext : Stepwise Restoring.takeText :=
    (Stepwise.step (.take _)).bind fun text => .step (.intern text)
  exact (Stepwise.step (.take _)).bind fun n => (htext.times n).bind fun _ => .pure _

/-- Symbols are entered after they have been counted, which takes four bytes. -/
theorem Covered.ends_takeSymbols (hs : Covered n k s) (hnone : s.symbols.size = 0) :
    Ends takeSymbols s (fun _ t => Covered n k t ∧ 4 + t.unread.length ≤ s.unread.length)
      (Justified n) := by
  refine (hs.ends_take fun _ _ _ h => (le_of_run_takeCount h).2).bind ?_
  rintro count _ ⟨ht, rest, rfl, hread⟩
  have hcount : count * symbolMinSize ≤ n := (le_of_run_takeCount hread).1.trans ht.unread
  have hrest : 4 + rest.length ≤ s.unread.length := (length_of_run_takeCount hread).le
  -- After `j` texts there are at most `j` symbols: a text that is known adds none.
  let P (j : Nat) (t : Restoration) : Prop :=
    Covered n k t ∧ t.symbols.size ≤ j ∧ t.unread.length ≤ rest.length
  have htexts : Ends (Restoring.times Restoring.takeText count) { s with unread := rest }
      (fun _ => P count) (Justified n) := by
    refine ends_times (P := P) ?_ ⟨ht, hnone.le, Nat.le_refl _⟩
    rintro j hj t ⟨ht, hsize, hunread⟩
    refine (ht.ends_take takeText_takes.length_le).bind ?_
    rintro text _ ⟨hu, rest', rfl, htext⟩
    have hnew : (t.symbols.intern text).2.size ≤ j + 1 :=
      (size_intern t.symbols text).2.trans (Nat.succ_le_succ hsize)
    have hsymbols := (Nat.mul_le_mul_right symbolMinSize (hnew.trans hj)).trans hcount
    exact .of_run (run_modify _ _) ⟨⟨⟨hu.objects, hsymbols, hu.room⟩, hu.unread, hu.made⟩, hnew,
      (takeText_takes.length_le _ _ _ htext).trans hunread⟩
  exact htexts.bind fun _ t ⟨ht, _, hunread⟩ =>
    .pure ⟨ht, (Nat.add_le_add_left hunread 4).trans hrest⟩

theorem stepwise_makeObject (tag : Nat) : Stepwise (makeObject tag) :=
  .step (.changeGraph fun _ _ => Graph.alters_createTag)

/-- An object is made where the bytes for one more are accounted for. -/
theorem Covered.ends_makeObject (hs : Covered n k s) (hk : (k + 1) * objectMinSize ≤ n)
    (tag : Nat) : Ends (makeObject tag) s (fun _ => Covered n (k + 1)) (Justified n) := by
  cases hh : (·.2) <$> s.graph.createTag tag with
  | ok h =>
    have hmade : h.size ≤ k + 1 :=
      (Graph.alters_createTag hh).le_size.trans (Nat.succ_le_succ hs.made)
    have hobjects := (Nat.mul_le_mul_right objectMinSize hmade).trans hk
    exact .of_run (run_changeGraph hh) ⟨⟨hobjects, hs.symbols, hs.room⟩, hs.unread, hmade⟩
  | error e => exact .of_run_error (run_changeGraph_error hh) hs.toJustified

/-- Objects are made one at a time. -/
theorem stepwise_takeCounts (total : Nat) (tags : List Nat) :
    Stepwise (takeCounts total tags) := by
  induction tags generalizing total with
  | nil => exact .pure []
  | cons expected tags ih =>
    refine (Stepwise.step (.take _)).bind fun tag => ?_
    dsimp only
    split
    · exact .throw_bind _
    · refine (Stepwise.step (.take _)).bind fun count => (Stepwise.step (.take _)).bind fun _ => ?_
      exact ((stepwise_makeObject tag).times count).bind fun _ => (ih _).bind fun _ => .pure _

/-- Objects are made after they have been counted, together with those of the tags
    before. -/
theorem Covered.ends_takeCounts {total : Nat} (hs : Covered n total s) (tags : List Nat) :
    Ends (takeCounts total tags) s (fun _ t => ∃ k, Covered n k t) (Justified n) := by
  induction tags generalizing total s with
  | nil => exact .pure ⟨total, hs⟩
  | cons expected tags ih =>
    refine (hs.ends_take takeId_takes.length_le).bind fun tag t ⟨ht, _⟩ => ?_
    dsimp only
    split
    · exact ht.toJustified
    · refine (ht.ends_take takeId_takes.length_le).bind fun count u ⟨hu, _⟩ => ?_
      refine (hu.ends_take fun _ _ _ h => ?_).bind ?_
      · exact (congrArg List.length (le_of_run_checkCount h).2).le
      rintro _ _ ⟨hv, rest, rfl, hcheck⟩
      have hcount : (total + count) * objectMinSize ≤ n :=
        (le_of_run_checkCount hcheck).1.trans hu.unread
      refine (ends_times (P := fun j => Covered n (total + j)) (fun j hj w hw => ?_) hv).bind
        fun _ w hw => (ih hw).bind fun _ _ h => .pure h
      exact hw.ends_makeObject ((Nat.mul_le_mul_right _ (by omega)).trans hcount) tag

/-! ## Archives -/

/-- Once the objects have been made, nothing more is. -/
theorem modest_takeBodies (counts : List (Nat × Nat)) (roots : List Ref) : Modest (do
    counts.forM fun (tag, count) => (List.range count).forM fun index => takeObject ⟨tag, index⟩
    changeGraph fun g => Pure.pure { g with lastId := maxId g }
    roots.forM checkRef
    return roots) := by
  refine Modest.bind (.forM fun _ => .forM fun _ => modest_takeObject _) fun _ => ?_
  refine Modest.bind (.changeGraph fun g h hh => ?_) fun _ =>
    (Modest.forM modest_checkRef).bind fun _ => .pure _
  exact pure_eq_ok.1 hh ▸ ⟨⟨rfl, rfl, Nat.le_refl _, Nat.le_succ _⟩, rfl⟩

theorem stepwise_takeArchive : Stepwise takeArchive :=
  (Stepwise.step (.take _)).bind fun _ => stepwise_takeSymbols.bind fun _ =>
    stepwise_takeRoots.bind fun roots => (Stepwise.step (.fromGraph _)).bind fun tags =>
      (stepwise_takeCounts 0 tags).bind fun counts => (modest_takeBodies counts roots).stepwise

/-- In the beginning nothing has been made. -/
theorem covered_start (m : Model) (bytes : List UInt8) :
    Covered bytes.length 0 (.start m bytes) := by
  have hsize : (Graph.empty m).size = 0 := by
    rw [Graph.size, Graph.empty, List.length_flatten]
    simp
  refine ⟨⟨?_, Nat.zero_le _, ⟨Nat.zero_le _, Nat.zero_le _, Nat.zero_le _⟩⟩, Nat.le_refl _,
    hsize.le⟩
  rw [show (Restoration.start m bytes).graph.size = 0 from hsize, Nat.zero_mul]
  exact Nat.zero_le _

variable {m : Model} {bytes : List UInt8}

/-- Wherever restoring an archive ends, what was made is justified by the bytes. The
    symbols come first, then the roots, the objects and what is in them. -/
theorem ends_takeArchive (m : Model) (bytes : List UInt8) : Ends takeArchive (.start m bytes)
    (fun _ => Justified bytes.length) (Justified bytes.length) := by
  refine ((covered_start m bytes).ends_take takePreamble_takes.length_le).bind ?_
  rintro preamble _ ⟨hs, rest, rfl, hread⟩
  have hpreamble : 8 + rest.length = bytes.length := by
    obtain ⟨_, hbytes, rfl, -⟩ := takePreamble_takes _ _ _ hread
    rw [show bytes = _ from hbytes, List.length_append]
    simp [Item.encode]
  refine (hs.ends_takeSymbols rfl).bind ?_
  rintro - t ⟨ht, hunread⟩
  have hleft : 8 + 4 + t.unread.length ≤ bytes.length := by
    rw [Nat.add_assoc, ← hpreamble]
    exact Nat.add_le_add_left hunread 8
  -- The head has been read after this, so the archive is no shorter than a head.
  refine (ht.ends_takeRoots hleft).bind ?_
  rintro roots u ⟨hu, hhead⟩
  refine ((Modest.fromGraph _).keeps _ _ hhead u hu).bind fun tags v hv => ?_
  refine (hv.ends_takeCounts tags).bind ?_
  rintro counts w ⟨k, hw⟩
  exact ((modest_takeBodies counts roots).keeps _ _ hhead w hw).mono (fun _ _ h => h.toJustified)
    fun _ h => h

/-- At no moment, whether restoring ends well or not, there are more objects, symbols,
    children of an object or places in a list than the archive has bytes for. In a list of
    children there may be twice as many places. -/
theorem Passes.allocates_le (h : Passes takeArchive (.start m bytes) t) :
    32 * t.graph.size ≤ bytes.length ∧ 4 * t.symbols.size ≤ bytes.length ∧
      8 * t.room.reserved ≤ bytes.length ∧ 8 * t.room.children ≤ bytes.length ∧
        4 * t.room.grown ≤ bytes.length := by
  have hend : Justified bytes.length (takeArchive.run (.start m bytes)).2 :=
    Ends.state (ends_takeArchive m bytes)
  have hgrows := h.grows
  have hroom := hgrows.room
  refine ⟨?_, ?_, ?_, ?_, ?_⟩
  · exact (Nat.mul_comm _ _).trans_le ((Nat.mul_le_mul_right _ hgrows.objects).trans hend.objects)
  · exact (Nat.mul_comm _ _).trans_le ((Nat.mul_le_mul_right _ hgrows.symbols).trans hend.symbols)
  · exact (Nat.mul_comm _ _).trans_le ((Nat.mul_le_mul_right _ hroom.reserved).trans
      hend.room.reserved)
  · exact (Nat.mul_comm _ _).trans_le ((Nat.mul_le_mul_right _ hroom.children).trans
      hend.room.children)
  · have hgrown : t.room.grown * 8 ≤ 2 * bytes.length :=
      (Nat.mul_le_mul_right _ hroom.grown).trans hend.room.grown
    omega

/-- An archive of two nodes, the second of which is cut off: both have been made when
    the first is about to be read, and then restoring fails. -/
theorem Passes.allocates_le_nodes :
    let bytes := encodeAll [.preamble .current, .u32 1, .text "a", .u32 1, .ref 0 1, .u32 0,
      .u32 2] ++ List.replicate 64 0
    (Network.model {}).restore bytes = .error (.archive (.bufferTooShort 4 2)) ∧
      ∃ t, Passes takeArchive (.start (Network.model {}) bytes) t ∧
        t.graph.size = 2 ∧ t.symbols.size = 1 ∧ t.room.reserved = 1 ∧ t.unread.length = 64 ∧
        32 * t.graph.size ≤ bytes.length ∧ 4 * t.symbols.size ≤ bytes.length ∧
          8 * t.room.reserved ≤ bytes.length ∧ 8 * t.room.children ≤ bytes.length ∧
            4 * t.room.grown ≤ bytes.length := by
  intro bytes
  have hnext {α β : Type} {x : Restoring α} {f : α → Restoring β} {s t : Restoration} (a : α)
      (hx : (x.run s).1 = .ok a) (h : Passes (f a) (x.run s).2 t) : Passes (x >>= f) s t :=
    .next (run_eq_iff.2 ⟨hx, rfl⟩) h
  have hpasses : Passes takeArchive (.start (Network.model {}) bytes) _ :=
    hnext .current (by decide +kernel) (hnext () (by decide +kernel)
      (hnext [Network.ref 0] (by decide +kernel) (hnext [0] (by decide +kernel)
        (.first .finish fun counts => (modest_takeBodies counts _).stepwise))))
  exact ⟨by decide +kernel, _, hpasses, by decide +kernel, by decide +kernel, by decide +kernel,
    by decide +kernel, hpasses.allocates_le⟩

/-- There may be more places in a list of children than the archive has bytes for. Of
    seventeen children the last one does not fit into the sixteen places that there are by
    then, and these are doubled, in an archive of 206 bytes. -/
theorem Passes.grows_beyond :
    let bytes := encodeAll ([.preamble .current, .u32 0, .u32 0, .u32 0, .u32 1] ++
      [.u32 1, .nullRef, .u32 0, .u32 0, .u16 0, .u32 0, .u16 0, .u32 17] ++
      List.replicate 17 (.ref 0 1) ++ [.u32 0, .nullRef, .bool false, .bool false])
    ∃ roots t, takeArchive.run (.start (Network.model {}) bytes) = (.ok roots, t) ∧
      Passes takeArchive (.start (Network.model {}) bytes) t ∧
        t.room.grown = 32 ∧ bytes.length = 206 ∧ ¬ 8 * t.room.grown ≤ bytes.length := by
  intro bytes
  have hok : (takeArchive.run (.start (Network.model {}) bytes)).1 = .ok [] := by decide +kernel
  have hgrown : (takeArchive.run (.start (Network.model {}) bytes)).2.room.grown = 32 := by
    decide +kernel
  have hlength : bytes.length = 206 := by decide +kernel
  refine ⟨[], _, run_eq_iff.2 ⟨hok, rfl⟩, .finish, hgrown, hlength, ?_⟩
  rw [hgrown, hlength]
  decide

end Restoring

end ObjectModel
