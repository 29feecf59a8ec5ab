import ObjectModel.Proofs.Adoption.Adopting

/-!
# Lists of children under change

What it comes to in any graph, sound or not, that a child is filed in lists of a
parent or taken out of them. Filing changes nothing but these lists, and makes
them longer (`Graph.Fills`); taking out makes them shorter. So a graph that was
left is not come back to on the way. If filing or taking out fails and still
leaves the graph as it is, then it does so at the first list for which there is
something to do (`Graph.exists_forM_file_error`, `Graph.exists_forM_unfile_error`).
-/

namespace ObjectModel

/-- Where one element is exchanged, the lengths differ by what it counts for. -/
theorem length_flatMap_set {α β : Type} {f : α → List β} {l : List α} {i : Nat} {a : α} (b : α)
    (h : l[i]? = some a) : ((l.set i b).flatMap f).length + (f a).length =
      (l.flatMap f).length + (f b).length := by
  induction l generalizing i with
  | nil => cases h
  | cons x l ih =>
    cases i with
    | zero =>
      obtain rfl := Option.some.inj h
      simp only [List.set_cons_zero, List.flatMap_cons, List.length_append]
      omega
    | succ i =>
      have hrest := ih h
      simp only [List.set_cons_succ, List.flatMap_cons, List.length_append]
      omega

namespace Graph

variable {g h k : Graph} {p c r : Ref} {o : Object} {bucket : String} {items : List Ref}
  {buckets : List String} {D E : Set Ref}

theorem run_read_error {α : Type} {f : Graph → Except GraphError α} {e : GraphError}
    (hf : f g = .error e) : (Update.read f).run g = (.error e, g) :=
  congrArg (·, g) hf

theorem run_apply_error {f : Graph → Except GraphError Graph} {e : GraphError}
    (hf : f g = .error e) : (Update.apply f).run g = (.error e, g) := by
  simp only [Update.apply, ExceptT.run, hf]

/-! ## What does not take part -/

theorem spares_read {α : Type} {f : Graph → Except GraphError α} :
    Follows (Spares · D ·) (Update.read f) := fun g => .refl g D

/-- A change to a header leaves all other objects alone. -/
theorem spares_updateHeader {f : Header → Header} (hr : r ∈ D) :
    Follows (Spares · D ·) (Update.apply (·.updateHeader r f)) := by
  intro g
  rcases hcontains : g.contains r with _ | _
  · rw [run_apply_error (updateHeader_eq_error hcontains)]
    exact .refl g D
  · rw [run_apply (updateHeader_eq hcontains)]
    exact spares_modify hr

/-! ## What lists hold -/

/-- A list is read from a slot of references, where an empty slot is an empty list. -/
theorem elements_eq_ok : g.elements r bucket = .ok items ↔
    ∃ list, g.get r bucket = .ok (.refs list) ∧ list.getD [] = items := by
  rw [elements, map_eq_ok]
  refine exists_congr fun list => and_congr_left fun _ => ?_
  rw [Graph.list, bind_eq_ok]
  constructor
  · rintro ⟨v, hv, hlist⟩
    cases v <;> first | cases hlist; exact hv | cases hlist
  · exact fun hget => ⟨_, hget, rfl⟩

/-- `c` is in the list `bucket` of `p`. -/
def Holds (g : Graph) (p : Ref) (bucket : String) (c : Ref) : Prop :=
  ∃ items, g.elements p bucket = .ok items ∧ c ∈ items

/-- `c` is not in the list `bucket` of `p`, and cannot be put into it. -/
def Bars (g : Graph) (p : Ref) (bucket : String) (c : Ref) : Prop :=
  ¬ g.Holds p bucket c ∧ ∃ e, g.elements p bucket = .error e ∨ g.push p bucket c = .error e

/-- `c` is in the list `bucket` of `p`, and cannot be taken out: the others that
    are in the list may not be. -/
def Binds (g : Graph) (p : Ref) (bucket : String) (c : Ref) : Prop :=
  ∃ items, g.get p bucket = .ok (.refs (some items)) ∧ c ∈ items ∧
    ∃ e, g.set p bucket (.refs (some (items.filter (· != c)))) = .error e

theorem holds_iff_get : g.Holds p bucket c ↔
    ∃ items, g.get p bucket = .ok (.refs (some items)) ∧ c ∈ items := by
  constructor
  · rintro ⟨items, helements, hmem⟩
    obtain ⟨_ | list, hget, rfl⟩ := elements_eq_ok.1 helements
    · exact absurd hmem List.not_mem_nil
    · exact ⟨list, hget, hmem⟩
  · rintro ⟨items, hget, hmem⟩
    exact ⟨items, elements_eq_ok.2 ⟨_, hget, rfl⟩, hmem⟩

/-- Filing looks for the child first, and adds it only if it is not found. -/
theorem run_file_eq : (file p c bucket).run g = match g.elements p bucket with
    | .error e => (.error e, g)
    | .ok items => if c ∈ items then (.ok (), g) else match g.push p bucket c with
      | .ok h => (.ok (), h)
      | .error e => (.error e, g) := by
  cases helements : g.elements p bucket with
  | error e => exact run_bind_error (congrArg (·, g) helements)
  | ok items =>
    refine (run_bind_ok (run_read helements)).trans ?_
    by_cases hmem : c ∈ items
    · simp only [hmem, not_true_eq_false, if_false, if_true]
      rfl
    · simp only [hmem, not_false_eq_true, if_false, if_true]
      rfl

/-- Taking out writes a list only if the child is in it. -/
theorem run_unfile_eq : (unfile p c bucket).run g = match g.get p bucket with
    | .error e => (.error e, g)
    | .ok (.refs (some items)) => if c ∈ items then
        match g.set p bucket (.refs (some (items.filter (· != c)))) with
        | .ok h => (.ok (), h)
        | .error e => (.error e, g)
      else (.ok (), g)
    | .ok _ => (.ok (), g) := by
  -- The list is written again only if leaving the child out made it shorter.
  have hlength (items : List Ref) :
      (items.filter (· != c)).length ≠ items.length ↔ c ∈ items := by
    rw [Ne, List.length_filter_eq_length_iff]
    simp
  cases hget : g.get p bucket with
  | error e => exact run_bind_error (congrArg (·, g) hget)
  | ok v =>
    refine (run_bind_ok (run_read hget)).trans ?_
    match v with
    | .refs (some items) =>
      by_cases hmem : c ∈ items
      · simp only [hlength, hmem, if_true]
        rfl
      · simp only [hlength, hmem, if_false]
        rfl
    | .refs none | .ref _ | .text _ | .bool _ | .int _ | .uint _ => rfl

/-! ## The number of references held -/

/-- The number of references that an object holds. -/
def held (g : Graph) (r : Ref) : Nat :=
  ((g.object? r).map fun o => (o.values.flatMap Value.references).length).getD 0

/-- The number of references that are held changes by those of one value. -/
theorem held_set {i : Nat} {v w : Value} (ho : g.object? r = some o) (hv : o.values[i]? = some v) :
    (g.modify r fun p => { p with values := o.values.set i w }).held r + v.references.length =
      g.held r + w.references.length := by
  rw [held, held, object?_modify_self, ho]
  exact length_flatMap_set w hv

/-- The slot of a list from which elements are read. -/
theorem exists_slot_of_get {list : Option (List Ref)} (hget : g.get r bucket = .ok (.refs list)) :
    ∃ o l i slot, g.object? r = some o ∧ g.layout r = .ok l ∧ l.slotOf? bucket = some i ∧
      l[i]? = some slot ∧ o.values[i]? = some (.refs list) := by
  obtain ⟨o, l, i, ho, hl, hi, hvalue⟩ := get_eq_ok.1 hget
  obtain ⟨slot, hslot, -⟩ := exists_slot hi
  refine ⟨o, l, i, slot, ho, hl, hi, hslot, ?_⟩
  rw [List.getD_eq_getElem?_getD] at hvalue
  cases hv : o.values[i]? with
  | none => rw [hv] at hvalue; cases hvalue
  | some v => rw [hv] at hvalue; exact congrArg some hvalue

/-- From `g` to `h` nothing changes but the values of `p`, and if these change,
    there are more references in them. -/
structure Fills (g : Graph) (p : Ref) (h : Graph) : Prop where
  spares : g.Spares {p} h
  parent : ∀ r, h.parent? r = g.parent? r
  children : ∀ r, h.childrenOf r = g.childrenOf r
  eq_or_lt : h = g ∨ g.held p < h.held p

theorem Fills.refl (g : Graph) (p : Ref) : g.Fills p g :=
  ⟨.refl g {p}, fun _ => rfl, fun _ => rfl, .inl rfl⟩

theorem Fills.trans (hgh : g.Fills p h) (hhk : h.Fills p k) : g.Fills p k where
  spares := hgh.spares.trans hhk.spares
  parent r := (hhk.parent r).trans (hgh.parent r)
  children r := (hhk.children r).trans (hgh.children r)
  eq_or_lt := by
    rcases hgh.eq_or_lt with rfl | hlt
    · exact hhk.eq_or_lt
    · rcases hhk.eq_or_lt with rfl | hlt'
      · exact .inr hlt
      · exact .inr (Nat.lt_trans hlt hlt')

/-- Lists that only get longer and come out the same have not changed. -/
theorem Fills.antisymm (hgh : g.Fills p h) (hhg : h.Fills p g) : g = h := by
  rcases hgh.eq_or_lt with rfl | hlt
  · rfl
  · rcases hhg.eq_or_lt with rfl | hlt'
    · rfl
    · omega

section

variable {values : List Value}

theorem fills_modify (hlt : g.held p < (g.modify p fun q => { q with values }).held p) :
    g.Fills p (g.modify p fun q => { q with values }) where
  spares := spares_modify (D := {p}) rfl
  parent _ := parent?_modify_of_eq fun _ => rfl
  children _ := childrenOf_modify_of_eq fun _ => rfl
  eq_or_lt := .inr hlt

theorem modify_fills (hlt : (g.modify p fun q => { q with values }).held p < g.held p) :
    (g.modify p fun q => { q with values }).Fills p g where
  spares := Spares.symm (spares_modify (D := {p}) rfl)
  parent _ := Eq.symm (parent?_modify_of_eq fun _ => rfl)
  children _ := Eq.symm (childrenOf_modify_of_eq fun _ => rfl)
  eq_or_lt := .inr hlt

end

/-! ## One list -/

/-- What is put into a list makes it longer. -/
theorem fills_push (helements : g.elements p bucket = .ok items)
    (hpush : g.push p bucket c = .ok h) : g.Fills p h ∧ h ≠ g := by
  obtain ⟨list, hget, rfl⟩ := elements_eq_ok.1 helements
  obtain ⟨o, l, i, slot, ho, hl, hi, hslot, hv⟩ := exists_slot_of_get hget
  obtain ⟨-, rfl⟩ := (push_eq_ok ho hl hi hslot hv).1 hpush
  have hheld := held_set (w := .refs (some (list.getD [] ++ [c]))) ho hv
  simp only [Value.references_refs, Option.getD_some, List.length_append,
    List.length_singleton] at hheld
  have hlt : g.held p < (g.modify p fun q =>
      { q with values := o.values.set i (.refs (some (list.getD [] ++ [c]))) }).held p := by
    omega
  exact ⟨fills_modify hlt, fun heq => absurd hlt (by rw [heq]; exact Nat.lt_irrefl _)⟩

/-- What is taken out of a list makes it shorter. -/
theorem set_fills (hget : g.get p bucket = .ok (.refs (some items))) (hmem : c ∈ items)
    (hset : g.set p bucket (.refs (some (items.filter (· != c)))) = .ok h) :
    h.Fills p g ∧ h ≠ g := by
  obtain ⟨o, l, i, slot, ho, hl, hi, hslot, hv⟩ := exists_slot_of_get hget
  obtain ⟨-, rfl⟩ := (set_eq_ok ho hl hi hslot).1 hset
  have hheld := held_set (w := .refs (some (items.filter (· != c)))) ho hv
  have hshorter : (items.filter (· != c)).length < items.length :=
    List.length_filter_lt_length_iff_exists.2 ⟨c, hmem, by simp⟩
  simp only [Value.references_refs, Option.getD_some] at hheld
  have hlt : (g.modify p fun q =>
      { q with values := o.values.set i (.refs (some (items.filter (· != c)))) }).held p <
        g.held p := by
    omega
  exact ⟨modify_fills hlt, fun heq => absurd hlt (by rw [heq]; exact Nat.lt_irrefl _)⟩

/-- Filing in a list makes it longer or leaves it, also if it fails. -/
theorem follows_file : Follows (Fills · p ·) (file p c bucket) := by
  intro g
  rw [run_file_eq]
  split
  · exact .refl g p
  · rename_i items helements
    split
    · exact .refl g p
    · split
      · exact (fills_push helements ‹_›).1
      · exact .refl g p

/-- Taking out makes a list shorter or leaves it. -/
theorem follows_unfile : Follows (fun g h => Fills h p g) (unfile p c bucket) := by
  intro g
  rw [run_unfile_eq]
  split
  · exact .refl g p
  · rename_i items hget
    split
    · split
      · exact (set_fills hget ‹_› ‹_›).1
      · exact .refl g p
    · exact .refl g p
  · exact .refl g p

/-- Filing changes nothing where the child is in the list. -/
theorem run_file_eq_self : (file p c bucket).run g = (.ok (), g) ↔ g.Holds p bucket c := by
  rw [run_eq_iff, run_file_eq, Holds]
  cases helements : g.elements p bucket with
  | error e => simp
  | ok items =>
    by_cases hmem : c ∈ items
    · simp [hmem]
    · cases hpush : g.push p bucket c with
      | error e => simp [hmem]
      | ok h => simp [hmem, (fills_push helements hpush).2]

/-- Filing fails without a trace where the list bars the child. -/
theorem exists_run_file_error :
    (∃ e, (file p c bucket).run g = (.error e, g)) ↔ g.Bars p bucket c := by
  rw [exists_run_error_iff, run_file_eq, Bars, Holds]
  cases helements : g.elements p bucket with
  | error e => simp
  | ok items =>
    by_cases hmem : c ∈ items
    · simp [hmem]
    · cases hpush : g.push p bucket c <;> simp [hmem]

/-- Taking out changes nothing where the child is not in the list. -/
theorem run_unfile_eq_self {v : Value} (hget : g.get p bucket = .ok v) :
    (unfile p c bucket).run g = (.ok (), g) ↔ ¬ g.Holds p bucket c := by
  rw [run_eq_iff, run_unfile_eq, holds_iff_get, hget]
  match v with
  | .refs (some items) =>
    by_cases hmem : c ∈ items
    · cases hset : g.set p bucket (.refs (some (items.filter (· != c)))) with
      | error e => simp [hmem, hset]
      | ok h => simp [hmem, hset, (set_fills hget hmem hset).2]
    · simp [hmem]
  | .refs none | .ref _ | .text _ | .bool _ | .int _ | .uint _ => simp

/-- Taking out fails without a trace where the list binds the child. -/
theorem exists_run_unfile_error {v : Value} (hget : g.get p bucket = .ok v) :
    (∃ e, (unfile p c bucket).run g = (.error e, g)) ↔ g.Binds p bucket c := by
  rw [exists_run_error_iff, run_unfile_eq, Binds, hget]
  match v with
  | .refs (some items) =>
    by_cases hmem : c ∈ items
    · cases hset : g.set p bucket (.refs (some (items.filter (· != c)))) <;> simp [hmem, hset]
    · simp [hmem]
  | .refs none | .ref _ | .text _ | .bool _ | .int _ | .uint _ => simp

/-! ## Several lists -/

/-- The first of the lists in which `c` is not yet bars it. -/
def FirstBars (g : Graph) (p c : Ref) (buckets : List String) : Prop :=
  ∃ pre bucket post, buckets = pre ++ bucket :: post ∧ (∀ b ∈ pre, g.Holds p b c) ∧
    g.Bars p bucket c

/-- The first of the lists in which `c` is binds it. -/
def FirstBinds (g : Graph) (p c : Ref) (buckets : List String) : Prop :=
  ∃ pre bucket post, buckets = pre ++ bucket :: post ∧ (∀ b ∈ pre, ¬ g.Holds p b c) ∧
    g.Binds p bucket c

theorem follows_forM_file : Follows (Fills · p ·) (buckets.forM (file p c)) :=
  .forM (Fills.refl · p) (fun _ _ _ => .trans) fun _ _ => follows_file

theorem follows_forM_unfile : Follows (fun g h => Fills h p g) (buckets.forM (unfile p c)) :=
  .forM (Fills.refl · p) (fun _ _ _ h h' => h'.trans h) fun _ _ => follows_unfile

theorem fills_of_run_unfile {result : Except GraphError PUnit}
    (hrun : (buckets.forM (unfile p c)).run g = (result, h)) : h.Fills p g := by
  obtain rfl : ((buckets.forM (unfile p c)).run g).2 = h := congrArg Prod.snd hrun
  exact follows_forM_unfile g

/-- Filing in several lists fails without a trace at
    the first one that has anything to be done. -/
theorem exists_forM_file_error :
    (∃ e, (buckets.forM (file p c)).run g = (.error e, g)) ↔ g.FirstBars p c buckets := by
  rw [exists_run_forM_error (Fills.refl · p) (fun _ _ _ => Fills.trans)
    (fun _ _ => Fills.antisymm) fun _ _ => follows_file]
  simp only [run_file_eq_self, exists_run_file_error, FirstBars]

/-- The lists in which children are filed can be read. -/
theorem exists_get_of_mem_bucketsFor (hp : g.contains p = true)
    (hbuckets : g.bucketsFor p c = .ok buckets) (hmem : bucket ∈ buckets) :
    ∃ v, g.get p bucket = .ok v := by
  obtain ⟨o, ho⟩ := contains_iff.1 hp
  obtain ⟨e, -, hbuckets⟩ := bind_eq_ok.1 hbuckets
  dsimp only at hbuckets
  split at hbuckets
  · obtain rfl := pure_eq_ok.1 hbuckets
    exact absurd hmem List.not_mem_nil
  · obtain ⟨members, hmembers, hbuckets⟩ := bind_eq_ok.1 hbuckets
    obtain rfl := pure_eq_ok.1 hbuckets
    obtain ⟨l, hl, rfl⟩ := map_eq_ok.1 hmembers
    obtain ⟨-, hlist⟩ := List.mem_filter.1 (List.mem_eraseDups.1 hmem)
    obtain ⟨m, hm, hname⟩ := List.any_eq_true.1 hlist
    obtain ⟨slot, hslot, rfl⟩ := List.mem_map.1 hm
    obtain ⟨i, hi⟩ := lastIndex?_isSome (p := (·.member.name == bucket)) hslot
      (Bool.and_eq_true_iff.1 hname).1
    exact ⟨_, get_eq ho hl hi⟩

/-- Taking out of several lists fails without a trace at the first one that has
    anything to be taken out. -/
theorem exists_forM_unfile_error (hp : g.contains p = true)
    (hbuckets : g.bucketsFor p c = .ok buckets) :
    (∃ e, (buckets.forM (unfile p c)).run g = (.error e, g)) ↔ g.FirstBinds p c buckets := by
  rw [exists_run_forM_error (R := fun g h => h.Fills p g) (Fills.refl · p)
    (fun _ _ _ h h' => h'.trans h) (fun _ _ h h' => h'.antisymm h) fun _ _ => follows_unfile]
  refine exists_congr fun pre => exists_congr fun bucket => exists_congr fun post =>
    and_congr_right fun hsplit => and_congr (forall₂_congr fun b hb => ?_) ?_
  · have hmem : b ∈ buckets := hsplit ▸ List.mem_append_left _ hb
    obtain ⟨v, hget⟩ := exists_get_of_mem_bucketsFor hp hbuckets hmem
    exact run_unfile_eq_self hget
  · have hmem : bucket ∈ buckets := hsplit ▸ List.mem_append_right _ List.mem_cons_self
    obtain ⟨v, hget⟩ := exists_get_of_mem_bucketsFor hp hbuckets hmem
    exact exists_run_unfile_error hget

end Graph

end ObjectModel
