import Mathlib.Data.List.ProdSigma
import ObjectModel.Graph.Comparison
import ObjectModel.Proofs.Graph.Typing
import ObjectModel.Proofs.Search

/-!
# What a comparison settles

For two objects to be equal, some orders have to come out equal, and some
pairs of objects that they refer to have to be equal in turn: these are the
demands of a pair (`Graph.demands`). A comparison goes through them and stops
at the first that fails. It takes a pair that it has met before for granted,
also while that pair is still under comparison.

This is sound, as the pairs that a comparison has met in the end make no demand
that it did not go through: they form a consistent set (`Graph.Consistent`).
And it is complete, as no demand of a pair in a consistent set fails.

* `Graph.run_compareWith_eq_ok`: what a comparison of two objects does;
* `Graph.compareUpTo_settles`: what a comparison of sufficient depth settles;
* `Graph.compare_eq_iff_consistent`: objects compare equal if and only if they
  are a pair of some consistent set.
-/

namespace ObjectModel

/-- Something that has to hold for objects to be equal: an order is equality,
    and pairs of objects are equal. -/
structure Demand where
  order : Ordering
  pairs : List (Ref × Ref)

/-- The demands hold, provided that the pairs in `S` are equal. -/
def Holds (S : Set (Ref × Ref)) (demands : List Demand) : Prop :=
  ∀ d ∈ demands, d.order = .eq ∧ ∀ q ∈ d.pairs, q ∈ S

/-- The pairs that have been met. -/
def Pairing.pairs (p : Pairing) : Set (Ref × Ref) := {q | q ∈ p.met}

@[simp]
theorem Pairing.met_fail {p : Pairing} {a b : Ref} {o : Ordering} :
    (p.fail a b o).2.met = p.met := by
  rw [fail]
  split <;> rfl

/-- What is demanded of the values of two objects in a reference member. -/
def Value.demand : Value → Value → Demand
  | .ref (some c), .ref (some d) => ⟨.eq, [(c, d)]⟩
  | .ref c, .ref d => ⟨Ord.compare c.isSome.toNat d.isSome.toNat, []⟩
  | .refs c, .refs d =>
    ⟨Ord.compare (c.getD []).length (d.getD []).length, (c.getD []).zip (d.getD [])⟩
  | v, w => ⟨v.scalarCompare w, []⟩

/-- What is demanded of the values of two objects in a member. -/
def Member.demand (m : Member) (v w : Value) : Demand :=
  if m.isReference then v.demand w else ⟨v.scalarCompare w, []⟩

section

variable {S T : Set (Ref × Ref)} {d : Demand} {ds es : List Demand}

@[simp]
theorem holds_nil : Holds S [] := fun _ hd => absurd hd List.not_mem_nil

@[simp]
theorem holds_cons : Holds S (d :: ds) ↔ (d.order = .eq ∧ ∀ q ∈ d.pairs, q ∈ S) ∧ Holds S ds :=
  List.forall_mem_cons

@[simp]
theorem holds_append : Holds S (ds ++ es) ↔ Holds S ds ∧ Holds S es := List.forall_mem_append

theorem Holds.mono (h : Holds S ds) (hST : S ⊆ T) : Holds T ds :=
  fun d hd => ⟨(h d hd).1, fun q hq => hST ((h d hd).2 q hq)⟩

theorem holds_pair {q : Ref × Ref} : Holds S [⟨.eq, [q]⟩] ↔ q ∈ S := by simp

theorem holds_pairs {l : List (Ref × Ref)} :
    Holds S (l.map fun q => ⟨.eq, [q]⟩) ↔ ∀ q ∈ l, q ∈ S := by
  rw [Holds, List.forall_mem_map]
  simp only [List.forall_mem_singleton, true_and]

end

/-- What a member demands are pairs of references that it holds on either side. -/
theorem Member.mem_pairs_demand {m : Member} {v w : Value} {q : Ref × Ref}
    (h : q ∈ (m.demand v w).pairs) : q.1 ∈ v.references ∧ q.2 ∈ w.references := by
  rw [demand] at h
  split at h
  · unfold Value.demand at h
    split at h
    · rw [List.mem_singleton.1 h]
      exact ⟨List.mem_cons_self, List.mem_cons_self⟩
    · cases h
    · rename_i c d
      cases c <;> cases d <;> exact List.of_mem_zip h
    · cases h
  · cases h

namespace Graph

variable (left right : Graph)

/-- What is demanded of two objects of a layout in the slot of a member. -/
def slotDemand (l : Layout) (o p : Object) (m : Member) : Demand :=
  match l.slotOf? m.name with
  | some i => m.demand (o.values.getD i default) (p.values.getD i default)
  | none => ⟨.eq, []⟩

/-- What is demanded of two objects. -/
def demands (q : Ref × Ref) : List Demand :=
  match left.entity q.1, left.layout q.1, left.object? q.1, right.object? q.2 with
  | .ok e, .ok l, some o, some p => (comparedMembers left.model e).map (slotDemand l o p)
  | _, _, _, _ => []

theorem exists_mem_references {r : Ref} {values : List Value} {i : Nat}
    (h : r ∈ (values.getD i default).references) : ∃ v ∈ values, r ∈ v.references := by
  rw [List.getD_eq_getElem?_getD] at h
  cases hv : values[i]? with
  | none => rw [hv] at h; cases h
  | some v => exact ⟨v, List.mem_of_getElem? hv, by simpa [hv] using h⟩

/-- What a slot demands are pairs of references in
    its values, and none where it has no value. -/
theorem mem_pairs_slotDemand {l : Layout} {o p : Object} {m : Member} {q : Ref × Ref}
    (h : q ∈ (slotDemand l o p m).pairs) :
    (∃ v ∈ o.values, q.1 ∈ v.references) ∧ ∃ w ∈ p.values, q.2 ∈ w.references := by
  rw [slotDemand] at h
  split at h
  · exact (Member.mem_pairs_demand h).imp exists_mem_references exists_mem_references
  · cases h

/-- The pair has a single tag, and its demands hold in `S`. -/
def Meets (S : Set (Ref × Ref)) (q : Ref × Ref) : Prop :=
  q.1.tag = q.2.tag ∧ Holds S (demands left right q)

/-- The pairs of a set demand no more than each other. -/
def Consistent (S : Set (Ref × Ref)) : Prop := ∀ q ∈ S, Meets left right S q

/-- From `p` to `p'`, a comparison has gone through the demands of the pairs
    that it has met. -/
def Grows (p p' : Pairing) : Prop := ∀ q ∈ p'.pairs, q ∈ p.pairs ∨ Meets left right p'.pairs q

/-- From `p`, the comparison `x` comes to the order `o` and to `p'`. It tells
    whether the demands hold: they do if it comes to equality, in the pairs met,
    and it comes to equality if they do in a consistent set. -/
structure Settles (x : Comparing Ordering) (p : Pairing) (ds : List Demand) (o : Ordering)
    (p' : Pairing) : Prop where
  run : x.run p = .ok (o, p')
  met : p.met ⊆ p'.met
  sound : o = .eq → Grows left right p p' ∧ Holds p'.pairs ds
  complete : ∀ S, Consistent left right S → Holds S ds → o = .eq

variable {left right} {x y : Comparing Ordering} {p u p' : Pairing} {o o' : Ordering}
  {ds es : List Demand} {a b : Ref}

/-- A pair of objects demands what its compared members do, in their order. -/
theorem demands_eq {e : Entity} {l : Layout} {q q' : Object} (he : left.entity a = .ok e)
    (hl : left.layout a = .ok l) (hq : left.object? a = some q) (hq' : right.object? b = some q') :
    demands left right (a, b) = (comparedMembers left.model e).map (slotDemand l q q') := by
  simp only [demands, he, hl, hq, hq']

theorem Meets.mono {S T : Set (Ref × Ref)} {q : Ref × Ref} (h : Meets left right S q)
    (hST : S ⊆ T) : Meets left right T q :=
  ⟨h.1, h.2.mono hST⟩

theorem Grows.refl : Grows left right p p := fun _ hq => .inl hq

theorem Grows.trans (h : Grows left right p u) (h' : Grows left right u p')
    (hsub : u.met ⊆ p'.met) : Grows left right p p' := fun q hq =>
  (h' q hq).elim (fun hq => (h q hq).imp_right fun hm => hm.mono fun _ hs => hsub hs) .inr

/-- What is demanded may be put in another way. -/
theorem Settles.of_iff (h : Settles left right x p ds o p') (hds : ∀ S, Holds S ds ↔ Holds S es) :
    Settles left right x p es o p' where
  run := h.run
  met := h.met
  sound ho := (h.sound ho).imp_right (hds _).1
  complete S hS hes := h.complete S hS ((hds S).2 hes)

/-- Of a consistent set, the pairs in a set that demands nothing beyond itself
    are consistent. -/
theorem Consistent.inter {S D : Set (Ref × Ref)} (h : Consistent left right S)
    (hD : ∀ q ∈ D, ∀ d ∈ demands left right q, ∀ s ∈ d.pairs, s ∈ D) :
    Consistent left right (S ∩ D) := by
  rintro q ⟨hS, hq⟩
  obtain ⟨htag, hholds⟩ := h q hS
  exact ⟨htag, fun d hd => ⟨(hholds d hd).1, fun s hs => ⟨(hholds d hd).2 s hs, hD q hq d hd s hs⟩⟩⟩

theorem run_bind_comparing {α β : Type} {x : Comparing α} {f : α → Comparing β} {a : α}
    (h : x.run p = .ok (a, u)) : (x >>= f).run p = (f a).run u := by
  rw [StateT.run_bind, h]
  rfl

theorem run_bind_eq_ok {α β : Type} {x : Comparing α} {f : α → Comparing β} {r : β × Pairing} :
    (x >>= f).run p = .ok r ↔ ∃ a u, x.run p = .ok (a, u) ∧ (f a).run u = .ok r := by
  rw [StateT.run_bind, bind_eq_ok, Prod.exists]

/-- What is read of the graph meets no pair. -/
theorem run_lift_eq_ok {α β : Type} {x : Except GraphError α} {f : α → Comparing β}
    {r : β × Pairing} :
    ((liftM x : Comparing α) >>= f).run p = .ok r ↔ ∃ a, x = .ok a ∧ (f a).run p = .ok r := by
  cases x with
  | error e =>
    refine ⟨fun h => ?_, fun ⟨_, h, _⟩ => ?_⟩ <;> cases h
  | ok a =>
    refine ⟨fun h => ⟨a, rfl, h⟩, fun ⟨_, ha, h⟩ => ?_⟩
    cases ha
    exact h

/-- Nothing is demanded. -/
theorem Settles.nothing : Settles left right (pure .eq) p [] .eq p where
  run := rfl
  met _ hq := hq
  sound _ := ⟨.refl, holds_nil⟩
  complete _ _ _ := rfl

/-- An order is demanded of the pair itself. -/
theorem Settles.decide :
    Settles left right (Comparing.decide a b o) p [⟨o, []⟩] o (p.fail a b o).2 where
  run := rfl
  met := by rw [Pairing.met_fail]; exact fun _ hq => hq
  sound ho := by
    subst ho
    exact ⟨.refl, by simp⟩
  complete _ _ h := (holds_cons.1 h).1.1

/-- After what is equal, what follows settles more. -/
theorem Settles.andThen (hx : Settles left right x p ds .eq u)
    (hy : Settles left right y u es o p') :
    Settles left right (do match ← x with | .eq => y | o => return o) p (ds ++ es) o p' where
  run := (run_bind_comparing hx.run).trans hy.run
  met _ hq := hy.met (hx.met hq)
  sound ho := by
    obtain ⟨hgx, hdx⟩ := hx.sound rfl
    obtain ⟨hgy, hdy⟩ := hy.sound ho
    exact ⟨hgx.trans hgy hy.met, holds_append.2 ⟨hdx.mono fun _ hq => hy.met hq, hdy⟩⟩
  complete S hS h := hy.complete S hS (holds_append.1 h).2

/-- Nothing follows what differs. -/
theorem Settles.stop (hx : Settles left right x p ds o u) (ho : o ≠ .eq) :
    Settles left right (do match ← x with | .eq => y | o => return o) p (ds ++ es) o u where
  run := by
    refine (run_bind_comparing hx.run).trans ?_
    cases o with
    | eq => exact absurd rfl ho
    | lt => rfl
    | gt => rfl
  met := hx.met
  sound h := absurd h ho
  complete S hS h := absurd (hx.complete S hS (holds_append.1 h).1) ho

/-- What differs may be kept of the pair itself, too. -/
theorem Settles.decided (hx : Settles left right x p ds o u) :
    Settles left right (x >>= Comparing.decide a b) p ds o (u.fail a b o).2 where
  run := run_bind_comparing hx.run
  met := by rw [Pairing.met_fail]; exact hx.met
  sound ho := by
    subst ho
    exact hx.sound rfl
  complete := hx.complete

variable {all : List (Ref × Ref)} {n : Nat}

/-- The elements of a list are settled up to the first that differs. -/
theorem Settles.firstDifference {α : Type} {f : α → Comparing Ordering} {demand : α → Demand}
    {l : List α} (hf : ∀ a ∈ l, ∀ p, remaining all p.met < n →
      ∃ o p', Settles left right (f a) p [demand a] o p')
    (hp : remaining all p.met < n) :
    ∃ o p', Settles left right (firstDifference f l) p (l.map demand) o p' := by
  induction l generalizing p with
  | nil => exact ⟨_, _, .nothing⟩
  | cons a l ih =>
    obtain ⟨o, u, hu⟩ := hf a List.mem_cons_self p hp
    by_cases ho : o = .eq
    · subst ho
      obtain ⟨o, p', hp'⟩ := ih (fun b hb => hf b (List.mem_cons_of_mem _ hb))
        (Nat.lt_of_le_of_lt (remaining_le hu.met) hp)
      exact ⟨o, p', hu.andThen hp'⟩
    · exact ⟨o, u, hu.stop ho⟩

/-! ## Members -/

variable {cmp : Ref → Ref → Comparing Ordering}

/-- `cmp` settles the pairs in `D`, as long as less than `n` pairs remain to be
    met. -/
def SettlesPairs (left right : Graph) (all : List (Ref × Ref)) (D : Set (Ref × Ref)) (n : Nat)
    (cmp : Ref → Ref → Comparing Ordering) : Prop :=
  ∀ q ∈ D, ∀ p, remaining all p.met < n →
    ∃ o p', Settles left right (cmp q.1 q.2) p [⟨.eq, [q]⟩] o p'

variable {D : Set (Ref × Ref)}

/-- Two references are settled by the pair that they make up, or by what they differ in. -/
theorem SettlesPairs.compareReferences (hcmp : SettlesPairs left right all D n cmp) {v w : Value}
    (hD : ∀ q ∈ (v.demand w).pairs, q ∈ D) (hp : remaining all p.met < n) :
    ∃ o p', Settles left right (compareReferences cmp a b v w) p [v.demand w] o p' := by
  cases v with
  | ref c =>
    cases w with
    | ref d =>
      cases c with
      | none => cases d <;> exact ⟨_, _, .decide⟩
      | some c =>
        cases d with
        | none => exact ⟨_, _, .decide⟩
        | some d => exact hcmp (c, d) (hD _ List.mem_cons_self) p hp
    | _ => cases c <;> exact ⟨_, _, .decide⟩
  | refs c =>
    cases w with
    | refs d =>
      -- What is demanded of two lists is settled in two steps.
      have hdemand S : Holds S ([⟨Ord.compare (c.getD []).length (d.getD []).length, []⟩] ++
          ((c.getD []).zip (d.getD [])).map fun q => ⟨.eq, [q]⟩) ↔
            Holds S [(Value.refs c).demand (Value.refs d)] := by
        rw [holds_append, holds_pairs, holds_cons, holds_cons]
        simp [Value.demand]
      obtain ⟨o, u, hu⟩ : ∃ o u, Settles left right
          (Comparing.decide a b (Ord.compare (c.getD []).length (d.getD []).length)) p
            [⟨Ord.compare (c.getD []).length (d.getD []).length, []⟩] o u := ⟨_, _, .decide⟩
      by_cases ho : o = .eq
      · subst ho
        obtain ⟨o, p', hp'⟩ := Settles.firstDifference (l := (c.getD []).zip (d.getD []))
          (fun q hq => hcmp q (hD q hq)) (Nat.lt_of_le_of_lt (remaining_le hu.met) hp)
        exact ⟨o, _, (hu.andThen hp'.decided).of_iff hdemand⟩
      · exact ⟨o, u, (hu.stop ho).of_iff hdemand⟩
    | _ => exact ⟨_, _, .decide⟩
  | _ => exact ⟨_, _, .decide⟩

/-- A member is settled by the one demand that it makes. A member that holds no
    references is settled at once. -/
theorem SettlesPairs.compareMember (hcmp : SettlesPairs left right all D n cmp) {m : Member}
    {v w : Value} (hD : ∀ q ∈ (m.demand v w).pairs, q ∈ D) (hp : remaining all p.met < n) :
    ∃ o p', Settles left right (compareMember cmp a b m v w) p [m.demand v w] o p' := by
  rw [Member.demand] at hD ⊢
  rw [Graph.compareMember]
  split
  · rename_i hm
    rw [if_pos hm] at hD
    exact hcmp.compareReferences hD hp
  · exact ⟨_, _, .decide⟩

/-- Compares what `a` and `b` hold in the slot of a member, being the objects
    `q` and `q'` of a layout. -/
def compareSlot (cmp : Ref → Ref → Comparing Ordering) (a b : Ref) (l : Layout) (q q' : Object)
    (m : Member) : Comparing Ordering :=
  match l.slotOf? m.name with
  | some i => compareMember cmp a b m (q.values.getD i default) (q'.values.getD i default)
  | none => pure .eq

/-- A slot is settled by the demand of its member. -/
theorem SettlesPairs.compareSlot (hcmp : SettlesPairs left right all D n cmp) {l : Layout}
    {q q' : Object} {m : Member} (hD : ∀ s ∈ (slotDemand l q q' m).pairs, s ∈ D)
    (hp : remaining all p.met < n) :
    ∃ o p', Settles left right (compareSlot cmp a b l q q' m) p [slotDemand l q q' m] o p' := by
  rw [slotDemand] at hD ⊢
  rw [Graph.compareSlot]
  cases hslot : l.slotOf? m.name with
  | none => exact ⟨_, _, Settles.nothing.of_iff fun S => by simp⟩
  | some i =>
    rw [hslot] at hD
    exact hcmp.compareMember hD hp

/-! ## Objects -/

/-- A pair that was met is taken for granted. -/
theorem run_enter_met (h : (a, b) ∈ p.met) : (Comparing.enter a b).run p = .ok (false, p) := by
  change Except.ok (p.enter a b) = _
  rw [Pairing.enter, if_pos h]

/-- A new pair is gone through after it has been put down as met. -/
theorem run_enter_new (h : (a, b) ∉ p.met) :
    (Comparing.enter a b).run p = .ok (true, { p with met := p.met ++ [(a, b)] }) := by
  change Except.ok (p.enter a b) = _
  rw [Pairing.enter, if_neg h]

/-- Objects of different tags are in the order of these. A pair that was met is
    taken for granted. Other than that, members are compared. -/
theorem run_compareWith_eq_ok {r : Ordering × Pairing} :
    (compareWith left right cmp a b).run p = .ok r ↔
      (a.tag ≠ b.tag ∧ p.fail a b (Ord.compare a.tag b.tag) = r) ∨
      (a.tag = b.tag ∧ (a, b) ∈ p.met ∧ (.eq, p) = r) ∨
      (a.tag = b.tag ∧ (a, b) ∉ p.met ∧ ∃ e l q q', left.entity a = .ok e ∧
        left.layout a = .ok l ∧ left.object? a = some q ∧ right.object? b = some q' ∧
        (firstDifference (compareSlot cmp a b l q q') (comparedMembers left.model e)).run
          { p with met := p.met ++ [(a, b)] } = .ok r) := by
  rw [compareWith]
  by_cases htag : a.tag = b.tag
  · rw [if_neg (not_not.2 htag)]
    by_cases hmet : (a, b) ∈ p.met
    · rw [run_bind_comparing (run_enter_met hmet)]
      simp [htag, hmet]
    · rw [run_bind_comparing (run_enter_new hmet), if_pos rfl]
      simp only [run_lift_eq_ok, object_eq_ok]
      simp [htag, hmet]
      rfl
  · rw [if_pos htag]
    change Except.ok (p.fail a b (Ord.compare a.tag b.tag)) = .ok r ↔ _
    simp [htag]

/-- Pairs of objects are settled, if what is demanded of them is settled and is
    of such pairs again. -/
theorem SettlesPairs.compareWith (hcmp : SettlesPairs left right (left.refs ×ˢ right.refs) D n cmp)
    (hg : left.WellTyped)
    (hobject : ∀ q ∈ D, left.contains q.1 = true ∧ right.contains q.2 = true)
    (hclosed : ∀ q ∈ D, ∀ d ∈ demands left right q, ∀ s ∈ d.pairs, s ∈ D) :
    SettlesPairs left right (left.refs ×ˢ right.refs) D (n + 1) (compareWith left right cmp) := by
  rintro ⟨a, b⟩ hq p hp
  by_cases htag : a.tag = b.tag
  · by_cases hmet : (a, b) ∈ p.met
    · -- A pair that was met is taken for granted: it is among the pairs met.
      exact ⟨.eq, p, run_compareWith_eq_ok.2 (.inr (.inl ⟨htag, hmet, rfl⟩)), fun _ hs => hs,
        fun _ => ⟨.refl, holds_pair.2 hmet⟩, fun _ _ _ => rfl⟩
    · obtain ⟨ha, hb⟩ := hobject _ hq
      obtain ⟨o, ho⟩ := contains_iff.1 ha
      obtain ⟨o', ho'⟩ := contains_iff.1 hb
      obtain ⟨e, l, -, he, hl, -, -⟩ := hg.object ho
      have hdemands := demands_eq he hl ho ho'
      let u : Pairing := { p with met := p.met ++ [(a, b)] }
      have hsub : p.met ⊆ u.met := List.subset_append_left _ _
      have hu : (a, b) ∈ u.met := List.mem_append_right _ (List.mem_singleton_self _)
      have hall : (a, b) ∈ left.refs ×ˢ right.refs :=
        List.mem_product.2 ⟨mem_refs.2 ha, mem_refs.2 hb⟩
      obtain ⟨c, p', hp'⟩ := Settles.firstDifference (p := u)
        (fun m hm p hp => hcmp.compareSlot (a := a) (b := b)
          (hclosed _ hq _ (hdemands ▸ List.mem_map_of_mem hm)) hp)
        (Nat.lt_of_lt_of_le (remaining_lt hsub hall hmet hu) (Nat.le_of_lt_succ hp))
      have hrun := hp'.run
      rw [← hdemands] at hp'
      refine ⟨c, p', ?_, fun _ hs => hp'.met (hsub hs), fun hc => ?_, fun S hS hq => ?_⟩
      · exact run_compareWith_eq_ok.2 (.inr (.inr
          ⟨htag, hmet, e, l, o, o', he, hl, ho, ho', hrun⟩))
      · -- The pair is met before what is demanded of it is.
        obtain ⟨hgrows, hholds⟩ := hp'.sound hc
        refine ⟨fun s hs => (hgrows s hs).elim (fun hs => ?_) .inr, holds_pair.2 (hp'.met hu)⟩
        rcases List.mem_append.1 hs with hs | hs
        · exact .inl hs
        · rw [List.mem_singleton.1 hs]
          exact .inr ⟨htag, hholds⟩
      · exact hp'.complete S hS (hS _ (holds_pair.1 hq)).2
  · -- No consistent set has a pair of different tags.
    have hne : Ord.compare a.tag b.tag ≠ .eq := fun h => htag (Std.LawfulEqOrd.eq_of_compare h)
    refine ⟨_, (p.fail a b (Ord.compare a.tag b.tag)).2,
      run_compareWith_eq_ok.2 (.inl ⟨htag, rfl⟩), ?_, fun ho => absurd ho hne, fun S hS hq => ?_⟩
    · rw [Pairing.met_fail]
      exact fun _ hs => hs
    · exact absurd (hS _ (holds_pair.1 hq)).1 htag

/-- A comparison of sufficient depth settles pairs of objects. -/
theorem compareUpTo_settles (hg : left.WellTyped)
    (hobject : ∀ q ∈ D, left.contains q.1 = true ∧ right.contains q.2 = true)
    (hclosed : ∀ q ∈ D, ∀ d ∈ demands left right q, ∀ s ∈ d.pairs, s ∈ D) (n : Nat) :
    SettlesPairs left right (left.refs ×ˢ right.refs) D n (compareUpTo left right n) := by
  induction n with
  | zero => exact fun _ _ _ hp => absurd hp (Nat.not_lt_zero _)
  | succ n ih => exact ih.compareWith hg hobject hclosed

/-- Objects compare equal if and only if they are a pair of a consistent set. -/
theorem compare_eq_iff_consistent (hg : left.WellTyped)
    (hobject : ∀ q ∈ D, left.contains q.1 = true ∧ right.contains q.2 = true)
    (hclosed : ∀ q ∈ D, ∀ d ∈ demands left right q, ∀ s ∈ d.pairs, s ∈ D) (hab : (a, b) ∈ D) :
    ∃ c, compare left right a b = .ok c ∧
      (c.ordering = .eq ↔ ∃ S, Consistent left right S ∧ (a, b) ∈ S) := by
  have hdepth : remaining (left.refs ×ˢ right.refs) [] < left.size * right.size + 1 := by
    rw [← length_refs, ← length_refs, ← List.length_product]
    exact Nat.lt_succ_of_le remaining_le_length
  obtain ⟨o, p, hp⟩ := compareUpTo_settles hg hobject hclosed _ (a, b) hab {} hdepth
  refine ⟨⟨o, p.mismatch⟩, by rw [compare, hp.run]; rfl, fun ho => ?_, fun ⟨S, hS, hab⟩ => ?_⟩
  · obtain ⟨hgrows, hholds⟩ := hp.sound ho
    exact ⟨p.pairs, fun q hq => (hgrows q hq).resolve_left List.not_mem_nil, holds_pair.1 hholds⟩
  · exact hp.complete S hS (holds_pair.2 hab)

end Graph

end ObjectModel
