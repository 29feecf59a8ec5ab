import Mathlib.Order.Filter.AtTopBot.Basic
import ObjectModel.Proofs.Comparison.Unfolding
import ObjectModel.Proofs.Graph.Soundness

/-!
# Sorting acyclic objects

A comparison takes a pair that it meets again for granted. Where references
that are compared make up no cycle, such a pair is not under comparison any
more. It has been found equal then, as the comparison went on, so that nothing
is lost: the comparison finds the order of the unfolded objects, to whatever
sufficient depth (`Graph.compare_becomes`).

These orders compose. So acyclic objects, of several graphs over one schema that
go by one policy, are put in a total preorder by comparison
(`Graph.compare_preorder`).
-/

namespace ObjectModel

open Filter

/-- From some depth on, the order is `o`. -/
def Becomes (t : Nat → Ordering) (o : Ordering) : Prop := ∀ᶠ n in atTop, t n = o

namespace Becomes

variable {t u : Nat → Ordering} {o : Ordering}

theorem const (o : Ordering) : Becomes (fun _ => o) o := .of_forall fun _ => rfl

/-- Where the first order becomes equal, it is for the second to decide. -/
theorem andThen (ht : Becomes t .eq) (hu : Becomes u o) :
    Becomes (fun n => (t n).then (u n)) o := by
  filter_upwards [ht, hu] with n ht hu
  rw [ht, hu]
  rfl

/-- Nothing follows what differs. -/
theorem stop (ht : Becomes t o) (ho : o ≠ .eq) : Becomes (fun n => (t n).then (u n)) o := by
  filter_upwards [ht] with n ht
  rw [ht]
  cases o with
  | eq => exact absurd rfl ho
  | lt => rfl
  | gt => rfl

theorem of_eq (ht : Becomes t o) (htu : ∀ n, u n = t n) : Becomes u o :=
  ht.mono fun n hn => (htu n).trans hn

/-- The order may be taken at one depth more. -/
theorem of_succ (h : Becomes (fun n => t (n + 1)) o) : Becomes t o :=
  tendsto_pure.1 ((tendsto_add_atTop_iff_nat 1).1 (tendsto_pure.2 h))

end Becomes

/-- Orders that compose at every depth compose in the end. -/
theorem Composes.of_becomes {t u v : Nat → Ordering} {o₁ o₂ o₃ : Ordering} (ht : Becomes t o₁)
    (hu : Becomes u o₂) (hv : Becomes v o₃) (h : ∀ n, Composes (t n) (u n) (v n)) :
    Composes o₁ o₂ o₃ := by
  obtain ⟨n, rfl, rfl, rfl⟩ := (Eventually.and ht (Eventually.and hu hv)).exists
  exact h n

namespace Graph

variable {left right g h k : Graph} {s : Schema} {t : PolicyTable} {a b c : Ref}

/-- A comparison goes on from `a` to `c`, which it refers to in a member that is
    compared. -/
def LeadsTo (g : Graph) (a c : Ref) : Prop := ∃ e m v, g.entity a = .ok e ∧
  m ∈ comparedMembers g.model e ∧ m.isReference = true ∧ g.get a m.name = .ok v ∧ c ∈ v.references

/-- References that are compared lead from `a` to no cycle. -/
def Acyclic (g : Graph) (a : Ref) : Prop :=
  ∀ c, Relation.ReflTransGen g.LeadsTo a c → ¬ Relation.TransGen g.LeadsTo c c

theorem Acyclic.of_leadsTo (ha : g.Acyclic a) (hac : g.LeadsTo a c) : g.Acyclic c :=
  fun d hcd => ha d (.head hac hcd)

/-- Objects that are led to in order are acyclic. -/
theorem Acyclic.of_rank (rank : Ref → Nat) (hrank : ∀ b c, g.LeadsTo b c → rank b < rank c) :
    g.Acyclic a := by
  have hpath {b c : Ref} (hbc : Relation.TransGen g.LeadsTo b c) : rank b < rank c := by
    induction hbc with
    | single hbc => exact hrank _ _ hbc
    | tail _ hcd ih => exact ih.trans (hrank _ _ hcd)
  exact fun c _ hcycle => Nat.lt_irrefl _ (hpath hcycle)

/-- Pairs that are demanded to be equal are led to. -/
theorem leadsTo_of_mem_demands {q : Ref × Ref} {d : Demand} (hd : d ∈ demands left right (a, b))
    (hq : q ∈ d.pairs) : left.LeadsTo a q.1 := by
  rw [demands] at hd
  split at hd
  · rename_i e l o o' he hl ho ho'
    obtain ⟨m, hm, rfl⟩ := List.mem_map.1 hd
    rw [slotDemand] at hq
    split at hq
    · rename_i i hi
      have hreference : m.isReference = true := by
        by_contra hm
        rw [Member.demand, if_neg hm] at hq
        cases hq
      exact ⟨e, m, _, he, hm, hreference, get_eq ho hl hi, (Member.mem_pairs_demand hq).1⟩
    · cases hq
  · cases hd

/-! ## What a comparison finds -/

/-- The objects of a pair are equal, unfolded to any sufficient depth. -/
def Alike (left right : Graph) (q : Ref × Ref) : Prop :=
  Becomes (orderUpTo left right · q) .eq

/-- All pairs that have been met are equal, or under comparison. -/
def Vetted (left right : Graph) (A : Set (Ref × Ref)) (p : Pairing) : Prop :=
  ∀ q ∈ p.met, q ∈ A ∨ Alike left right q

/-- With the pairs in `A` under comparison, `x` comes to what `t` becomes. If
    this is equality, so are all pairs that it has met. -/
def Decides (left right : Graph) (A : Set (Ref × Ref)) (x : Comparing Ordering)
    (t : Nat → Ordering) : Prop :=
  ∀ p o p', Vetted left right A p → x.run p = .ok (o, p') →
    Becomes t o ∧ (o = .eq → Vetted left right A p')

namespace Decides

variable {A : Set (Ref × Ref)} {x y : Comparing Ordering} {t u : Nat → Ordering} {o : Ordering}
  {cmp : Ref → Ref → Comparing Ordering}

theorem nothing : Decides left right A (pure .eq) fun _ => .eq := by
  rintro p _ _ hp ⟨⟩
  exact ⟨.const _, fun _ => hp⟩

theorem decide : Decides left right A (Comparing.decide a b o) fun _ => o := by
  rintro p _ _ hp ⟨⟩
  have hmet : (p.fail a b o).2.met = p.met := Pairing.met_fail
  exact ⟨.const _, fun _ q hq => hp q (hmet ▸ hq)⟩

/-- One decision after the other comes to the first that is not equal. -/
theorem andThen (hx : Decides left right A x t) (hy : Decides left right A y u) :
    Decides left right A (do match ← x with | .eq => y | o => return o)
      fun n => (t n).then (u n) := by
  intro p o p' hp hrun
  obtain ⟨o₁, p₁, hrun₁, hrun⟩ := run_bind_eq_ok.1 hrun
  obtain ⟨ht, hp₁⟩ := hx p o₁ p₁ hp hrun₁
  cases o₁ with
  | eq =>
    obtain ⟨hu, hp'⟩ := hy p₁ o p' (hp₁ rfl) hrun
    exact ⟨ht.andThen hu, hp'⟩
  | lt =>
    cases hrun
    exact ⟨ht.stop nofun, nofun⟩
  | gt =>
    cases hrun
    exact ⟨ht.stop nofun, nofun⟩

/-- What differs may be kept of a pair as well. -/
theorem decided (hx : Decides left right A x t) :
    Decides left right A (x >>= Comparing.decide a b) t := by
  intro p o p' hp hrun
  obtain ⟨o', u, hrunx, hfail⟩ := run_bind_eq_ok.1 hrun
  obtain ⟨rfl, rfl⟩ : o' = o ∧ (u.fail a b o').2 = p' := by
    cases hfail
    exact ⟨rfl, rfl⟩
  refine (hx p o' u hp hrunx).imp_right fun hu ho q hq => ?_
  rw [Pairing.met_fail] at hq
  exact hu ho q hq

/-- A list of decisions comes to the first that is not equal. -/
theorem firstDifference {α : Type} {f : α → Comparing Ordering} {t : α → Nat → Ordering}
    {l : List α} (hf : ∀ a ∈ l, Decides left right A (f a) (t a)) :
    Decides left right A (firstDifference f l) fun n => firstOrder (l.map (t · n)) := by
  induction l with
  | nil => exact .nothing
  | cons a l ih =>
    rw [List.forall_mem_cons] at hf
    exact hf.1.andThen (ih hf.2)

/-- The order that is found may be put in another way. -/
theorem congr (hx : Decides left right A x t) (htu : ∀ n, t n = u n) : Decides left right A x u :=
  funext htu ▸ hx

/-- An order alone is demanded. -/
theorem order {f : Nat → Ref × Ref → Ordering} :
    Decides left right A (Comparing.decide a b o) fun n => Demand.orderBy (f n) ⟨o, []⟩ :=
  decide.congr fun _ => Ordering.then_eq.symm

/-- References are decided by what decides the pairs that they make up. -/
theorem compareReferences {v w : Value} (hcmp : ∀ q ∈ (v.demand w).pairs,
    Decides left right A (cmp q.1 q.2) (orderUpTo left right · q)) :
    Decides left right A (compareReferences cmp a b v w)
      fun n => (v.demand w).orderBy (orderUpTo left right n) := by
  cases v with
  | ref c =>
    cases w with
    | ref d =>
      cases c with
      | none => cases d <;> exact .order
      | some c =>
        cases d with
        | none => exact .order
        | some d => exact (hcmp _ List.mem_cons_self).congr fun _ => Ordering.then_eq.symm
    | _ => cases c <;> exact .order
  | refs c =>
    cases w with
    | refs d => exact decide.andThen (decided (firstDifference hcmp))
    | _ => exact .order
  | _ => exact .order

/-- A member is decided by its values. -/
theorem compareMember {m : Member} {v w : Value} (hcmp : ∀ q ∈ (m.demand v w).pairs,
    Decides left right A (cmp q.1 q.2) (orderUpTo left right · q)) :
    Decides left right A (compareMember cmp a b m v w)
      fun n => (m.demand v w).orderBy (orderUpTo left right n) := by
  rw [Member.demand] at hcmp ⊢
  rw [Graph.compareMember]
  split
  · rename_i hm
    rw [if_pos hm] at hcmp
    exact compareReferences hcmp
  · exact order

/-- A slot is decided by the values in it. -/
theorem compareSlot {l : Layout} {q q' : Object} {m : Member}
    (hcmp : ∀ r ∈ (slotDemand l q q' m).pairs,
      Decides left right A (cmp r.1 r.2) (orderUpTo left right · r)) :
    Decides left right A (compareSlot cmp a b l q q' m)
      fun n => (slotDemand l q q' m).orderBy (orderUpTo left right n) := by
  rw [slotDemand] at hcmp ⊢
  rw [Graph.compareSlot]
  cases hslot : l.slotOf? m.name with
  | none => exact nothing
  | some i =>
    rw [hslot] at hcmp
    exact compareMember hcmp

/-- Objects are compared, if what they refer to is, while they are under
    comparison. -/
theorem compareWith (hnew : (a, b) ∉ A)
    (hcmp : ∀ d ∈ demands left right (a, b), ∀ q ∈ d.pairs,
      Decides left right (insert (a, b) A) (cmp q.1 q.2) (orderUpTo left right · q)) :
    Decides left right A (compareWith left right cmp a b) (orderUpTo left right · (a, b)) := by
  intro p o p' hp hrun
  obtain ⟨htag, hfail⟩ | ⟨-, hmet, hskip⟩ | ⟨htag, -, e, l, q, q', he, hl, hq, hq', hrun⟩ :=
    run_compareWith_eq_ok.1 hrun
  · have hne : Ord.compare a.tag b.tag ≠ .eq := fun h => htag (Std.LawfulEqOrd.eq_of_compare h)
    obtain rfl : Ord.compare a.tag b.tag = o := congrArg Prod.fst hfail
    exact ⟨.of_succ ((Becomes.const _).stop hne), fun ho => absurd ho hne⟩
  · -- The pair is not under comparison, so it has been found equal.
    obtain ⟨rfl, rfl⟩ := Prod.mk.inj hskip
    exact ⟨(hp _ hmet).resolve_left hnew, fun _ => hp⟩
  · have hdemands := demands_eq he hl hq hq'
    have hmembers : Decides left right (insert (a, b) A) _ _ := firstDifference
      (l := comparedMembers left.model e) fun m hm => compareSlot (a := a) (b := b)
        (hcmp _ (hdemands ▸ List.mem_map_of_mem hm))
    -- While its members are compared the pair counts as under comparison.
    have hentered : Vetted left right (insert (a, b) A) { p with met := p.met ++ [(a, b)] } := by
      intro r hr
      rcases List.mem_append.1 hr with hr | hr
      · exact (hp r hr).imp_left (Set.mem_insert_of_mem _)
      · exact .inl (List.mem_singleton.1 hr ▸ Set.mem_insert _ _)
    obtain ⟨horder, hvetted⟩ := hmembers _ o p' hentered hrun
    have hbecomes : Becomes (orderUpTo left right · (a, b)) o := by
      refine .of_succ (horder.of_eq fun n => ?_)
      rw [orderUpTo, hdemands, List.map_map, Std.LawfulEqOrd.compare_eq_iff_eq.2 htag]
      rfl
    refine ⟨hbecomes, fun ho r hr => ?_⟩
    subst ho
    rcases hvetted rfl r hr with (rfl | hr) | hr
    · exact .inr hbecomes
    · exact .inl hr
    · exact .inr hr

/-- Acyclic objects are compared, while all that is under comparison leads to
    them. -/
theorem compareUpTo (n : Nat) (ha : left.Acyclic a)
    (hA : ∀ q ∈ A, Relation.TransGen left.LeadsTo q.1 a) :
    Decides left right A (compareUpTo left right n a b) (orderUpTo left right · (a, b)) := by
  induction n generalizing a b A with
  | zero =>
    intro p o p' _ hrun
    cases hrun
  | succ n ih =>
    refine compareWith (fun hab => ha a .refl (hA _ hab)) fun d hd q hq => ?_
    have hlead := leadsTo_of_mem_demands hd hq
    refine ih (ha.of_leadsTo hlead) fun r hr => ?_
    rcases hr with rfl | hr
    · exact .single hlead
    · exact (hA r hr).tail hlead

end Decides

/-- Comparison finds the order of the unfolded objects. -/
theorem compare_becomes {x : Comparison} (ha : left.Acyclic a)
    (hx : compare left right a b = .ok x) : Becomes (orderUpTo left right · (a, b)) x.ordering := by
  obtain ⟨⟨o, p⟩, hrun, hx⟩ := bind_eq_ok.1 hx
  obtain rfl := pure_eq_ok.1 hx
  have hA : ∀ q ∈ (∅ : Set (Ref × Ref)), Relation.TransGen left.LeadsTo q.1 a := nofun
  have hstart : Vetted left right ∅ {} := nofun
  exact (Decides.compareUpTo _ ha hA {} o p hstart hrun).1

/-- An object of a conforming graph from which references that are compared
    lead to no cycle. -/
structure Sortable (g : Graph) (s : Schema) (t : PolicyTable) (a : Ref) : Prop where
  conforms : g.Conforms s t
  object : g.contains a = true
  acyclic : g.Acyclic a

/-- Nodes are sortable if they refer to later nodes only. -/
theorem Sortable.network {policy : PolicyTable} {nodes : List Network.Node} {i : Nat}
    (hi : i < nodes.length) (h : ∀ i < nodes.length,
      ∀ j ∈ (nodes[i]?.map Network.Node.targets).getD [], i < j ∧ j < nodes.length) :
    (Network.graph policy nodes).Sortable (Network.model policy).schema policy (Network.ref i) where
  conforms := ⟨rfl, rfl, Network.wellTyped policy nodes, Network.live fun n hn j hj => by
    obtain ⟨i, hi, rfl⟩ := List.mem_iff_getElem.1 hn
    exact (h i hi j (by simpa [hi] using hj)).2⟩
  object := Network.contains_ref.2 hi
  acyclic := .of_rank Ref.index fun b c ⟨_, _, v, _, _, _, hget, hc⟩ => by
    obtain ⟨o, l, k, ho, -, -, rfl⟩ := get_eq_ok.1 hget
    obtain ⟨w, hw, hcw⟩ := exists_mem_references hc
    obtain ⟨-, n, hn, rfl⟩ := Network.object?_eq_some.1 ho
    have hmem : c ∈ n.targets.map Network.ref :=
      n.references _ ▸ List.mem_flatMap.2 ⟨w, hw, hcw⟩
    obtain ⟨j, hj, rfl⟩ := List.mem_map.1 hmem
    exact (h b.index (List.getElem?_eq_some_iff.1 hn).1 j (by simpa [hn] using hj)).1

/-- Comparison puts acyclic objects in a total preorder, across graphs over one
    schema that go by one policy:

    * it finds every object equal to itself;
    * it compares two objects from both sides, with opposite orders, and finds
      the order in which they are if they are unfolded deep enough;
    * what is at most something that is at most `c` is at most `c`, and is less
      as soon as one of the two is. -/
theorem compare_preorder (ha : g.Sortable s t a) (hb : h.Sortable s t b) (hc : k.Sortable s t c) :
    (∃ w, compare g g a a = .ok w ∧ w.ordering = .eq) ∧
    ∃ x y z, compare g h a b = .ok x ∧ compare h g b a = .ok x.swap ∧
      Becomes (orderUpTo g h · (a, b)) x.ordering ∧
      compare h k b c = .ok y ∧ compare g k a c = .ok z ∧
      (x.ordering ≠ .gt → y.ordering ≠ .gt → z.ordering ≠ .gt ∧
        (x.ordering = .lt ∨ y.ordering = .lt → z.ordering = .lt)) := by
  obtain ⟨hg, hga, hacyclic⟩ := ha
  obtain ⟨hh, hhb, hacyclic'⟩ := hb
  obtain ⟨hk, hkc, -⟩ := hc
  obtain ⟨w, hw⟩ := exists_compare hg.typed hg.live hg.live hga hga
  obtain ⟨x, hx⟩ := exists_compare hg.typed hg.live hh.live hga hhb
  obtain ⟨y, hy⟩ := exists_compare hh.typed hh.live hk.live hhb hkc
  obtain ⟨z, hz⟩ := exists_compare hg.typed hg.live hk.live hga hkc
  -- A result that is its own mirror image is equality.
  have hself := compare_swap rfl rfl hg.typed hg.typed hw
  have hswap := compare_swap (hg.schema.trans hh.schema.symm) (hg.policy.trans hh.policy.symm)
    hg.typed hh.typed hx
  have heq : w.ordering = .eq :=
    Ordering.eq_eq_of_eq_swap
      (congrArg Comparison.ordering (Except.ok.inj (hw.symm.trans hself)))
  have horder := compare_becomes hacyclic hx
  have hcomp : Composes x.ordering y.ordering z.ordering :=
    .of_becomes horder (compare_becomes hacyclic' hy) (compare_becomes hacyclic hz)
      fun n => composes_orderUpTo hg hh hk n hga hhb hkc
  exact ⟨⟨w, hw, heq⟩, x, y, z, hx, hswap, horder, hy, hz, hcomp.trans⟩

/-- Nodes that share what they refer to: the second is greater than the first by
    what it shares, and less than the third, which shares more. -/
theorem compare_preorder_sharing :
    let g := Network.graph {} [{ next := some 1, left := some [1, 1] }, { name := "a" }]
    let h := Network.graph {} [{ next := some 1, left := some [1, 1] }, { name := "b" }]
    let k := Network.graph {} [{ next := some 1, left := some [1, 1, 1] }, { name := "b" }]
    compare g h (Network.ref 0) (Network.ref 0) =
      .ok ⟨.lt, some (Network.ref 1, Network.ref 1)⟩ ∧
    compare h k (Network.ref 0) (Network.ref 0) =
      .ok ⟨.lt, some (Network.ref 0, Network.ref 0)⟩ ∧
    ∃ z, compare g k (Network.ref 0) (Network.ref 0) = .ok z ∧ z.ordering = .lt := by
  intro g h k
  have hg : g.Sortable (Network.model {}).schema {} (Network.ref 0) :=
    .network (by decide) (by decide)
  have hh : h.Sortable (Network.model {}).schema {} (Network.ref 0) :=
    .network (by decide) (by decide)
  have hk : k.Sortable (Network.model {}).schema {} (Network.ref 0) :=
    .network (by decide) (by decide)
  -- The third comparison is not run: its result follows from the other two.
  obtain ⟨-, x, y, z, hx, -, -, hy, hz, hle⟩ := compare_preorder hg hh hk
  have hless : compare g h (Network.ref 0) (Network.ref 0) =
      .ok ⟨.lt, some (Network.ref 1, Network.ref 1)⟩ := by decide +kernel
  have hless' : compare h k (Network.ref 0) (Network.ref 0) =
      .ok ⟨.lt, some (Network.ref 0, Network.ref 0)⟩ := by decide +kernel
  obtain rfl := Except.ok.inj (hless.symm.trans hx)
  obtain rfl := Except.ok.inj (hless'.symm.trans hy)
  exact ⟨hless, hless', z, hz, (hle nofun nofun).2 (.inl rfl)⟩

end Graph

end ObjectModel
