import Mathlib.Data.List.Zip
import Mathlib.Data.Prod.Basic
import ObjectModel.Proofs.Comparison.Bisimulation

/-!
# Comparing from the other side

A comparison of `b` with `a` goes through the pairs that one of `a` with `b`
goes through, the other way round (`Graph.Mirrors`): it meets them in the same
order, takes the same ones for granted, and stops at the same one. So it comes
to the opposite order, and to the same pair that decides it.

* `Graph.Mirrors.compareUpTo`: comparisons from both sides mirror each other;
* `Graph.compare_antisymm`: comparison is antisymmetric.
-/

namespace ObjectModel

/-- The pairs the other way round. -/
def Pairing.swap (p : Pairing) : Pairing where
  met := p.met.map Prod.swap
  mismatch := p.mismatch.map Prod.swap

/-- The comparison from the other side. -/
def Comparison.swap (c : Comparison) : Comparison where
  ordering := c.ordering.swap
  mismatch := c.mismatch.map Prod.swap

theorem Pairing.mem_met_swap {p : Pairing} {a b : Ref} : (b, a) ∈ p.swap.met ↔ (a, b) ∈ p.met := by
  rw [swap, ← Prod.swap_prod_mk (a := a), List.mem_map_of_injective Prod.swap_injective]

/-- What is found to differ from one side is found to differ from the other. -/
theorem Pairing.fail_swap {p : Pairing} {a b : Ref} {o : Ordering} :
    p.swap.fail b a o.swap = ((p.fail a b o).1.swap, (p.fail a b o).2.swap) := by
  cases hm : p.mismatch <;> cases o <;> simp [fail, swap, hm]

theorem Value.scalarCompare_swap (v w : Value) : w.scalarCompare v = (v.scalarCompare w).swap := by
  cases v <;> cases w <;> first | rfl | exact Std.OrientedOrd.eq_swap

/-- A slot is found among members. -/
theorem Layout.slotOf?_congr {l l' : Layout} (h : l.members = l'.members) (name : String) :
    l.slotOf? name = l'.slotOf? name := by
  unfold slotOf?
  induction l generalizing l' with
  | nil =>
    obtain rfl := List.map_eq_nil_iff.1 h.symm
    rfl
  | cons s l ih =>
    cases l' with
    | nil => cases h
    | cons s' l' =>
      obtain ⟨hm, hl⟩ : s.member = s'.member ∧ members l = members l' := List.cons.inj h
      rw [lastIndex?, lastIndex?, ih hl, hm]

namespace Graph

variable {left right : Graph} {cmp cmp' : Ref → Ref → Comparing Ordering}
  {a b : Ref} {o : Ordering} {c : Comparison}

/-- Objects of live graphs are compared. -/
theorem exists_compare (hl : left.WellTyped) (hlive : left.Live) (hlive' : right.Live)
    (ha : left.contains a = true) (hb : right.contains b = true) :
    ∃ c, compare left right a b = .ok c := by
  have hab : (a, b) ∈ objectPairs left right := ⟨ha, hb⟩
  obtain ⟨c, hc, -⟩ := compare_eq_iff_consistent hl (fun q hq => hq)
    (objectPairs_closed hl hlive hlive') hab
  exact ⟨c, hc⟩

/-! ## Comparisons that mirror each other -/

/-- What `x` does with pairs, `y` does with the pairs the other way round. What
    it comes to is turned by `f`. -/
def Mirrors {α β : Type} (f : α → β) (x : Comparing α) (y : Comparing β) : Prop :=
  ∀ p a p', x.run p = .ok (a, p') → y.run p.swap = .ok (f a, p'.swap)

namespace Mirrors

theorem pure {α β : Type} {f : α → β} (a : α) :
    Mirrors f (Pure.pure a : Comparing α) (Pure.pure (f a)) := by
  rintro p _ _ ⟨⟩
  rfl

/-- A difference is found by both sides, in opposite orders. -/
theorem decide {o' : Ordering} (ho : o' = o.swap) :
    Mirrors .swap (Comparing.decide a b o) (Comparing.decide b a o') := by
  subst ho
  rintro p _ _ ⟨⟩
  exact congrArg Except.ok p.fail_swap

/-- Two parts mirror each other if each of them does. -/
theorem bind {α β γ δ : Type} {f : α → β} {h : γ → δ} {x : Comparing α} {y : Comparing β}
    {k : α → Comparing γ} {k' : β → Comparing δ} (hx : Mirrors f x y)
    (hk : ∀ a, Mirrors h (k a) (k' (f a))) : Mirrors h (x >>= k) (y >>= k') := by
  intro p c p' hrun
  obtain ⟨a, u, ha, hc⟩ := run_bind_eq_ok.1 hrun
  exact run_bind_eq_ok.2 ⟨_, _, hx p a u ha, hk a u c p' hc⟩

/-- What follows equality mirrors each other. -/
theorem andThen {x y x' y' : Comparing Ordering} (hx : Mirrors .swap x x')
    (hy : Mirrors .swap y y') : Mirrors .swap
      (do match ← x with | .eq => y | o => return o)
      (do match ← x' with | .eq => y' | o => return o) := by
  refine hx.bind fun o => ?_
  cases o with
  | eq => exact hy
  | lt => exact .pure Ordering.lt
  | gt => exact .pure Ordering.gt

/-- Lists of comparisons mirror each other, element by element. -/
theorem firstDifference {α β : Type} {f : α → Comparing Ordering} {f' : β → Comparing Ordering}
    {l : List α} {l' : List β} (h : List.Forall₂ (fun a b => Mirrors .swap (f a) (f' b)) l l') :
    Mirrors .swap (firstDifference f l) (firstDifference f' l') := by
  induction h with
  | nil => exact .pure Ordering.eq
  | cons ha _ ih => exact ha.andThen ih

variable (hcmp : ∀ c d, Mirrors .swap (cmp c d) (cmp' d c))

include hcmp

/-- References are compared by kind first, then by length, and then pair by pair. -/
theorem compareReferences (v w : Value) :
    Mirrors .swap (compareReferences cmp a b v w) (compareReferences cmp' b a w v) := by
  -- Lists are paired up in order, so swapping the sides swaps every pair.
  cases v with
  | ref c =>
    cases w with
    | ref d =>
      cases c with
      | none => cases d <;> exact .decide rfl
      | some c =>
        cases d with
        | none => exact .decide rfl
        | some d => exact hcmp c d
    | _ => cases c <;> exact .decide (Value.scalarCompare_swap _ _)
  | refs c =>
    cases w with
    | refs d =>
      refine (Mirrors.decide Std.OrientedOrd.eq_swap).andThen
        ((Mirrors.firstDifference ?_).bind fun _ => .decide rfl)
      rw [← List.zip_swap (c.getD []), List.forall₂_map_right_iff, List.forall₂_same]
      exact fun q _ => hcmp q.1 q.2
    | ref d => cases d <;> exact .decide (Value.scalarCompare_swap _ _)
    | _ => exact .decide (Value.scalarCompare_swap _ _)
  | _ =>
    cases w with
    | ref d => cases d <;> exact .decide (Value.scalarCompare_swap _ _)
    | _ => exact .decide (Value.scalarCompare_swap _ _)

theorem compareMember (m : Member) (v w : Value) :
    Mirrors .swap (compareMember cmp a b m v w) (compareMember cmp' b a m w v) := by
  unfold Graph.compareMember
  split
  · exact compareReferences hcmp v w
  · exact .decide (Value.scalarCompare_swap v w)

/-- Slots are found alike in layouts with the same members. -/
theorem compareSlot {l l' : Layout} (hl : l.members = l'.members) (q q' : Object) (m : Member) :
    Mirrors .swap (compareSlot cmp a b l q q' m) (compareSlot cmp' b a l' q' q m) := by
  unfold Graph.compareSlot
  rw [← Layout.slotOf?_congr hl]
  split
  · exact compareMember hcmp m _ _
  · exact .pure Ordering.eq

end Mirrors

section

variable (hs : left.schema = right.schema) (hpolicy : left.model.policy = right.model.policy)

include hs hpolicy

theorem comparedMembers_congr (e : Entity) :
    comparedMembers left.model e = comparedMembers right.model e := by
  unfold comparedMembers
  rw [hpolicy, show left.model.schema = right.model.schema from hs]

variable (hl : left.WellTyped) (hr : right.WellTyped)

include hl hr

/-- Objects mirror each other if what they refer to does. -/
theorem Mirrors.compareWith (hcmp : ∀ c d, Mirrors .swap (cmp c d) (cmp' d c)) (a b : Ref) :
    Mirrors .swap (compareWith left right cmp a b) (compareWith right left cmp' b a) := by
  intro p o p' hrun
  rw [run_compareWith_eq_ok] at hrun ⊢
  obtain ⟨htag, hfail⟩ | ⟨htag, hmet, hskip⟩ |
    ⟨htag, hnew, e, l, q, q', he, hlayout, hq, hq', hrun⟩ := hrun
  · refine .inl ⟨Ne.symm htag, ?_⟩
    rw [Std.OrientedOrd.eq_swap (a := b.tag), Pairing.fail_swap, hfail]
  · obtain ⟨rfl, rfl⟩ := Prod.mk.inj hskip
    exact .inr (.inl ⟨htag.symm, Pairing.mem_met_swap.2 hmet, rfl⟩)
  · -- Both objects are of one entity, so their layouts have the same members.
    obtain ⟨e₁, l₁, he₁, hent, hlay, hmem, -⟩ := hl.object hq
    obtain ⟨e', l', he', hent', hlayout', hmem', -⟩ := hr.object hq'
    obtain rfl := Except.ok.inj (he.symm.trans hent)
    obtain rfl := Except.ok.inj (hlayout.symm.trans hlay)
    obtain rfl : e = e' := Option.some.inj (he₁.symm.trans (hs ▸ htag ▸ he'))
    refine .inr (.inr ⟨htag.symm, mt Pairing.mem_met_swap.1 hnew, e, l', q', q, hent', hlayout',
      hq', hq, ?_⟩)
    rw [← comparedMembers_congr hs hpolicy]
    have hmirrors (members : List Member) : Mirrors .swap
        (Graph.firstDifference (Graph.compareSlot cmp a b l q q') members)
        (Graph.firstDifference (Graph.compareSlot cmp' b a l' q' q) members) :=
      .firstDifference (List.forall₂_same.2 fun m _ =>
        .compareSlot hcmp (by rw [hmem, hmem', hs]) q q' m)
    have hrun' := hmirrors _ _ _ _ hrun
    rw [Pairing.swap, List.map_append] at hrun'
    exact hrun'

/-- Comparisons from both sides mirror each other to whatever depth. -/
theorem Mirrors.compareUpTo (n : Nat) (a b : Ref) :
    Mirrors .swap (compareUpTo left right n a b) (compareUpTo right left n b a) := by
  induction n generalizing a b with
  | zero =>
    intro p o p' hrun
    cases hrun
  | succ n ih => exact .compareWith hs hpolicy hl hr ih a b

/-- What a comparison comes to, it comes to from the other side. -/
theorem compare_swap (h : compare left right a b = .ok c) :
    compare right left b a = .ok c.swap := by
  obtain ⟨⟨o, p⟩, hrun, h⟩ := bind_eq_ok.1 h
  obtain rfl := pure_eq_ok.1 h
  rw [Nat.mul_comm] at hrun
  exact bind_eq_ok.2 ⟨_, Mirrors.compareUpTo hs hpolicy hl hr _ a b {} o p hrun, rfl⟩

/-- Comparison is antisymmetric. In well-typed and live graphs over one schema
    that go by one policy, objects are compared from both sides, with opposite
    orders, decided by the same pair. -/
theorem compare_antisymm (hlive : left.Live) (hlive' : right.Live)
    (ha : left.contains a = true) (hb : right.contains b = true) :
    ∃ c, compare left right a b = .ok c ∧ compare right left b a = .ok c.swap := by
  obtain ⟨c, hc⟩ := exists_compare hl hlive hlive' ha hb
  exact ⟨c, hc, compare_swap hs hpolicy hl hr hc⟩

end

/-- Two rings that differ in their second nodes. -/
theorem compare_antisymm_rings :
    let left := Network.graph {} [{ name := "a", next := some 1 }, { name := "b", next := some 0 }]
    let right := Network.graph {}
      [{ name := "a", next := some 2 }, {}, { name := "c", next := some 0 }]
    compare right left (Network.ref 0) (Network.ref 0) =
      .ok ⟨.gt, some (Network.ref 2, Network.ref 1)⟩ := by
  intro left right
  have hlive : left.Live := Network.live (by decide)
  have hlive' : right.Live := Network.live (by decide)
  have hs : left.schema = right.schema := rfl
  obtain ⟨c, hc, hswap⟩ := compare_antisymm hs rfl (Network.wellTyped _ _) (Network.wellTyped _ _)
    hlive hlive' (a := Network.ref 0) (b := Network.ref 0) (by decide) (by decide)
  have hless : compare left right (Network.ref 0) (Network.ref 0) =
      .ok ⟨.lt, some (Network.ref 1, Network.ref 2)⟩ := by decide +kernel
  obtain rfl := Except.ok.inj (hless.symm.trans hc)
  exact hswap

end Graph

end ObjectModel
