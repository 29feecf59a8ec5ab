import ObjectModel.Proofs.Comparison.Mirroring

/-!
# What decides a comparison

Two objects that are not equal need not differ in themselves. But some pair does that they
lead to, by references which stand in one member on both sides, and at one position
(`Graph.Corresponds`): its objects have different tags, or in some member that is compared
they hold different scalars, one of them refers to an object and the other does not, or their
lists are of different lengths (`Graph.Differs`).

A comparison keeps the first such pair, and goes on to fail for that reason alone
(`Graph.Tells`). So the pair that it reports is where its objects differ, and how they differ
there is its outcome (`Graph.compare_mismatch`).
-/

namespace ObjectModel.Graph

open Relation

variable (left right : Graph)

/-- Objects of one tag hold `v` and `w` in the slot `i`, of a member that is compared. -/
structure Compares (a b : Ref) (i : Nat) (m : Member) (v w : Value) : Prop where
  tag : a.tag = b.tag
  stores : left.Stores a i m v
  stores' : right.Stores b i m w
  compared : left.model.policy.skipsCompare m = false

/-- The objects of a pair refer to those of another in one member that is compared, and at
    one position. Lists have to be of one length. -/
def Corresponds (q s : Ref × Ref) : Prop :=
  ∃ (i : Nat) (m : Member) (v w : Value) (k : Nat), Compares left right q.1 q.2 i m v w ∧
    v.references.length = w.references.length ∧
      v.references[k]? = some s.1 ∧ w.references[k]? = some s.2

/-- The objects differ in themselves, and are in this order for it. -/
inductive Differs (a b : Ref) : Ordering → Prop
  | tag : a.tag ≠ b.tag → Differs a b (Ord.compare a.tag b.tag)
  | scalar {i : Nat} {m : Member} {v w : Value} : Compares left right a b i m v w →
    m.isReference = false → v ≠ w → Differs a b (v.scalarCompare w)
  | presence {i : Nat} {m : Member} {c d : Option Ref} :
    Compares left right a b i m (.ref c) (.ref d) → c.isSome ≠ d.isSome →
      Differs a b (Ord.compare c.isSome.toNat d.isSome.toNat)
  /-- A list that was never made is empty. -/
  | length {i : Nat} {m : Member} {c d : Option (List Ref)} :
    Compares left right a b i m (.refs c) (.refs d) → (c.getD []).length ≠ (d.getD []).length →
      Differs a b (Ord.compare (c.getD []).length (d.getD []).length)

/-- From the pair `q` one comes to the pair `s`, which differs in itself. -/
def Uncovers (q s : Ref × Ref) (o : Ordering) : Prop :=
  ReflTransGen (Corresponds left right) q s ∧ Differs left right s.1 s.2 o

variable {left right} {a b : Ref} {i : Nat} {m : Member} {v w : Value} {q s : Ref × Ref}
  {o : Ordering}

/-- What differs is not equal. -/
theorem Differs.ne_eq (hl : left.WellTyped) (h : Differs left right a b o) : o ≠ .eq := by
  cases h with
  | tag h => exact fun ho => h (Std.LawfulEqOrd.eq_of_compare ho)
  | scalar h hm hne =>
    rw [← Bool.not_eq_true, Member.isReference_iff, ← Value.kind_of_fits (h.stores.fits hl),
      not_or] at hm
    exact fun ho => hne ((Value.scalarCompare_eq_iff hm.1 hm.2).1 ho)
  | @presence _ _ c d _ h =>
    cases c <;> cases d <;> simp at h ⊢
  | length _ h => exact fun ho => h (Std.LawfulEqOrd.eq_of_compare ho)

/-- Where an order that is demanded is not equality, there is a difference. -/
theorem Compares.differs (hl : left.WellTyped) (hr : right.WellTyped)
    (h : Compares left right a b i m v w) (ho : (m.demand v w).order ≠ .eq) :
    Differs left right a b (m.demand v w).order := by
  have hfits := h.stores.fits hl
  have hkind := (Value.kind_of_fits hfits).trans (Value.kind_of_fits (h.stores'.fits hr)).symm
  rw [Member.demand] at ho ⊢
  by_cases hm : m.isReference = true
  · rw [if_pos hm] at ho ⊢
    -- Two references differ by one being missing, two lists by their lengths.
    rw [Member.isReference_iff, ← Value.kind_of_fits hfits] at hm
    cases v with
    | ref c =>
      cases w with
      | ref d => cases c <;> cases d <;> first | exact absurd rfl ho | exact .presence h (by simp)
      | _ => cases hkind
    | refs c =>
      cases w with
      | refs d => exact .length h fun hlength => ho (Std.LawfulEqOrd.compare_eq_iff_eq.2 hlength)
      | _ => cases hkind
    | _ => simp [Value.kind] at hm
  · rw [if_neg hm] at ho ⊢
    refine .scalar h (by simpa using hm) fun hvw => ho ?_
    rw [Member.isReference_iff, ← Value.kind_of_fits hfits, not_or] at hm
    exact (Value.scalarCompare_eq_iff hm.1 hm.2).2 hvw

/-- Pairs that are demanded to be equal correspond. -/
theorem Compares.corresponds (h : Compares left right a b i m v w)
    (ho : (m.demand v w).order = .eq) (hs : s ∈ (m.demand v w).pairs) :
    Corresponds left right (a, b) s := by
  rw [Member.demand] at ho hs
  split at hs
  · rename_i hm
    rw [if_pos hm] at ho
    -- A pair is demanded only of values of one kind,
    -- and of lists only if they are equally long.
    cases v with
    | ref c =>
      cases w with
      | ref d =>
        cases c with
        | none => cases hs
        | some c =>
          cases d with
          | none => cases hs
          | some d =>
            obtain rfl := List.mem_singleton.1 hs
            exact ⟨i, m, _, _, 0, h, rfl, rfl, rfl⟩
      | _ => cases c <;> cases hs
    | refs c =>
      cases w with
      | refs d =>
        obtain ⟨k, hk⟩ := List.mem_iff_getElem?.1 hs
        obtain ⟨hc, hd⟩ := List.getElem?_zip_eq_some.1 hk
        have hlength : (c.getD []).length = (d.getD []).length :=
          Std.LawfulEqOrd.eq_of_compare ho
        refine ⟨i, m, _, _, k, h, ?_⟩
        rw [Value.references_refs, Value.references_refs]
        exact ⟨hlength, hc, hd⟩
      | _ => cases hs
    | _ => cases hs
  · cases hs

theorem Stores.value {g : Graph} {p : Object} (h : g.Stores a i m v) (hp : g.object? a = some p) :
    p.values[i]? = some v := by
  obtain ⟨p', -, hp', -, -, hv⟩ := h
  rwa [Option.some.inj (hp.symm.trans hp')]

/-- In a slot that both objects have, its values are compared. -/
theorem compareSlot_eq {cmp : Ref → Ref → Comparing Ordering} {l : Layout} {p p' : Object}
    (hn : (l.members.map (·.name)).Nodup) (hm : l.members[i]? = some m)
    (hv : p.values[i]? = some v) (hw : p'.values[i]? = some w) :
    compareSlot cmp a b l p p' m = compareMember cmp a b m v w := by
  rw [compareSlot, (Layout.slotOf?_eq_some hn (List.mem_of_getElem? hm)).2 hm]
  simp [hv, hw]

/-! ## What is kept -/

/-- As long as no pair was kept, `x` keeps one if it does not find equality, and `D` holds of
    that pair and of the order. -/
def Tells (D : Ref × Ref → Ordering → Prop) (x : Comparing Ordering) : Prop :=
  ∀ p o p', p.mismatch = none → x.run p = .ok (o, p') →
    (o = .eq ∧ p'.mismatch = none) ∨ (o ≠ .eq ∧ ∃ q, p'.mismatch = some q ∧ D q o)

namespace Tells

variable {D D' : Ref × Ref → Ordering → Prop} {x y : Comparing Ordering}
  {cmp : Ref → Ref → Comparing Ordering}

theorem mono (hx : Tells D x) (h : ∀ q o, D q o → D' q o) : Tells D' x :=
  fun p o p' hp hrun => (hx p o p' hp hrun).imp_right
    (And.imp_right (Exists.imp fun q => And.imp_right (h q o)))

theorem nothing : Tells D (pure .eq) := by
  rintro p _ _ hp ⟨⟩
  exact .inl ⟨rfl, hp⟩

/-- A difference that is found is told of the pair at hand. -/
theorem decide (h : o ≠ .eq → D (a, b) o) : Tells D (Comparing.decide a b o) := by
  rintro p _ _ hp ⟨⟩
  by_cases ho : o = .eq
  · subst ho
    exact .inl ⟨rfl, hp⟩
  · refine .inr ⟨ho, (a, b), ?_, h ho⟩
    simp [ho, hp]

/-- What follows on equality tells the rest. -/
theorem andThen (hx : Tells D x) (hy : Tells D y) :
    Tells D (do match ← x with | .eq => y | o => return o) := by
  intro p o p' hp hrun
  obtain ⟨o', u, hrunx, hrun⟩ := run_bind_eq_ok.1 hrun
  rcases hx p o' u hp hrunx with ⟨rfl, hu⟩ | ⟨ho', hu⟩
  · exact hy u o p' hu hrun
  · cases o' with
    | eq => exact absurd rfl ho'
    | lt => cases hrun; exact .inr ⟨ho', hu⟩
    | gt => cases hrun; exact .inr ⟨ho', hu⟩

/-- Where a pair was kept, no other is. -/
theorem decided (hx : Tells D x) : Tells D (x >>= Comparing.decide a b) := by
  intro p o p' hp hrun
  obtain ⟨o', u, hrunx, hfail⟩ := run_bind_eq_ok.1 hrun
  cases hfail
  rcases hx p o u hp hrunx with ⟨rfl, hu⟩ | ⟨ho, q, hu, hq⟩
  · exact .inl ⟨rfl, hu⟩
  · refine .inr ⟨ho, q, ?_, hq⟩
    simp [hu]

/-- Of a list, the first difference is told. -/
theorem firstDifference {α : Type} {f : α → Comparing Ordering} {l : List α}
    (hf : ∀ a ∈ l, Tells D (f a)) : Tells D (firstDifference f l) := by
  induction l with
  | nil => exact .nothing
  | cons a l ih =>
    rw [List.forall_mem_cons] at hf
    exact hf.1.andThen (ih hf.2)

/-- Elements are compared only of lists of one length. -/
theorem list (ho : o ≠ .eq → D (a, b) o) (hy : o = .eq → Tells D y) :
    Tells D (do match ← Comparing.decide a b o with | .eq => y | o => return o) := by
  by_cases heq : o = .eq
  · exact (decide ho).andThen (hy heq)
  · intro p o' p' hp hrun
    refine decide ho p o' p' hp ?_
    cases o with
    | eq => exact absurd rfl heq
    | lt => exact hrun
    | gt => exact hrun

/-- References differ themselves, or the pairs that they make up do. -/
theorem compareReferences (ho : (v.demand w).order ≠ .eq → D (a, b) (v.demand w).order)
    (hcmp : (v.demand w).order = .eq → ∀ q ∈ (v.demand w).pairs, Tells D (cmp q.1 q.2)) :
    Tells D (compareReferences cmp a b v w) := by
  cases v with
  | ref c =>
    cases w with
    | ref d =>
      cases c with
      | none => cases d <;> exact .decide ho
      | some c =>
        cases d with
        | none => exact .decide ho
        | some d => exact hcmp rfl _ List.mem_cons_self
    | _ => cases c <;> exact .decide ho
  | refs c =>
    cases w with
    | refs d => exact .list ho fun heq => .decided (.firstDifference (hcmp heq))
    | _ => exact .decide ho
  | _ => exact .decide ho

/-- A member differs in its values, or in what they refer to. -/
theorem compareMember (ho : (m.demand v w).order ≠ .eq → D (a, b) (m.demand v w).order)
    (hcmp : (m.demand v w).order = .eq → ∀ q ∈ (m.demand v w).pairs, Tells D (cmp q.1 q.2)) :
    Tells D (compareMember cmp a b m v w) := by
  rw [Member.demand] at ho hcmp
  rw [Graph.compareMember]
  split
  · rename_i hm
    rw [if_pos hm] at ho hcmp
    exact .compareReferences ho hcmp
  · rename_i hm
    rw [if_neg hm] at ho
    exact .decide ho

variable (hs : left.schema = right.schema) (hl : left.WellTyped) (hr : right.WellTyped)
  (hn : ∀ e ∈ left.schema.entities, ((left.schema.membersBaseFirst e).map (·.name)).Nodup)

include hs hl hr hn

/-- A comparison of two objects keeps what is found from them, if each of those
    that it goes on with does. -/
theorem compareWith (hcmp : ∀ c d, Tells (Uncovers left right (c, d)) (cmp c d)) (a b : Ref) :
    Tells (Uncovers left right (a, b)) (compareWith left right cmp a b) := by
  intro p o p' hp hrun
  obtain ⟨htag, hfail⟩ | ⟨-, -, hskip⟩ |
    ⟨htag, -, e, l, q, q', he, hlayout, hq, hq', hrun⟩ := run_compareWith_eq_ok.1 hrun
  · exact decide (fun _ => ⟨.refl, .tag htag⟩) p o p' hp (congrArg Except.ok hfail)
  · obtain ⟨rfl, rfl⟩ := Prod.mk.inj hskip
    exact .inl ⟨rfl, hp⟩
  · obtain ⟨e', l', he', hent, hlay, hmem, -⟩ := hl.object hq
    obtain rfl := Except.ok.inj (he.symm.trans hent)
    obtain rfl := Except.ok.inj (hlayout.symm.trans hlay)
    refine firstDifference (fun m hm => ?_) { p with met := p.met ++ [(a, b)] } o p' hp hrun
    -- Both objects have a value in the slot of the member.
    obtain ⟨hm, hcompared⟩ := mem_comparedMembers.1 hm
    obtain ⟨i, hi⟩ : ∃ i, (left.schema.membersBaseFirst e)[i]? = some m :=
      List.mem_iff_getElem?.1 hm
    obtain ⟨v, hstores⟩ := hl.stores (contains_of_object? hq) he' hi
    obtain ⟨w, hstores'⟩ := hr.stores (contains_of_object? hq') (hs ▸ htag ▸ he') (hs ▸ hi)
    have hcompares : Compares left right a b i m v w := ⟨htag, hstores, hstores', hcompared⟩
    have hv : q.values[i]? = some v := hstores.value hq
    have hw : q'.values[i]? = some w := hstores'.value hq'
    rw [compareSlot_eq (hmem ▸ hn e (List.mem_of_getElem? he')) (hmem ▸ hi) hv hw]
    refine compareMember (fun ho => ⟨.refl, hcompares.differs hl hr ho⟩) fun ho s hs => ?_
    exact (hcmp s.1 s.2).mono fun t o ht => ⟨.head (hcompares.corresponds ho hs) ht.1, ht.2⟩

/-- To whatever depth, what is told is a pair that is led to. -/
theorem compareUpTo (n : Nat) (a b : Ref) :
    Tells (Uncovers left right (a, b)) (compareUpTo left right n a b) := by
  induction n generalizing a b with
  | zero =>
    intro p o p' _ hrun
    cases hrun
  | succ n ih => exact .compareWith hs hl hr hn ih a b

end Tells

/-- What a comparison reports is where objects differ. In well-typed and live graphs over a
    schema whose entities have members of different names, the comparison of two objects ends
    well, and reports a pair if and only if it does not find them equal. To that pair one comes
    from them by references that correspond, it differs in itself, and its objects are in the
    order that the comparison finds. -/
theorem compare_mismatch (hs : left.schema = right.schema) (hl : left.WellTyped)
    (hlive : left.Live) (hr : right.WellTyped) (hlive' : right.Live)
    (hn : ∀ e ∈ left.schema.entities, ((left.schema.membersBaseFirst e).map (·.name)).Nodup)
    (ha : left.contains a = true) (hb : right.contains b = true) :
    ∃ c, compare left right a b = .ok c ∧ (c.mismatch.isSome = true ↔ c.ordering ≠ .eq) ∧
      ∀ x y, c.mismatch = some (x, y) →
        ReflTransGen (Corresponds left right) (a, b) (x, y) ∧
          Differs left right x y c.ordering := by
  obtain ⟨c, hc⟩ := exists_compare hl hlive hlive' ha hb
  obtain ⟨⟨o, p⟩, hrun, hcomparison⟩ := bind_eq_ok.1 hc
  obtain rfl := pure_eq_ok.1 hcomparison
  refine ⟨_, hc, ?_⟩
  rcases Tells.compareUpTo hs hl hr hn _ a b {} o p rfl hrun with ⟨ho, hp⟩ | ⟨ho, s, hp, hs⟩
  · simp [ho, hp]
  · refine ⟨by simp [ho, hp], fun x y hxy => ?_⟩
    obtain rfl := Option.some.inj (hp.symm.trans hxy)
    exact hs

/-- Nodes whose lists have themselves, and then nodes of different names: it is these that
    differ, not the lists. -/
theorem compare_mismatch_lists :
    let left := Network.graph {} [{ left := some [0, 1] }, { name := "a" }]
    let right := Network.graph {} [{ left := some [0, 1] }, { name := "b" }]
    (left.Live ∧ right.Live) ∧
      ReflTransGen (Corresponds left right) (Network.ref 0, Network.ref 0)
        (Network.ref 1, Network.ref 1) ∧
      Differs left right (Network.ref 1) (Network.ref 1) .lt := by
  intro left right
  have hlive : left.Live := Network.live (by decide)
  have hlive' : right.Live := Network.live (by decide)
  have hs : left.schema = right.schema := rfl
  obtain ⟨c, hc, -, hmismatch⟩ := compare_mismatch hs (Network.wellTyped _ _) hlive
    (Network.wellTyped _ _) hlive' (by decide) (a := Network.ref 0) (b := Network.ref 0)
    (by decide) (by decide)
  have hless : compare left right (Network.ref 0) (Network.ref 0) =
      .ok ⟨.lt, some (Network.ref 1, Network.ref 1)⟩ := by decide +kernel
  obtain rfl := Except.ok.inj (hless.symm.trans hc)
  exact ⟨⟨hlive, hlive'⟩, hmismatch _ _ rfl⟩

end ObjectModel.Graph
