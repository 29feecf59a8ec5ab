import ObjectModel.Proofs.Graph.Network
import ObjectModel.Proofs.Traversal.Visits

/-!
# How much a walk enters

One would have a walk enter what can be reached from its root by references in
members that it does not pass over (`Graph.Refers`). It enters what can be
reached by those of them that it opens (`Graph.Opens`): a list is known by its
relation, so of several lists of an object that have one relation only the
first that was made is opened, and the others are hidden behind it
(`Graph.Hides`).

Hence a walk is complete exactly if what hidden lists hold is entered on other
ways (`Graph.entered_traverse_iff`), as is always so if the list members of
each entity have different relations.
-/

namespace ObjectModel

open WalkEvent Relation

namespace Graph

variable (g : Graph)

/-- In its slot `i`, of the member `m`, the object `r` holds `v`, and walks do
    not pass over the member. -/
def Follows (r : Ref) (i : Nat) (m : Member) (v : Value) : Prop :=
  ∃ o e, g.object? r = some o ∧ g.schema.entityAt? r.tag = some e ∧
    (g.schema.membersBaseFirst e)[i]? = some m ∧ o.values[i]? = some v ∧
      g.model.policy.skipsTraversal (g.schema.chain e) m = false

/-- `r` refers to `s` in a member that walks do not pass over. -/
def Refers (r s : Ref) : Prop := ∃ i m v, g.Follows r i m v ∧ s ∈ v.references

/-- In a slot of `r` before `i` there is a list of the relation. -/
def Precedes (r : Ref) (i : Nat) (relation : String) : Prop :=
  ∃ j < i, ∃ m v, g.Follows r j m v ∧ v.isList = true ∧ m.relation = relation

/-- `r` refers to `s`, but not in a list behind one of the same relation. -/
def Opens (r s : Ref) : Prop := ∃ i m v, g.Follows r i m v ∧ s ∈ v.references ∧
  (v.isList = true → ¬g.Precedes r i m.relation)

/-- `r` refers to `s` in a list behind one of the same relation. -/
def Hides (r s : Ref) : Prop := ∃ i m v, g.Follows r i m v ∧ s ∈ v.references ∧
  v.isList = true ∧ g.Precedes r i m.relation

variable {g} {r s : Ref} {o : Object}

/-- Each reference that is followed is opened or hidden. -/
theorem refers_iff : g.Refers r s ↔ g.Opens r s ∨ g.Hides r s := by
  constructor
  · rintro ⟨i, m, v, hf, hs⟩
    by_cases h : v.isList = true ∧ g.Precedes r i m.relation
    · exact .inr ⟨i, m, v, hf, hs, h⟩
    · exact .inl ⟨i, m, v, hf, hs, fun hv hp => h ⟨hv, hp⟩⟩
  · rintro (⟨i, m, v, hf, hs, -⟩ | ⟨i, m, v, hf, hs, -⟩)
    · exact ⟨i, m, v, hf, hs⟩
    · exact ⟨i, m, v, hf, hs⟩

theorem isMany_of_fits {m : Member} {v : Value} (h : v.fits m = true) (hv : v.isList = true) :
    m.isMany = true := by
  rw [Member.isMany_iff, ← Value.kind_of_fits h]
  cases v with
  | refs _ => rfl
  | _ => cases hv

theorem isReference_of_isMany {m : Member} (h : m.isMany = true) : m.isReference = true :=
  Member.isReference_iff.2 (.inr (Member.isMany_iff.1 h))

theorem Follows.fits {i : Nat} {m : Member} {v : Value} (hg : g.WellTyped)
    (h : g.Follows r i m v) : v.fits m = true := by
  obtain ⟨o, e, ho, he, hm, hv, -⟩ := h
  exact Stores.fits hg ⟨o, e, ho, he, hm, hv⟩

/-- Nothing is hidden where the list members of each entity have different
    relations. -/
theorem not_hides (hg : g.WellTyped)
    (h : ∀ e ∈ g.schema.entities, (g.schema.membersBaseFirst e).Pairwise fun m n =>
      m.isMany = true → n.isMany = true → m.relation ≠ n.relation) : ¬g.Hides r s := by
  rintro ⟨i, m, v, hf, -, hv, j, hj, n, w, hf', hw, hrel⟩
  have hm := isMany_of_fits (hf.fits hg) hv
  have hn := isMany_of_fits (hf'.fits hg) hw
  obtain ⟨o, e, -, he, hi, -⟩ := hf
  obtain ⟨o', e', -, he', hj', -⟩ := hf'
  obtain rfl := Option.some.inj (he.symm.trans he')
  obtain ⟨hi, rfl⟩ := List.getElem?_eq_some_iff.1 hi
  obtain ⟨hj', rfl⟩ := List.getElem?_eq_some_iff.1 hj'
  exact List.pairwise_iff_getElem.1 (h e (List.mem_of_getElem? he)) j i _ _ hj hn hm hrel

/-! ## What is opened -/

section

variable (p : Member × Value → Bool) {seen : List String} {members : List (Member × Value)}
  {m n : Member} {v w : Value} {i : Nat}

/-- Of a list of members of which those that satisfy `p` are followed, the
    entry `i` is opened when lists of the relations `seen` were opened before. -/
def OpenedAt (seen : List String) (members : List (Member × Value)) (i : Nat) (m : Member)
    (v : Value) : Prop :=
  (members[i]? = some (m, v) ∧ p (m, v) = true) ∧ (v.isList = true → m.relation ∉ seen ∧
    ¬∃ j < i, ∃ n w, (members[j]? = some (n, w) ∧ p (n, w) = true) ∧ w.isList = true ∧
      n.relation = m.relation)

variable {p}

/-- The first member is opened unless its relation was seen. -/
theorem openedAt_zero : OpenedAt p seen ((m, v) :: members) 0 n w ↔
    (m = n ∧ v = w) ∧ p (m, v) = true ∧ (v.isList = true → m.relation ∉ seen) := by
  simp only [OpenedAt, List.getElem?_cons_zero, Option.some.injEq, Prod.mk.injEq,
    Nat.not_lt_zero, false_and, exists_false, not_false_eq_true, and_true]
  constructor
  · rintro ⟨⟨⟨rfl, rfl⟩, hp⟩, h⟩
    exact ⟨⟨rfl, rfl⟩, hp, h⟩
  · rintro ⟨⟨rfl, rfl⟩, hp, h⟩
    exact ⟨⟨⟨rfl, rfl⟩, hp⟩, h⟩

/-- A list that is followed closes its relation for the members after it. -/
theorem openedAt_succ : OpenedAt p seen ((m, v) :: members) (i + 1) n w ↔
    OpenedAt p (if p (m, v) && v.isList then m.relation :: seen else seen) members i n w := by
  simp only [OpenedAt, List.getElem?_cons_succ, Nat.exists_lt_succ_left,
    List.getElem?_cons_zero, Option.some.injEq, Prod.mk.injEq, not_or]
  refine and_congr_right fun _ => imp_congr_right fun _ => ?_
  -- The first list closes its relation for the members after it.
  by_cases hv : (p (m, v) && v.isList) = true
  · have hv' := Bool.and_eq_true_iff.1 hv
    rw [if_pos hv, List.mem_cons, not_or]
    constructor
    · rintro ⟨hs, hne, h⟩
      exact ⟨⟨fun heq => hne ⟨m, v, ⟨⟨rfl, rfl⟩, hv'.1⟩, hv'.2, heq.symm⟩, hs⟩, h⟩
    · rintro ⟨⟨hne, hs⟩, h⟩
      exact ⟨hs, fun ⟨_, _, ⟨⟨hm, _⟩, _⟩, _, heq⟩ => hne (hm ▸ heq.symm), h⟩
  · rw [if_neg hv]
    constructor
    · rintro ⟨hs, -, h⟩
      exact ⟨hs, h⟩
    · rintro ⟨hs, h⟩
      refine ⟨hs, ?_, h⟩
      rintro ⟨_, _, ⟨⟨rfl, rfl⟩, hp⟩, hl, -⟩
      exact hv (Bool.and_eq_true_iff.2 ⟨hp, hl⟩)

/-- What is opened are the references in members that are opened. -/
theorem mem_openedRefs : s ∈ openedRefs seen (members.filter p) ↔
    ∃ i m v, OpenedAt p seen members i m v ∧ s ∈ v.references := by
  induction members generalizing seen with
  | nil => simp [openedRefs, OpenedAt]
  | cons e members ih =>
    obtain ⟨m, v⟩ := e
    have hzero : (∃ n w, OpenedAt p seen ((m, v) :: members) 0 n w ∧ s ∈ w.references) ↔
        (p (m, v) = true ∧ (v.isList = true → m.relation ∉ seen)) ∧ s ∈ v.references := by
      simp only [openedAt_zero]
      constructor
      · rintro ⟨_, _, ⟨⟨rfl, rfl⟩, h⟩, hs⟩
        exact ⟨h, hs⟩
      · rintro ⟨h, hs⟩
        exact ⟨m, v, ⟨⟨rfl, rfl⟩, h⟩, hs⟩
    rw [← Nat.or_exists_add_one, hzero]
    simp only [openedAt_succ, ← ih, List.filter_cons]
    by_cases hp : p (m, v) = true
    · by_cases hv : v.isList = true
      · by_cases hm : m.relation ∈ seen
        · -- A list that is passed over closes a relation that is closed already.
          have hseen : ∀ q, q ∈ m.relation :: seen ↔ q ∈ seen := fun q =>
            ⟨fun h => (List.mem_cons.1 h).elim (fun h => h ▸ hm) id, List.mem_cons_of_mem _⟩
          have hclosed : s ∈ openedRefs (m.relation :: seen) (members.filter p) ↔
              s ∈ openedRefs seen (members.filter p) := by
            simp only [ih, OpenedAt, hseen]
          simp [hp, hv, hm, openedRefs, hclosed]
        · simp [hp, hv, hm, openedRefs]
      · simp [hp, hv, openedRefs]
    · simp [hp]

end

/-- What a walk opens from an object is what follows on it. -/
theorem mem_openedFrom (hg : g.WellTyped) (hr : g.contains r = true) :
    s ∈ g.openedFrom r ↔ g.Opens r s := by
  obtain ⟨o, ho⟩ := contains_iff.1 hr
  obtain ⟨e, he, hmembers⟩ := walkedMembers_eq hg ho
  have hfollows {i m v} : ((((g.schema.membersBaseFirst e).zip o.values)[i]? = some (m, v)) ∧
      (m.isReference && !g.model.policy.skipsTraversal (g.schema.chain e) m) = true) ↔
        g.Follows r i m v ∧ m.isReference = true := by
    rw [List.getElem?_zip_eq_some, Bool.and_eq_true, Bool.not_eq_true']
    constructor
    · rintro ⟨⟨hm, hv⟩, href, hskip⟩
      exact ⟨⟨o, e, ho, he, hm, hv, hskip⟩, href⟩
    · rintro ⟨⟨o', e', ho', he', hm, hv, hskip⟩, href⟩
      obtain rfl := Option.some.inj (ho.symm.trans ho')
      obtain rfl := Option.some.inj (he.symm.trans he')
      exact ⟨⟨hm, hv⟩, href, hskip⟩
  rw [openedFrom, hmembers, mem_openedRefs]
  simp only [OpenedAt, hfollows]
  constructor
  · rintro ⟨i, m, v, ⟨⟨hf, -⟩, hfirst⟩, hs⟩
    refine ⟨i, m, v, hf, hs, fun hv hp => (hfirst hv).2 ?_⟩
    obtain ⟨j, hj, n, w, hf', hw, hrel⟩ := hp
    have href := isReference_of_isMany (isMany_of_fits (hf'.fits hg) hw)
    exact ⟨j, hj, n, w, ⟨hf', href⟩, hw, hrel⟩
  · -- A list before this one with the same relation
    -- holds references, so it is among those counted.
    rintro ⟨i, m, v, hf, hs, hfirst⟩
    refine ⟨i, m, v, ⟨⟨hf, Member.isReference_of_fits (hf.fits hg) hs⟩, fun hv => ?_⟩, hs⟩
    refine ⟨List.not_mem_nil, fun hp => hfirst hv ?_⟩
    obtain ⟨j, hj, n, w, ⟨hf', -⟩, hw, hrel⟩ := hp
    exact ⟨j, hj, n, w, hf', hw, hrel⟩

theorem Refers.contains (hlive : g.Live) (h : g.Refers r s) : g.contains s = true := by
  obtain ⟨i, m, v, ⟨o, e, ho, -, -, hv, -⟩, hs⟩ := h
  exact hlive r o ho v (List.mem_of_getElem? hv) s hs

theorem Opens.refers (h : g.Opens r s) : g.Refers r s := refers_iff.2 (.inl h)

/-- From an object, opening leads to what a walk visits. -/
theorem reaches_openedFrom (hg : g.WellTyped) (hlive : g.Live) (hr : g.contains r = true) :
    ReflTransGen (fun a b => b ∈ g.openedFrom a) r s ↔ ReflTransGen g.Opens r s := by
  have hcontains {s} (h : ReflTransGen g.Opens r s) : g.contains s = true := by
    cases h with
    | refl => exact hr
    | tail _ h => exact h.refers.contains hlive
  constructor
  · intro h
    induction h with
    | refl => exact .refl
    | tail _ h ih => exact ih.tail ((mem_openedFrom hg (hcontains ih)).1 h)
  · intro h
    induction h with
    | refl => exact .refl
    | tail hab h ih => exact ih.tail ((mem_openedFrom hg (hcontains hab)).2 h)

/-- Following all references leads no further than opening exactly if what is
    hidden is opened otherwise. -/
theorem reaches_iff_of_hides : (∀ s, ReflTransGen g.Opens r s ↔ ReflTransGen g.Refers r s) ↔
    ∀ a s, ReflTransGen g.Opens r a → g.Hides a s → ReflTransGen g.Opens r s := by
  constructor
  · intro h a s ha hs
    exact (h s).2 (((h a).1 ha).tail (refers_iff.2 (.inr hs)))
  · intro h s
    refine ⟨ReflTransGen.mono (fun _ _ => Opens.refers) r s, fun hs => ?_⟩
    -- Along the chain, each step is opened, or is hidden and made up for.
    induction hs with
    | refl => exact .refl
    | tail _ hs ih =>
      rcases refers_iff.1 hs with hs | hs
      · exact ih.tail hs
      · exact h _ _ ih hs

/-- A walk from an object of a well-typed and live graph ends well.

    * It enters what can be reached by references that objects open.
    * That is all that can be reached by references in members that are not
      passed over exactly if what is hidden from it is entered otherwise.
    * It is so if the list members of each entity have different relations. -/
theorem entered_traverse_iff (hg : g.WellTyped) (hlive : g.Live) (hr : g.contains r = true) :
    (g.traverse r).1 = .ok (entered (g.traverse r).2).length ∧
      (∀ s, s ∈ entered (g.traverse r).2 ↔ ReflTransGen g.Opens r s) ∧
      ((∀ s, s ∈ entered (g.traverse r).2 ↔ ReflTransGen g.Refers r s) ↔
        ∀ a s, ReflTransGen g.Opens r a → g.Hides a s → ReflTransGen g.Opens r s) ∧
      ((∀ e ∈ g.schema.entities, (g.schema.membersBaseFirst e).Pairwise fun m n =>
          m.isMany = true → n.isMany = true → m.relation ≠ n.relation) →
        ∀ s, s ∈ entered (g.traverse r).2 ↔ ReflTransGen g.Refers r s) := by
  obtain ⟨hok, hmem⟩ := entered_traverse hg hlive hr
  have hopens s : s ∈ entered (g.traverse r).2 ↔ ReflTransGen g.Opens r s :=
    (hmem s).trans (reaches_openedFrom hg hlive hr)
  have hexact := reaches_iff_of_hides (g := g) (r := r)
  simp only [← hopens] at hexact
  refine ⟨hok, hopens, by simpa only [hopens] using hexact, fun h => ?_⟩
  exact hexact.2 fun a s _ hs => absurd hs (not_hides hg h)

/-- A node with another one on its left and a third one on its right. -/
def fork : Graph := Network.graph {} [{ left := some [1], right := some [2] }, {}, {}]

/-- From the node of a fork, opening leads to itself and to the one on its
    left. -/
theorem entered_traverse_fork :
    (fork.WellTyped ∧ fork.Live ∧ fork.contains (Network.ref 0) = true) ∧
      (fork.traverse (Network.ref 0)).1 = .ok 2 ∧
        ∀ s, s ∈ [Network.ref 0, Network.ref 1] ↔ ReflTransGen fork.Opens (Network.ref 0) s := by
  have hg : fork.WellTyped := Network.wellTyped _ _
  have hlive : fork.Live := Network.live (by decide)
  have hr : fork.contains (Network.ref 0) = true := by decide
  have hentered : entered (fork.traverse (Network.ref 0)).2 = [Network.ref 0, Network.ref 1] := by
    decide
  obtain ⟨hok, hopens, -, -⟩ := entered_traverse_iff hg hlive hr
  rw [hentered] at hok hopens
  exact ⟨⟨hg, hlive, hr⟩, hok, hopens⟩

/-- The list on its right has the relation of the one on its left, so what is
    in it is not entered. -/
theorem fork_not_complete :
    (fork.WellTyped ∧ fork.Live ∧ fork.contains (Network.ref 0) = true) ∧
      ¬∀ s, s ∈ entered (fork.traverse (Network.ref 0)).2 ↔
        ReflTransGen fork.Refers (Network.ref 0) s := by
  refine ⟨⟨Network.wellTyped _ _, Network.live (by decide), by decide⟩, fun h => ?_⟩
  have hrefers : fork.Refers (Network.ref 0) (Network.ref 2) :=
    ⟨3, _, _, ⟨_, _, rfl, rfl, rfl, rfl, rfl⟩, by decide⟩
  have hentered := (h (Network.ref 2)).2 (.single hrefers)
  revert hentered
  decide

end Graph

end ObjectModel
