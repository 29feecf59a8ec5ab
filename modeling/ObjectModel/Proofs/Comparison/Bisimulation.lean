import ObjectModel.Proofs.Comparison.Demands
import ObjectModel.Proofs.Graph.Network
import ObjectModel.Proofs.Graph.Renaming

/-!
# Comparison decides bisimilarity

Objects are bisimilar if they are related by a bisimulation: a relation between
the objects of two graphs under which related objects have one tag, equal
scalars, and related references (`Graph.Bisimulation`). Only members that are
compared count, and a list that was never made is empty.

Bisimulations are what consistent sets of pairs come to in terms of values, so
objects compare equal if and only if they are bisimilar
(`Graph.compare_eq_iff_bisimilar`). As bisimulations contain equality and
compose, equal objects make up classes, also across graphs, as long as the
policies of these leave the same members out. Otherwise they need not.
-/

namespace ObjectModel

namespace Value

/-- The values are equal up to references, which are related one by one. A list
    that was never made is empty. -/
def Related (R : Ref → Ref → Prop) : Value → Value → Prop
  | .ref c, .ref d => Option.Rel R c d
  | .refs c, .refs d => List.Forall₂ R (c.getD []) (d.getD [])
  | v, w => v = w

variable {R : Ref → Ref → Prop} {S : Set (Ref × Ref)} {m : Member} {u v w : Value}

/-- Values other than references are in order if they are equal. -/
theorem scalarCompare_eq_iff (hv : v.kind ≠ .ref) (hv' : v.kind ≠ .refs) :
    v.scalarCompare w = .eq ↔ v = w := by
  cases v with
  | bool a =>
    cases w with
    | bool b => cases a <;> cases b <;> decide
    | _ => simp [scalarCompare, kind, ValueKind.rank]
  | int a =>
    cases w with
    | int b => simp [scalarCompare, Int64.toInt_inj]
    | _ => simp [scalarCompare, kind, ValueKind.rank]
  | uint a =>
    cases w with
    | uint b => simp [scalarCompare, UInt64.toNat_inj]
    | _ => simp [scalarCompare, kind, ValueKind.rank]
  | text a =>
    cases w with
    | text b => simp [scalarCompare]
    | _ => simp [scalarCompare, kind, ValueKind.rank]
  | ref _ => exact absurd rfl hv
  | refs _ => exact absurd rfl hv'

/-- Values that are no references are related if they are equal. -/
theorem related_iff_eq (hv : v.kind ≠ .ref) (hv' : v.kind ≠ .refs) : Related R v w ↔ v = w := by
  cases v with
  | ref _ => exact absurd rfl hv
  | refs _ => exact absurd rfl hv'
  | _ => rfl

/-- A value is related to itself where its references are. -/
theorem Related.refl (h : ∀ r ∈ v.references, R r r) : Related R v v := by
  cases v with
  | ref c =>
    cases c with
    | none => exact .none
    | some c => exact .some (h c List.mem_cons_self)
  | refs c =>
    cases c with
    | none => exact .nil
    | some c => exact List.forall₂_same.2 h
  | _ => rfl

/-- Related values are of one kind. -/
theorem Related.kind_eq (h : v.Related R w) : w.kind = v.kind := by
  cases v with
  | ref _ => cases w <;> first | rfl | cases h
  | refs _ => cases w <;> first | rfl | cases h
  | _ =>
    obtain rfl := (related_iff_eq (by simp [kind]) (by simp [kind])).1 h
    rfl

/-- Values stay related under a relation that relates more. -/
theorem Related.imp {R' : Ref → Ref → Prop} (h : v.Related R w) (himp : ∀ r s, R r s → R' r s) :
    v.Related R' w := by
  cases v with
  | ref c =>
    cases w with
    | ref d =>
      rcases h with h | _
      · exact .some (himp _ _ h)
      · exact .none
    | _ => cases h
  | refs c =>
    cases w with
    | refs d => exact List.Forall₂.imp himp h
    | _ => cases h
  | _ => exact h

/-- Each reference on the right is related to one on the left. -/
theorem Related.exists_left {s : Ref} (h : v.Related R w) (hs : s ∈ w.references) :
    ∃ r ∈ v.references, R r s := by
  cases v with
  | ref c =>
    cases w with
    | ref d =>
      rcases h with h | _
      · exact ⟨_, List.mem_cons_self, List.mem_singleton.1 hs ▸ h⟩
      · cases hs
    | _ => cases h
  | refs c =>
    cases w with
    | refs d =>
      rw [references_refs] at hs ⊢
      obtain ⟨i, hi, rfl⟩ := List.mem_iff_getElem.1 hs
      have hlength := List.Forall₂.length_eq h
      exact ⟨_, List.getElem_mem (hlength ▸ hi), List.Forall₂.get h (hlength ▸ hi) hi⟩
    | _ => cases h
  | _ =>
    obtain rfl := (related_iff_eq (by simp [kind]) (by simp [kind])).1 h
    cases hs

/-- Renaming relates a value to what it becomes. -/
theorem related_map {f : Ref → Ref} (h : ∀ r ∈ v.references, R r (f r)) :
    Related R v (v.map f) := by
  cases v with
  | ref target =>
    cases target with
    | none => exact .none
    | some r => exact .some (h r List.mem_cons_self)
  | refs items =>
    cases items with
    | none => exact .nil
    | some l => exact List.forall₂_map_right_iff.2 (List.forall₂_same.2 h)
  | _ => rfl

/-- Where there are no values, there is no reference either. -/
theorem related_getD {vs ws : List Value} (h : List.Forall₂ (Related R) vs ws) (i : Nat) :
    Related R (vs.getD i Inhabited.default) (ws.getD i Inhabited.default) := by
  induction h generalizing i with
  | nil => exact .none
  | cons hv _ ih =>
    cases i with
    | zero => exact hv
    | succ i => exact ih i

/-- Relations of values compose as those of references do. -/
theorem Related.comp {R' : Ref → Ref → Prop} (h : Related R u v) (h' : Related R' v w) :
    Related (Relation.Comp R R') u w := by
  -- The value in the middle decides which kind the other two are of.
  cases v with
  | ref d =>
    cases u with
    | ref c =>
      cases w with
      | ref e =>
        cases h with
        | none => cases h'; exact .none
        | some hcd => cases h' with | some hde => exact .some ⟨_, hcd, hde⟩
      | _ => cases h'
    | _ => cases h
  | refs d =>
    cases u with
    | refs c =>
      cases w with
      | refs e =>
        simp only [Related] at h h' ⊢
        generalize c.getD [] = c, d.getD [] = d, e.getD [] = e at h h'
        -- Lists are related element by element, so the middles are chosen one by one.
        induction h generalizing e with
        | nil => cases h'; exact .nil
        | cons hcd _ ih =>
          cases h' with
          | cons hde h' => exact .cons ⟨_, hcd, hde⟩ (ih _ h')
      | _ => cases h'
    | _ => cases h
  | _ =>
    obtain rfl := (related_iff_eq (by simp [kind]) (by simp [kind])).1 h'
    cases u with
    | ref _ => cases h
    | refs _ => cases h
    | _ => exact h

/-- What is demanded of values that fit one member is that they are related. -/
theorem holds_demand_iff (hv : v.fits m = true) (hw : w.fits m = true) :
    Holds S [m.demand v w] ↔ Related (fun c d => (c, d) ∈ S) v w := by
  have hkind := (kind_of_fits hv).trans (kind_of_fits hw).symm
  rw [holds_cons, and_iff_left holds_nil, Member.demand]
  -- Only references put further pairs in demand: scalars are compared at once.
  by_cases hm : m.isReference = true
  · rw [if_pos hm]
    rw [Member.isReference_iff, ← kind_of_fits hv] at hm
    cases v with
    | ref c =>
      cases w with
      | ref d => cases c <;> cases d <;> simp [demand, Related]
      | _ => cases hkind
    | refs c =>
      cases w with
      | refs d => simp [demand, Related, List.forall₂_iff_zip]
      | _ => cases hkind
    | _ => simp [kind] at hm
  · rw [if_neg hm]
    rw [Member.isReference_iff, ← kind_of_fits hv, not_or] at hm
    rw [related_iff_eq hm.1 hm.2, scalarCompare_eq_iff hm.1 hm.2]
    simp

/-- Nothing that is demanded of related values fails, in whatever member. -/
theorem Related.holds (m : Member) (h : Related (fun c d => (c, d) ∈ S) v w) :
    Holds S [m.demand v w] := by
  rw [holds_cons, and_iff_left holds_nil, Member.demand]
  cases v with
  | ref c =>
    cases w with
    | ref d => cases h <;> split <;> simp_all [demand, scalarCompare]
    | _ => cases h
  | refs c =>
    cases w with
    | refs d =>
      have hzip := List.forall₂_iff_zip.1 h
      split <;> simp_all [demand, scalarCompare]
    | _ => cases h
  | _ =>
    obtain rfl := (related_iff_eq (by simp [kind]) (by simp [kind])).1 h
    split <;> simp [demand, scalarCompare]

end Value

namespace Graph

variable {left right : Graph} {S : Set (Ref × Ref)} {a b : Ref} {m : Member}

theorem mem_levelMembers {policy : PolicyTable} {level : Entity} :
    m ∈ levelMembers policy level ↔ m ∈ level.members ∧ policy.skipsCompare m = false := by
  rw [levelMembers, List.mem_append, List.mem_filter, List.mem_filter, List.mem_filter]
  cases m.isReference <;> simp

/-- The members that are compared are those of an entity that the policy does
    not exclude. -/
theorem mem_comparedMembers {model : Model} {e : Entity} : m ∈ comparedMembers model e ↔
    m ∈ model.schema.membersBaseFirst e ∧ model.policy.skipsCompare m = false := by
  simp only [comparedMembers, RawSchema.membersBaseFirst, List.mem_flatMap, mem_levelMembers]
  exact ⟨fun ⟨l, hl, hm, h⟩ => ⟨⟨l, hl, hm⟩, h⟩, fun ⟨⟨l, hl, hm⟩, h⟩ => ⟨l, hl, hm, h⟩⟩

theorem slotDemand_eq {l : Layout} {o p : Object} {i : Nat} {v w : Value}
    (hn : (l.members.map (·.name)).Nodup) (hm : l.members[i]? = some m)
    (hv : o.values[i]? = some v) (hw : p.values[i]? = some w) :
    slotDemand l o p m = m.demand v w := by
  rw [slotDemand, (Layout.slotOf?_eq_some hn (List.mem_of_getElem? hm)).2 hm]
  simp [hv, hw]

/-- What is demanded of two objects whose members have different names is that
    what they hold in compared members is related. -/
theorem holds_demands_iff (hs : left.schema = right.schema) (hl : left.WellTyped)
    (hr : right.WellTyped)
    (hn : ∀ e ∈ left.schema.entities, ((left.schema.membersBaseFirst e).map (·.name)).Nodup)
    (ha : left.contains a = true) (hb : right.contains b = true) (htag : a.tag = b.tag) :
    Holds S (demands left right (a, b)) ↔ ∀ i m v w, left.Stores a i m v → right.Stores b i m w →
      left.model.policy.skipsCompare m = false → v.Related (fun c d => (c, d) ∈ S) w := by
  obtain ⟨o, ho⟩ := contains_iff.1 ha
  obtain ⟨p, hp⟩ := contains_iff.1 hb
  obtain ⟨e, l, he, hent, hlayout, hmembers, -⟩ := hl.object ho
  have he' : right.schema.entityAt? b.tag = some e := hs ▸ htag ▸ he
  have hnodup := hmembers ▸ hn e (List.mem_of_getElem? he)
  rw [demands_eq hent hlayout ho hp, Holds, List.forall_mem_map]
  -- In the slot of a member, values are demanded to be related.
  have hslot {i m v w} (hv : left.Stores a i m v) (hw : right.Stores b i m w) :
      Holds S [slotDemand l o p m] ↔ v.Related (fun c d => (c, d) ∈ S) w := by
    rw [← Value.holds_demand_iff (hv.fits hl) (hw.fits hr)]
    obtain ⟨o', e', ho', he', hm, hv⟩ := hv
    obtain ⟨p', -, hp', -, -, hw⟩ := hw
    obtain rfl := Option.some.inj (ho.symm.trans ho')
    obtain rfl := Option.some.inj (hp.symm.trans hp')
    obtain rfl := Option.some.inj (he.symm.trans he')
    rw [slotDemand_eq hnodup (hmembers ▸ hm) hv hw]
  simp only [Holds, List.forall_mem_singleton] at hslot
  constructor
  · intro h i m v w hv hw hskip
    obtain ⟨-, e', -, he', hm, -⟩ := id hv
    obtain rfl := Option.some.inj (he.symm.trans he')
    exact (hslot hv hw).1 (h m (mem_comparedMembers.2 ⟨List.mem_of_getElem? hm, hskip⟩))
  · intro h m hm
    obtain ⟨hm, hskip⟩ := mem_comparedMembers.1 hm
    obtain ⟨i, hi⟩ : ∃ i, (left.schema.membersBaseFirst e)[i]? = some m :=
      List.mem_iff_getElem?.1 hm
    obtain ⟨v, hv⟩ := hl.stores ha he hi
    obtain ⟨w, hw⟩ := hr.stores hb he' (hs ▸ hi)
    exact (hslot hv hw).2 (h i m v w hv hw hskip)

/-- Pairs of objects are consistent if what they hold is related, slot by slot. -/
theorem consistent_of_related (hg : left.WellTyped)
    (h : ∀ q ∈ S, q.1.tag = q.2.tag ∧ ∃ o p, left.object? q.1 = some o ∧
      right.object? q.2 = some p ∧
        List.Forall₂ (Value.Related fun c d => (c, d) ∈ S) o.values p.values) :
    Consistent left right S := by
  rintro ⟨a, b⟩ hab
  obtain ⟨htag, o, p, ho, hp, hvalues⟩ := h _ hab
  obtain ⟨e, l, -, he, hl, -, -⟩ := hg.object ho
  refine ⟨htag, ?_⟩
  rw [demands_eq he hl ho hp, Holds, List.forall_mem_map]
  intro m _
  refine (holds_cons.1 (?_ : Holds S [slotDemand l o p m])).1
  rw [slotDemand]
  cases l.slotOf? m.name with
  | none => exact holds_cons.2 ⟨⟨rfl, fun _ hq => absurd hq List.not_mem_nil⟩, holds_nil⟩
  | some i => exact (Value.related_getD hvalues i).holds m

/-- So they compare equal. -/
theorem compare_eq_of_related (hg : left.WellTyped)
    (h : ∀ q ∈ S, q.1.tag = q.2.tag ∧ ∃ o p, left.object? q.1 = some o ∧
      right.object? q.2 = some p ∧
        List.Forall₂ (Value.Related fun c d => (c, d) ∈ S) o.values p.values)
    (hab : (a, b) ∈ S) : ∃ c, compare left right a b = .ok c ∧ c.ordering = .eq := by
  have hconsistent := consistent_of_related hg h
  have hobject : ∀ q ∈ S, left.contains q.1 = true ∧ right.contains q.2 = true := fun q hq =>
    let ⟨_, _, _, ho, hp, _⟩ := h q hq
    ⟨contains_of_object? ho, contains_of_object? hp⟩
  obtain ⟨c, hc, hiff⟩ := compare_eq_iff_consistent hg hobject
    (fun q hq d hd => ((hconsistent q hq).2 d hd).2) hab
  exact ⟨c, hc, hiff.2 ⟨S, hconsistent, hab⟩⟩

/-- A relation between the objects of two graphs: they have one tag and, in
    members that the policy on the left does not exclude, hold values that are
    related. -/
structure Bisimulation (left right : Graph) (R : Ref → Ref → Prop) : Prop where
  objects : ∀ a b, R a b → left.contains a = true ∧ right.contains b = true
  tag : ∀ a b, R a b → a.tag = b.tag
  values : ∀ a b, R a b → ∀ i m v w, left.Stores a i m v → right.Stores b i m w →
    left.model.policy.skipsCompare m = false → v.Related R w

/-- Equality is a bisimulation, as no reference dangles. -/
theorem Bisimulation.refl {g : Graph} (hlive : g.Live) :
    Bisimulation g g fun a b => a = b ∧ g.contains b = true where
  objects := by
    rintro a _ ⟨rfl, ha⟩
    exact ⟨ha, ha⟩
  tag := by
    rintro a _ ⟨rfl, -⟩
    rfl
  values := by
    rintro a _ ⟨rfl, -⟩ i m v w ⟨o, e, ho, he, hm, hv⟩ ⟨o', e', ho', -, -, hw⟩ -
    obtain rfl := Option.some.inj (ho.symm.trans ho')
    obtain rfl := Option.some.inj (hv.symm.trans hw)
    exact .refl fun r hr => ⟨rfl, hlive a o ho v (List.mem_of_getElem? hv) r hr⟩

/-- Bisimulations compose, if in the middle no more is compared than on the
    left. -/
theorem Bisimulation.comp {g : Graph} {R R' : Ref → Ref → Prop} (h : Bisimulation left g R)
    (h' : Bisimulation g right R') (hg : g.WellTyped) (hs : left.schema = g.schema)
    (hskip : ∀ e ∈ left.schema.entities, ∀ m ∈ left.schema.membersBaseFirst e,
      g.model.policy.skipsCompare m = true → left.model.policy.skipsCompare m = true) :
    Bisimulation left right (Relation.Comp R R') where
  objects := fun a c ⟨b, hab, hbc⟩ => ⟨(h.objects a b hab).1, (h'.objects b c hbc).2⟩
  tag := fun a c ⟨b, hab, hbc⟩ => (h.tag a b hab).trans (h'.tag b c hbc)
  values := by
    rintro a c ⟨b, hab, hbc⟩ i m u w hu hw hm
    obtain ⟨-, e, -, he, hi, -⟩ := id hu
    obtain ⟨v, hv⟩ := hg.stores (h.objects a b hab).2 (h.tag a b hab ▸ hs ▸ he) (hs ▸ hi)
    have hm' : g.model.policy.skipsCompare m = false := by
      by_contra hskipped
      rw [hskip e (List.mem_of_getElem? he) m (List.mem_of_getElem? hi)
        (by simpa using hskipped)] at hm
      cases hm
    exact (h.values a b hab i m u v hu hv hm).comp (h'.values b c hbc i m v w hv hw hm')

/-- The pairs of objects of two graphs. -/
def objectPairs (left right : Graph) : Set (Ref × Ref) :=
  {q | left.contains q.1 = true ∧ right.contains q.2 = true}

/-- In live graphs, pairs of objects demand nothing of other pairs. -/
theorem objectPairs_closed (hl : left.WellTyped) (hlive : left.Live) (hlive' : right.Live) :
    ∀ q ∈ objectPairs left right, ∀ d ∈ demands left right q, ∀ s ∈ d.pairs,
      s ∈ objectPairs left right := by
  rintro ⟨a, b⟩ ⟨ha, hb⟩ d hd s hs
  obtain ⟨o, ho⟩ := contains_iff.1 ha
  obtain ⟨p, hp⟩ := contains_iff.1 hb
  obtain ⟨e, l, -, hent, hlayout, -, -⟩ := hl.object ho
  rw [demands_eq hent hlayout ho hp] at hd
  obtain ⟨m, -, rfl⟩ := List.mem_map.1 hd
  obtain ⟨⟨v, hv, hsv⟩, w, hw, hsw⟩ := mem_pairs_slotDemand hs
  exact ⟨hlive a o ho v hv s.1 hsv, hlive' b p hp w hw s.2 hsw⟩

/-- Consistent sets of pairs of objects are bisimulations. -/
theorem exists_consistent_iff (hs : left.schema = right.schema) (hl : left.WellTyped)
    (hlive : left.Live) (hr : right.WellTyped) (hlive' : right.Live)
    (hn : ∀ e ∈ left.schema.entities, ((left.schema.membersBaseFirst e).map (·.name)).Nodup)
    (hab : (a, b) ∈ objectPairs left right) :
    (∃ S, Consistent left right S ∧ (a, b) ∈ S) ↔ ∃ R, Bisimulation left right R ∧ R a b := by
  constructor
  · rintro ⟨S, hS, habS⟩
    have hD := hS.inter (objectPairs_closed hl hlive hlive')
    refine ⟨fun c d => (c, d) ∈ S ∩ objectPairs left right, ⟨?_, ?_, ?_⟩, habS, hab⟩
    · exact fun c d h => h.2
    · exact fun c d h => (hD _ h).1
    · exact fun c d h => (holds_demands_iff hs hl hr hn h.2.1 h.2.2 (hD _ h).1).1 (hD _ h).2
  · rintro ⟨R, hR, habR⟩
    refine ⟨{q | R q.1 q.2}, fun q hq => ⟨hR.tag _ _ hq, ?_⟩, habR⟩
    obtain ⟨hc, hd⟩ := hR.objects _ _ hq
    exact (holds_demands_iff hs hl hr hn hc hd (hR.tag _ _ hq)).2 (hR.values _ _ hq)

/-- Objects of live graphs are compared, and compare equal if and only if they
    are related by a bisimulation. -/
theorem exists_compare_iff (hs : left.schema = right.schema) (hl : left.WellTyped)
    (hlive : left.Live) (hr : right.WellTyped) (hlive' : right.Live)
    (hn : ∀ e ∈ left.schema.entities, ((left.schema.membersBaseFirst e).map (·.name)).Nodup)
    (ha : left.contains a = true) (hb : right.contains b = true) :
    ∃ c, compare left right a b = .ok c ∧
      (c.ordering = .eq ↔ ∃ R, Bisimulation left right R ∧ R a b) := by
  have hab : (a, b) ∈ objectPairs left right := ⟨ha, hb⟩
  obtain ⟨c, hc, hiff⟩ := compare_eq_iff_consistent hl (fun q hq => hq)
    (objectPairs_closed hl hlive hlive') hab
  exact ⟨c, hc, hiff.trans (exists_consistent_iff hs hl hlive hr hlive' hn hab)⟩

/-- Comparison decides bisimilarity. In well-typed and live graphs over a
    schema whose entities have members of different names,

    * the comparison of two objects ends well, and finds them equal if and only
      if they are bisimilar;
    * it finds every object equal to itself;
    * it finds objects equal that are both found equal to an object of a third
      graph, if its policy excludes no members that the one on the left does
      not exclude. -/
theorem compare_eq_iff_bisimilar (hs : left.schema = right.schema) (hl : left.WellTyped)
    (hlive : left.Live) (hr : right.WellTyped) (hlive' : right.Live)
    (hn : ∀ e ∈ left.schema.entities, ((left.schema.membersBaseFirst e).map (·.name)).Nodup)
    (ha : left.contains a = true) (hb : right.contains b = true) :
    (∃ c, compare left right a b = .ok c ∧
      (c.ordering = .eq ↔ ∃ R, Bisimulation left right R ∧ R a b)) ∧
    (∃ c, compare left left a a = .ok c ∧ c.ordering = .eq) ∧
    ∀ (g : Graph) (r : Ref), left.schema = g.schema → g.WellTyped → g.Live → g.contains r = true →
      (∀ e ∈ left.schema.entities, ∀ m ∈ left.schema.membersBaseFirst e,
        g.model.policy.skipsCompare m = true → left.model.policy.skipsCompare m = true) →
      (∃ c, compare left g a r = .ok c ∧ c.ordering = .eq) →
      (∃ c, compare g right r b = .ok c ∧ c.ordering = .eq) →
      ∃ c, compare left right a b = .ok c ∧ c.ordering = .eq := by
  obtain ⟨c, hc, hiff⟩ := exists_compare_iff hs hl hlive hr hlive' hn ha hb
  refine ⟨⟨c, hc, hiff⟩, ?_, ?_⟩
  · obtain ⟨d, hd, hdiff⟩ := exists_compare_iff rfl hl hlive hl hlive hn ha ha
    exact ⟨d, hd, hdiff.2 ⟨_, .refl hlive, rfl, ha⟩⟩
  · rintro g r hsg hg hglive hgr hskip ⟨c₁, hc₁, heq₁⟩ ⟨c₂, hc₂, heq₂⟩
    obtain ⟨d₁, hd₁, hiff₁⟩ := exists_compare_iff hsg hl hlive hg hglive hn ha hgr
    obtain ⟨d₂, hd₂, hiff₂⟩ :=
      exists_compare_iff (hsg.symm.trans hs) hg hglive hr hlive' (hsg ▸ hn) hgr hb
    obtain rfl := Except.ok.inj (hc₁.symm.trans hd₁)
    obtain rfl := Except.ok.inj (hc₂.symm.trans hd₂)
    obtain ⟨R₁, hR₁, har⟩ := hiff₁.1 heq₁
    obtain ⟨R₂, hR₂, hrb⟩ := hiff₂.1 heq₂
    exact ⟨c, hc, hiff.2 ⟨_, hR₁.comp hR₂ hg hsg hskip, r, har, hrb⟩⟩

/-- In a ring of two nodes a node is bisimilar to one in a ring of three, as
    both are to a node that is next to itself. -/
theorem rings_bisimilar :
    let pair := Network.graph {} [{ next := some 1 }, { next := some 0 }]
    let ring := Network.graph {} [{ next := some 1 }, { next := some 2 }, { next := some 0 }]
    ∃ R, Bisimulation pair ring R ∧ R (Network.ref 0) (Network.ref 2) := by
  intro pair ring
  let loop := Network.graph {} [{ next := some 0 }]
  have hloop : loop.Live := Network.live (by decide)
  have hpair : pair.Live := Network.live (by decide)
  have hring : ring.Live := Network.live (by decide)
  have hs : pair.schema = ring.schema := rfl
  obtain ⟨⟨c, hc, hiff⟩, -, htrans⟩ := compare_eq_iff_bisimilar hs (Network.wellTyped _ _) hpair
    (Network.wellTyped _ _) hring (by decide) (a := Network.ref 0) (b := Network.ref 2) (by decide)
    (by decide)
  have heq₁ : compare pair loop (Network.ref 0) (Network.ref 0) = .ok ⟨.eq, none⟩ := by
    decide +kernel
  have heq₂ : compare loop ring (Network.ref 0) (Network.ref 2) = .ok ⟨.eq, none⟩ := by
    decide +kernel
  -- The two rings are never compared: both are equal to the loop.
  obtain ⟨d, hd, heq⟩ := htrans loop (Network.ref 0) rfl (Network.wellTyped _ _) hloop (by decide)
    (fun _ _ _ _ h => h) ⟨_, heq₁, rfl⟩ ⟨_, heq₂, rfl⟩
  obtain rfl := Except.ok.inj (hc.symm.trans hd)
  exact hiff.1 heq

/-- Without the condition on its policy it does not. Nodes with the names `a` and `b` are
    both found equal to a node `a` of a third graph: the first one by its name, the second
    one as the policy there leaves names out of comparison. -/
theorem compare_not_transitive :
    let nameless : PolicyTable := PolicyTable.add {} (.compareExclude "name")
    let left := Network.graph {} [{ name := "a" }]
    let middle := Network.graph nameless [{ name := "a" }]
    let right := Network.graph {} [{ name := "b" }]
    let r := Network.ref 0
    (left.schema = middle.schema ∧ middle.schema = right.schema ∧
      ∀ e ∈ left.schema.entities, ((left.schema.membersBaseFirst e).map (·.name)).Nodup) ∧
    (∀ g ∈ [left, middle, right], g.WellTyped ∧ g.Live ∧ g.contains r = true) ∧
    compare left middle r r = .ok ⟨.eq, none⟩ ∧
    compare middle right r r = .ok ⟨.eq, none⟩ ∧
    compare left right r r = .ok ⟨.lt, some (r, r)⟩ := by
  intro nameless left middle right r
  -- A node without references is in order under any policy.
  have hsound (policy name) : (Network.graph policy [{ name }]).WellTyped ∧
      (Network.graph policy [{ name }]).Live ∧
      (Network.graph policy [{ name }]).contains r = true :=
    ⟨Network.wellTyped _ _, Network.live (by simp [Network.Node.targets]),
      Network.contains_ref.2 Nat.one_pos⟩
  refine ⟨⟨rfl, rfl, by decide⟩, ?_, by decide +kernel, by decide +kernel, by decide +kernel⟩
  simp only [List.forall_mem_cons, List.not_mem_nil, false_implies, implies_true, and_true]
  exact ⟨hsound _ _, hsound _ _, hsound _ _⟩

end Graph

end ObjectModel
