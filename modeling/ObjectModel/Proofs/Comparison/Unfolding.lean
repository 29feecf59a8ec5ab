import ObjectModel.Proofs.Comparison.Mirroring

/-!
# The order of unfolded objects

Objects can be unfolded to trees, as far down as one likes, and the trees of two
objects can be put in order without any account of pairs that have been met
(`Graph.orderUpTo`). To any depth this is a preorder, across graphs over one
schema that go by one policy: two orders compose (`Composes`), being made of
orders of tags, scalars and lengths, one after the other.

* `Graph.composes_orderUpTo`: the orders of unfolded objects compose.
-/

namespace ObjectModel

/-- The orders of `x` and `y`, of `y` and `z` and of `x` and `z` in a preorder:
    what is equal stands for each other, and what is less than something less is
    less. -/
structure Composes (o₁ o₂ o₃ : Ordering) : Prop where
  left : o₁ = .eq → o₃ = o₂
  right : o₂ = .eq → o₃ = o₁
  less : o₁ = .lt → o₂ = .lt → o₃ = .lt

/-- The first order other than equality. -/
def firstOrder (orders : List Ordering) : Ordering := orders.foldr Ordering.then .eq

/-- The order of lists by length, and then element by element under `f`. -/
def listOrder {α : Type} (f : α × α → Ordering) (l r : List α) : Ordering :=
  (Ord.compare l.length r.length).then (firstOrder ((l.zip r).map f))

/-- The order that a demand comes to: its own, and then those of its pairs
    under `f`. -/
def Demand.orderBy (f : Ref × Ref → Ordering) (d : Demand) : Ordering :=
  d.order.then (firstOrder (d.pairs.map f))

namespace Composes

variable {o₁ o₂ o₃ p₁ p₂ p₃ : Ordering}

theorem eq : Composes .eq .eq .eq := ⟨fun _ => rfl, fun _ => rfl, fun _ h => h⟩

/-- Where orders compare, they compose. -/
theorem compare {α : Type} [Ord α] [Std.TransOrd α] (x y z : α) :
    Composes (Ord.compare x y) (Ord.compare y z) (Ord.compare x z) where
  left h := Std.TransCmp.congr_left h
  right h := (Std.TransCmp.congr_right h).symm
  less := Std.TransCmp.lt_trans

/-- What is at most something that is at most `z` is at most `z`, and less as
    soon as one of the two is. -/
theorem trans (h : Composes o₁ o₂ o₃) (h₁ : o₁ ≠ .gt) (h₂ : o₂ ≠ .gt) :
    o₃ ≠ .gt ∧ (o₁ = .lt ∨ o₂ = .lt → o₃ = .lt) := by
  obtain ⟨hleft, hright, hless⟩ := h
  cases o₁ with
  | eq =>
    obtain rfl := hleft rfl
    exact ⟨h₂, fun h => h.resolve_left nofun⟩
  | lt =>
    obtain rfl : o₃ = .lt := by
      cases o₂ with
      | eq => exact hright rfl
      | lt => exact hless rfl rfl
      | gt => exact absurd rfl h₂
    exact ⟨nofun, fun _ => rfl⟩
  | gt => exact absurd rfl h₁

/-- What follows equality composes. -/
theorem «then» (h : Composes o₁ o₂ o₃) (h' : o₁ = .eq → o₂ = .eq → Composes p₁ p₂ p₃) :
    Composes (o₁.then p₁) (o₂.then p₂) (o₃.then p₃) := by
  obtain ⟨hleft, hright, hless⟩ := h
  -- What comes later counts only where all three are equal so far.
  cases o₁ with
  | eq =>
    obtain rfl := hleft rfl
    cases o₃ with
    | eq => exact h' rfl rfl
    | lt => exact ⟨fun _ => rfl, nofun, fun _ _ => rfl⟩
    | gt => exact ⟨fun _ => rfl, nofun, fun _ => nofun⟩
  | lt =>
    cases o₂ with
    | eq =>
      obtain rfl := hright rfl
      exact ⟨nofun, fun _ => rfl, fun _ _ => rfl⟩
    | lt =>
      obtain rfl := hless rfl rfl
      exact ⟨nofun, nofun, fun _ _ => rfl⟩
    | gt => exact ⟨nofun, nofun, fun _ => nofun⟩
  | gt =>
    cases o₂ with
    | eq =>
      obtain rfl := hright rfl
      exact ⟨nofun, fun _ => rfl, nofun⟩
    | lt => exact ⟨nofun, nofun, nofun⟩
    | gt => exact ⟨nofun, nofun, nofun⟩

/-- The first orders of elements compose, if the orders of each element do. -/
theorem firstOrder_map {α : Type} {l : List α} {f g h : α → Ordering}
    (hcomp : ∀ a ∈ l, Composes (f a) (g a) (h a)) :
    Composes (firstOrder (l.map f)) (firstOrder (l.map g)) (firstOrder (l.map h)) := by
  induction l with
  | nil => exact .eq
  | cons a l ih =>
    rw [List.forall_mem_cons] at hcomp
    exact hcomp.1.then fun _ _ => ih hcomp.2

/-- The first orders of lists of one length compose, if the orders of their
    elements do. -/
theorem firstOrder_zip {α : Type} {l m r : List α} {f g h : α × α → Ordering}
    (hlm : l.length = m.length) (hmr : m.length = r.length)
    (hcomp : ∀ x ∈ l, ∀ y ∈ m, ∀ z ∈ r, Composes (f (x, y)) (g (y, z)) (h (x, z))) :
    Composes (firstOrder ((l.zip m).map f)) (firstOrder ((m.zip r).map g))
      (firstOrder ((l.zip r).map h)) := by
  induction l generalizing m r with
  | nil =>
    obtain rfl := List.length_eq_zero_iff.1 hlm.symm
    obtain rfl := List.length_eq_zero_iff.1 hmr.symm
    exact .eq
  | cons x l ih =>
    obtain ⟨y, m, rfl⟩ := List.exists_cons_of_length_eq_add_one hlm.symm
    obtain ⟨z, r, rfl⟩ := List.exists_cons_of_length_eq_add_one hmr.symm
    have hhead := hcomp x List.mem_cons_self y List.mem_cons_self z List.mem_cons_self
    refine hhead.then fun _ _ => ih (Nat.succ.inj hlm) (Nat.succ.inj hmr) ?_
    exact fun x hx y hy z hz => hcomp x (List.mem_cons_of_mem _ hx) y (List.mem_cons_of_mem _ hy) z
      (List.mem_cons_of_mem _ hz)

theorem listOrder {α : Type} {l m r : List α} {f g h : α × α → Ordering}
    (hcomp : ∀ x ∈ l, ∀ y ∈ m, ∀ z ∈ r, Composes (f (x, y)) (g (y, z)) (h (x, z))) :
    Composes (listOrder f l m) (listOrder g m r) (listOrder h l r) :=
  (Composes.compare _ _ _).then fun hlm hmr =>
    firstOrder_zip (Std.LawfulEqOrd.eq_of_compare hlm) (Std.LawfulEqOrd.eq_of_compare hmr) hcomp

end Composes

/-! ## Values -/

namespace Value

variable {u v w : Value} {f g h : Ref × Ref → Ordering} {m : Member}

/-- Values of one kind are put in order by what is
    scalar in them, and then by their references. -/
theorem orderBy_demand (hkind : v.kind = w.kind) : (v.demand w).orderBy f =
    (v.scalarCompare w).then (listOrder f v.references w.references) := by
  cases v with
  | ref c =>
    cases w with
    | ref d => cases c <;> cases d <;> rfl
    | _ => cases hkind
  | refs c =>
    cases w with
    | refs d => rw [references_refs, references_refs]; rfl
    | _ => cases hkind
  | _ => cases w <;> rfl

/-- The orders of scalars of one kind compose. -/
theorem composes_scalarCompare (huv : u.kind = v.kind) (hvw : v.kind = w.kind) :
    Composes (u.scalarCompare v) (v.scalarCompare w) (u.scalarCompare w) := by
  cases u <;> cases v <;> cases huv <;> cases w <;> cases hvw <;>
    first | exact .compare _ _ _ | exact .eq

/-- What is demanded of values of one kind composes, if it does for what they
    refer to. -/
theorem composes_demand (huv : u.kind = v.kind) (hvw : v.kind = w.kind)
    (hcomp : ∀ x ∈ u.references, ∀ y ∈ v.references, ∀ z ∈ w.references,
      Composes (f (x, y)) (g (y, z)) (h (x, z))) :
    Composes ((m.demand u v).orderBy f) ((m.demand v w).orderBy g) ((m.demand u w).orderBy h) := by
  have hscalar := composes_scalarCompare huv hvw
  unfold Member.demand
  split
  · rw [orderBy_demand huv, orderBy_demand hvw, orderBy_demand (huv.trans hvw)]
    exact hscalar.then fun _ _ => .listOrder hcomp
  · exact hscalar.then fun _ _ => .eq

/-- Where members stand, values that fit them are of one kind. -/
theorem kind_getD {members : List Member} {vs ws : List Value}
    (hv : List.Forall₂ (fun m v => fits m v = true) members vs)
    (hw : List.Forall₂ (fun m w => fits m w = true) members ws) (i : Nat) :
    (vs.getD i Inhabited.default).kind = (ws.getD i Inhabited.default).kind := by
  induction hv generalizing ws i with
  | nil => cases hw; rfl
  | cons hv _ ih =>
    cases hw with
    | cons hw hws =>
      cases i with
      | zero => exact (kind_of_fits hv).trans (kind_of_fits hw).symm
      | succ i => exact ih hws i

end Value

/-! ## Objects -/

namespace Graph

/-- The graph is over the schema `s` and goes by the policy `t`. Its objects
    hold what fits them, and refer to objects. -/
structure Conforms (g : Graph) (s : Schema) (t : PolicyTable) : Prop where
  schema : g.schema = s
  policy : g.model.policy = t
  typed : g.WellTyped
  live : g.Live

/-- The order of two objects that are unfolded to the depth `n`. -/
def orderUpTo (left right : Graph) : Nat → Ref × Ref → Ordering
  | 0, _ => .eq
  | n + 1, q => (Ord.compare q.1.tag q.2.tag).then
    (firstOrder ((demands left right q).map (·.orderBy (orderUpTo left right n))))

variable {g h k : Graph} {s : Schema} {t : PolicyTable} {a b c : Ref}

/-- An object is of an entity of the schema, and holds what fits its members. -/
theorem Conforms.object (hg : g.Conforms s t) (ha : g.contains a = true) :
    ∃ e l o, s.entityAt? a.tag = some e ∧ g.entity a = .ok e ∧ g.layout a = .ok l ∧
      g.object? a = some o ∧ l.members = s.membersBaseFirst e ∧
        List.Forall₂ (fun m v => Value.fits m v = true) (s.membersBaseFirst e) o.values := by
  obtain ⟨o, ho⟩ := contains_iff.1 ha
  obtain ⟨e, l, he, hent, hlayout, hmembers, hfits⟩ := hg.typed.object ho
  rw [hg.schema] at he hmembers
  exact ⟨e, l, o, he, hent, hlayout, ho, hmembers, hmembers ▸ hfits⟩

theorem Conforms.contains_of_getD (hg : g.Conforms s t) {o : Object} (ho : g.object? a = some o)
    {i : Nat} {r : Ref} (hr : r ∈ (o.values.getD i default).references) : g.contains r = true := by
  obtain ⟨v, hv, hr⟩ := exists_mem_references hr
  exact hg.live a o ho v hv r hr

/-- The orders of objects that are unfolded to one depth compose. -/
theorem composes_orderUpTo (hg : g.Conforms s t) (hh : h.Conforms s t) (hk : k.Conforms s t)
    (n : Nat) (ha : g.contains a = true) (hb : h.contains b = true) (hc : k.contains c = true) :
    Composes (orderUpTo g h n (a, b)) (orderUpTo h k n (b, c)) (orderUpTo g k n (a, c)) := by
  induction n generalizing a b c with
  | zero => exact .eq
  | succ n ih =>
    refine (Composes.compare _ _ _).then fun hab hbc => ?_
    obtain ⟨e, l₁, o₁, he, hent₁, hlay₁, ho₁, hmem₁, hfits₁⟩ := hg.object ha
    obtain ⟨e₂, l₂, o₂, he₂, hent₂, hlay₂, ho₂, hmem₂, hfits₂⟩ := hh.object hb
    obtain ⟨e₃, -, o₃, he₃, -, -, ho₃, -, hfits₃⟩ := hk.object hc
    -- The objects are of one tag, and so of one entity.
    rw [← Std.LawfulEqOrd.eq_of_compare hbc, ← Std.LawfulEqOrd.eq_of_compare hab, he] at he₃
    rw [← Std.LawfulEqOrd.eq_of_compare hab, he] at he₂
    obtain rfl := Option.some.inj he₂
    obtain rfl := Option.some.inj he₃
    have hmembers := comparedMembers_congr (hg.schema.trans hh.schema.symm)
      (hg.policy.trans hh.policy.symm) e
    rw [demands_eq hent₁ hlay₁ ho₁ ho₂, demands_eq hent₂ hlay₂ ho₂ ho₃,
      demands_eq hent₁ hlay₁ ho₁ ho₃, ← hmembers, List.map_map, List.map_map, List.map_map]
    refine .firstOrder_map fun m _ => ?_
    simp only [Function.comp_apply, slotDemand, ← Layout.slotOf?_congr (hmem₁.trans hmem₂.symm)]
    split
    · exact Value.composes_demand (Value.kind_getD hfits₁ hfits₂ _)
        (Value.kind_getD hfits₂ hfits₃ _) fun x hx y hy z hz =>
          ih (hg.contains_of_getD ho₁ hx) (hh.contains_of_getD ho₂ hy) (hk.contains_of_getD ho₃ hz)
    · exact .eq

end Graph

end ObjectModel
