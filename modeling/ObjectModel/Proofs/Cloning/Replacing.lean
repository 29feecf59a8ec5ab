import ObjectModel.Proofs.Cloning.Copies
import ObjectModel.Proofs.Graph.Holding

/-!
# What replaces references

Cloning puts other references in the place of those that an object holds: the
clone of another object of the same name, or what is bound to a name. Nobody
asks whether the slot takes them. Which tags can take the place of which is for
the policy to say (`Model.replaces`), and whether that suits the slots
(`Model.Apt`) can be decided.
-/

namespace ObjectModel

/-- The table in which clones are found by name, if they are. -/
def EntityClone.table? : EntityClone → Option BindingKind
  | .dedupByName kind => some kind
  | _ => none

theorem EntityClone.custom?_eq_some {e : EntityClone} {kind : CustomClone} :
    e.custom? = some kind ↔ e = .custom kind := by
  cases e <;> simp [custom?]

namespace Model

variable (m : Model)

/-- The chain of the entity of a tag. -/
def chainAt (tag : Nat) : List Entity := (m.schema.entityAt? tag).elim [] m.schema.chain

/-- How objects of a tag are cloned. -/
def cloneKind (tag : Nat) : EntityClone := m.policy.entityCloneOf (m.chainAt tag)

/-- A clone of the tag `t'` can be taken for an object of the tag `t`, since both
    are found by name in one table. -/
def merges (t t' : Nat) : Bool :=
  (m.cloneKind t).table?.isSome && (m.cloneKind t').table? == (m.cloneKind t).table?

/-- Clones of the tag are bound to their names. -/
def binds (t : Nat) : Bool :=
  (m.cloneKind t).table?.isSome || m.cloneKind t == .custom .taskFunc

/-- A reference of the tag `t'` can take the place of one of the tag `t`, where
    this is how references are cloned. -/
def replacesBy (policy : MemberClone) (t t' : Nat) : Bool :=
  match policy with
  | .deep | .uniquify => m.merges t t'
  | .alias => false
  | .rebind _ _ => m.binds t'

/-- A reference of the tag `t'` can take the place of one of the tag `t`, in the
    member `x` of an object of the tag `k`. -/
def replaces (k : Nat) (x : Member) (t t' : Nat) : Bool :=
  let byPolicy := m.replacesBy (m.policy.memberCloneOf (m.chainAt k) x) t t'
  match m.cloneKind k with
  | .custom .constant => false
  | .custom .call =>
    if m.policy.skipsTraversal (m.chainAt k) x then m.cloneKind t' == .custom .taskFunc
    else byPolicy
  | .custom .hierPath => if x.hasTag .backReference then m.binds t' else byPolicy
  | .custom .contAssign => m.cloneKind t' == .dedupByName .net || m.merges t t'
  | _ => byPolicy

variable {m : Model} {k t t' : Nat} {x : Member}

theorem binds_of_merges (h : m.merges t t' = true) : m.binds t' = true := by
  rw [merges, Bool.and_eq_true, beq_iff_eq] at h
  rw [binds, h.2, h.1]
  rfl

/-- Only what is bound to names takes the place of other objects. -/
theorem binds_of_replaces (h : m.replaces k x t t' = true) : m.binds t' = true := by
  have hpolicy {policy : MemberClone} (h : m.replacesBy policy t t' = true) :
      m.binds t' = true := by
    rcases policy with _ | _ | _ | _
    · exact binds_of_merges h
    · exact absurd h Bool.false_ne_true
    · exact h
    · exact binds_of_merges h
  have htaskFunc (h : (m.cloneKind t' == .custom .taskFunc) = true) : m.binds t' = true := by
    rw [binds, h, Bool.or_true]
  -- What is put for a target was looked up, so it is of a tag that gets bound.
  unfold replaces at h
  split at h
  · exact absurd h Bool.false_ne_true
  · split at h
    · exact htaskFunc h
    · exact hpolicy h
  · split at h
    · exact h
    · exact hpolicy h
  · rcases Bool.or_eq_true_iff.1 h with h | h
    · rw [binds, eq_of_beq h]
      rfl
    · exact binds_of_merges h
  · exact hpolicy h

end Model

namespace Cloning

variable {σ : Type} [Bindings σ] {clone clone' : Ref → Option Ref → Cloning σ Ref} {c : Cloner σ}
  {r : Ref} {p : Option Ref} {Q : Ref → Cloner σ → Prop} {E : Cloner σ → Prop}

/-- How an object is cloned depends on what became of it before, and on its tag. -/
theorem endsAs_cloneWith (hcloned : ∀ s, c.cloned? r = some s → Q s c)
    (hunknown : c.cloned? r = none → ∀ e, c.graph.entity r = .error e → E c)
    (hgeneric : c.cloned? r = none → (c.graph.model.cloneKind r.tag).table? = none →
      c.graph.model.cloneKind r.tag ≠ .custom .constant →
        EndsAs
          (generic clone (c.graph.model.chainAt r.tag) (c.graph.model.cloneKind r.tag).custom? r p)
          (generic clone' (c.graph.model.chainAt r.tag) (c.graph.model.cloneKind r.tag).custom? r p)
          c Q E)
    (hdedup : c.cloned? r = none → ∀ kind, c.graph.model.cloneKind r.tag = .dedupByName kind →
      EndsAs (dedup clone (c.graph.model.chainAt r.tag) kind r p)
        (dedup clone' (c.graph.model.chainAt r.tag) kind r p) c Q E)
    (hshallow : c.cloned? r = none → c.graph.model.cloneKind r.tag = .custom .constant →
      Ends (shallow r p) c Q E) :
    EndsAs (cloneWith clone r p) (cloneWith clone' r p) c Q E := by
  refine .after (t := c) rfl ?_
  cases hnew : c.cloned? r with
  | some s => exact .pure (hcloned s hnew)
  | none =>
    cases he : c.graph.entity r with
    | error e =>
      have hread : (fromGraph (·.entity r) : Cloning σ Entity).run c = (.error e, c) :=
        congrArg (·, c) he
      exact .of_run_error (run_bind_error hread) (run_bind_error hread) (hunknown hnew e he)
    | ok e =>
      have hchain : c.graph.schema.chain e = c.graph.model.chainAt r.tag := by
        rw [Model.chainAt, Model.entity_eq_ok.1 he]
        rfl
      refine .after (run_fromGraph he) (.after (run_fromGraph rfl) (.after (run_fromGraph rfl) ?_))
      have hkind : c.graph.model.policy.entityCloneOf (c.graph.model.chainAt r.tag) =
        c.graph.model.cloneKind r.tag := rfl
      rw [hchain, hkind]
      have hgeneric := hgeneric hnew
      have hdedup := hdedup hnew
      have hshallow := hshallow hnew
      -- A method written by hand goes the generic way, the one for constants apart.
      generalize c.graph.model.cloneKind r.tag = kind at hgeneric hdedup hshallow ⊢
      cases kind with
      | generic => exact hgeneric rfl (by simp)
      | dedupByName kind => exact hdedup kind rfl
      | custom kind =>
        cases kind with
        | constant => exact .refl (hshallow rfl)
        | _ => exact hgeneric rfl (by simp)

/-- An object is either remembered, or cloned in one of three ways that the policy names. -/
theorem ends_cloneWith (hcloned : ∀ s, c.cloned? r = some s → Q s c)
    (hunknown : c.cloned? r = none → E c)
    (hgeneric : c.cloned? r = none → (c.graph.model.cloneKind r.tag).table? = none →
      c.graph.model.cloneKind r.tag ≠ .custom .constant →
        Ends (generic clone (c.graph.model.chainAt r.tag)
          (c.graph.model.cloneKind r.tag).custom? r p) c Q E)
    (hdedup : c.cloned? r = none → ∀ kind, c.graph.model.cloneKind r.tag = .dedupByName kind →
      Ends (dedup clone (c.graph.model.chainAt r.tag) kind r p) c Q E)
    (hshallow : c.cloned? r = none → c.graph.model.cloneKind r.tag = .custom .constant →
      Ends (shallow r p) c Q E) :
    Ends (cloneWith clone r p) c Q E :=
  (endsAs_cloneWith hcloned (fun hnew _ _ => hunknown hnew)
    (fun hnew htable hkind => .refl (hgeneric hnew htable hkind))
    (fun hnew kind hkind => .refl (hdedup hnew kind hkind)) hshallow).2

end Cloning

/-! ## Typings -/

/-- Whatever can take the place of a reference is of the typing too. -/
def Typing.Stable (T : Typing) (m : Model) : Prop :=
  ∀ k l, m.layout k = .ok l → ∀ slot ∈ l, ∀ t ∈ T k slot, ∀ t',
    m.replaces k slot.member t t' = true → t' ∈ T k slot

/-- What slots declare allows for all replacements. -/
def Model.Apt (m : Model) : Prop := Typing.declared.Stable m

/-- The tags that come about when references are replaced again and again. -/
def Typing.replaced (m : Model) : Typing := fun k slot =>
  {t' | ∃ t ∈ declared k slot,
    Relation.ReflTransGen (fun a b => m.replaces k slot.member a b = true) t t'}

namespace Typing

variable {m : Model} {k : Nat} {slot : Slot}

theorem declared_subset_replaced : declared k slot ⊆ replaced m k slot :=
  fun t ht => ⟨t, ht, .refl⟩

/-- Replacing again brings in no more. -/
theorem stable_replaced : (replaced m).Stable m :=
  fun _ _ _ _ _ _ ⟨s, hs, hst⟩ _ h => ⟨s, hs, hst.tail h⟩

end Typing

namespace Model

variable {m : Model}

/-- Only objects of entities are bound. -/
theorem lt_of_binds {t : Nat} (h : m.binds t = true) : t < m.schema.entities.length := by
  by_contra hle
  have hnone : m.schema.entityAt? t = none := List.getElem?_eq_none (Nat.le_of_not_lt hle)
  have hkind : m.cloneKind t = .generic := by rw [cloneKind, chainAt, hnone]; rfl
  rw [binds, hkind] at h
  cases h

/-- It is enough to look at the entities of the schema. -/
theorem apt_iff : m.Apt ↔ ∀ k < m.layouts.length, ∀ slot ∈ m.layouts[k]?.join.getD [],
    ∀ t ∈ slot.targets, ∀ t' < m.schema.entities.length,
      m.replaces k slot.member t t' = true → slot.targets.contains t' = true := by
  constructor
  · intro h k _ slot hslot t ht t' _ hreplaces
    rcases hl : m.layouts[k]? with _ | _ | l
    · rw [hl] at hslot
      cases hslot
    · rw [hl] at hslot
      cases hslot
    · rw [hl] at hslot
      exact h k l (layout_eq_ok.2 hl) slot hslot t (List.contains_iff_mem.2 ht) t' hreplaces
  · intro h k l hl slot hslot t ht t' hreplaces
    have hl := layout_eq_ok.1 hl
    refine h k (List.getElem?_eq_some_iff.1 hl).1 slot ?_ t (List.contains_iff_mem.1 ht) t'
      (lt_of_binds (binds_of_replaces hreplaces)) hreplaces
    rwa [hl]

instance : Decidable m.Apt := decidable_of_iff _ apt_iff.symm

end Model

end ObjectModel
