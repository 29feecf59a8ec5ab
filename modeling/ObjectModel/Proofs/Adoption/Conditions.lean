import ObjectModel.Proofs.Adoption.Failing
import ObjectModel.Proofs.Graph.Design
import ObjectModel.Proofs.Policy.Restricting
import ObjectModel.Proofs.Schema.Chains

/-!
# Conditions of adoption

Under a policy that is not out of date, the buckets of a collector are lists
among its members (`Model.filesInLists_of_check`). That the lists take what is to
be filed in them is not checked. So of two objects one may adopt the other
exactly if its lists take it or have it already (`Graph.Takes`), and if a former
owner exists whose lists can be written without it (`Graph.Yields`). This is
`Graph.exists_attachChild_iff`.
-/

namespace ObjectModel

/-! ## Checked policies -/

namespace PolicyTable

variable {t : PolicyTable} {s : Schema} {collector child bucket : String}

/-- A bucket of a checked table is a list of its collector. -/
theorem bucketOk_of_check (hcheck : t.check s = .ok ())
    (hentry : (child, bucket) ∈ t.bucketsOf collector) : bucketOk s collector bucket = true := by
  obtain ⟨buckets, hbuckets, hb⟩ := mem_bucketsOf.1 hentry
  have hstale := (check_eq_ok.1 hcheck).2.2.2 collector buckets hbuckets
  exact ((staleCollector?_eq_none.1 hstale).2 _ hb).2

/-- What extends a collector has its buckets, as lists of references. -/
theorem exists_bucket {d : Declarations} {naming : Naming} {e level : Entity}
    (hs : d.toSchema naming = .ok s) (hcheck : t.check s = .ok ()) (he : e ∈ s.entities)
    (hlevel : level ∈ s.chain e) (hentry : (child, bucket) ∈ t.bucketsOf level.name) :
    ∃ member ∈ s.membersBaseFirst e, member.name = bucket ∧ member.isReference = true ∧
      member.isMany = true := by
  have hok := bucketOk_of_check hcheck hentry
  rw [bucketOk, Option.any_eq_true] at hok
  obtain ⟨member, hlookup, hlist⟩ := hok
  obtain ⟨hmember, hname⟩ := Declarations.mem_of_lookupMember? hs he hlevel hlookup
  obtain ⟨hreference, hmany⟩ := Bool.and_eq_true_iff.1 hlist
  exact ⟨member, hmember, hname, hreference, hmany⟩

end PolicyTable

/-- The buckets of a checked policy are lists. -/
theorem Model.filesInLists_of_check {d : Declarations} {naming : Naming} {m : Model}
    (hs : d.toSchema naming = .ok m.schema) (hcheck : m.policy.check m.schema = .ok ()) :
    m.FilesInLists := by
  intro e he child bucket hentry
  obtain ⟨level, hlevel, hentry⟩ := List.mem_flatMap.1 hentry
  obtain ⟨member, hmember, hname, -, hmany⟩ :=
    PolicyTable.exists_bucket hs hcheck he (List.mem_reverse.1 hlevel) hentry
  exact ⟨member, hmember, hname, hmany⟩

namespace Graph

variable {g h : Graph} {p c q r : Ref} {o : Object} {l : Layout} {bucket : String}
  {buckets : List String} {items : List Ref}

/-! ## Single lists -/

/-- The list `bucket` of `p` has `c`, or takes objects of its entity. -/
def Takes (g : Graph) (p : Ref) (bucket : String) (c : Ref) : Prop :=
  g.Holds p bucket c ∨ ∃ l, g.layout p = .ok l ∧ l.Lists bucket c.tag

/-- If the list `bucket` of `p` has `c`, all others in it are objects that the
    list takes. -/
def Yields (g : Graph) (p : Ref) (bucket : String) (c : Ref) : Prop :=
  ∀ items, g.elements p bucket = .ok items → c ∈ items → ∀ s ∈ items, s ≠ c →
    g.contains s = true ∧ ∃ l, g.layout p = .ok l ∧ l.Lists bucket s.tag

/-- The slot that is found under a name tells whether it is a list that takes a tag. -/
theorem lists_iff {i : Nat} {slot : Slot} {tag : Nat} (hi : l.slotOf? bucket = some i)
    (hslot : l[i]? = some slot) : l.Lists bucket tag ↔
      slot.member.isMany = true ∧ slot.targets.contains tag = true := by
  constructor
  · rintro ⟨j, slot', hj, hslot', hlists⟩
    obtain rfl := Option.some.inj (hi.symm.trans hj)
    obtain rfl := Option.some.inj (hslot.symm.trans hslot')
    exact hlists
  · exact fun hlists => ⟨i, slot, hi, hslot, hlists⟩

/-- A child can be put into a list if there is one
    that takes it, and if there is such a child. -/
theorem exists_push (helements : g.elements p bucket = .ok items) :
    (∃ h, g.push p bucket c = .ok h) ↔
      g.contains c = true ∧ ∃ l, g.layout p = .ok l ∧ l.Lists bucket c.tag := by
  obtain ⟨list, hget, rfl⟩ := elements_eq_ok.1 helements
  obtain ⟨o, l, i, slot, ho, hl, hi, hslot, hv⟩ := exists_slot_of_get hget
  simp only [push_eq_ok ho hl hi hslot hv, hl, Except.ok.injEq, exists_eq_left',
    lists_iff hi hslot, exists_eq_right']
  tauto

/-- Whether a list bars an object is told by what it holds and takes. -/
theorem bars_iff : g.Bars p bucket c ↔ ¬ ∃ items, g.elements p bucket = .ok items ∧
    (c ∈ items ∨ g.contains c = true ∧ ∃ l, g.layout p = .ok l ∧ l.Lists bucket c.tag) := by
  rw [Bars, Holds]
  rcases helements : g.elements p bucket with e | items
  · simp
  · rw [← exists_push helements]
    rcases g.push p bucket c with e | h <;> simp

theorem exists_set (ho : g.object? p = some o) (hl : g.layout p = .ok l) {v : Value} {i : Nat}
    {slot : Slot} (hi : l.slotOf? bucket = some i) (hslot : l[i]? = some slot) :
    (∃ h, g.set p bucket v = .ok h) ↔ slot.Accepts g v := by
  simp only [set_eq_ok ho hl hi hslot, exists_eq_right']

/-- Whether a list binds an object is told by what it holds and takes. -/
theorem binds_iff : g.Binds p bucket c ↔
    ∃ items, g.get p bucket = .ok (.refs (some items)) ∧ c ∈ items ∧
      ∃ l i slot, g.layout p = .ok l ∧ l.slotOf? bucket = some i ∧ l[i]? = some slot ∧
        ¬ slot.Accepts g (.refs (some (items.filter (· != c)))) := by
  refine exists_congr fun items => and_congr_right fun hget => and_congr_right fun _ => ?_
  obtain ⟨o, l, i, slot, ho, hl, hi, hslot, -⟩ := exists_slot_of_get hget
  have hset := exists_set ho hl (v := .refs (some (items.filter (· != c)))) hi hslot
  constructor
  · rintro ⟨e, he⟩
    refine ⟨l, i, slot, hl, hi, hslot, fun haccepts => ?_⟩
    obtain ⟨h, hh⟩ := hset.2 haccepts
    cases he.symm.trans hh
  · rintro ⟨l', j, slot', hl', hj, hslot', hnot⟩
    obtain rfl := Except.ok.inj (hl.symm.trans hl')
    obtain rfl := Option.some.inj (hi.symm.trans hj)
    obtain rfl := Option.some.inj (hslot.symm.trans hslot')
    rcases hresult : g.set p bucket (.refs (some (items.filter (· != c)))) with e | h
    · exact ⟨e, rfl⟩
    · exact absurd (hset.1 ⟨h, hresult⟩) hnot

section

variable (hmodel : h.model = g.model) (hcontains : ∀ s, h.contains s = g.contains s)
  (hget : h.get p bucket = g.get p bucket)

include hmodel hcontains hget

theorem bars_congr : h.Bars p bucket c ↔ g.Bars p bucket c := by
  rw [bars_iff, bars_iff, elements_congr_get hmodel hget, hcontains, layout, layout, hmodel]

theorem binds_congr : h.Binds p bucket c ↔ g.Binds p bucket c := by
  rw [binds_iff, binds_iff, hget, layout, layout, hmodel]
  simp only [Slot.Accepts, hcontains]

end

section

variable (hg : g.WellTyped) (ho : g.object? p = some o) (hl : g.layout p = .ok l)

include hg ho hl

/-- There is a list where there is to be one. -/
theorem WellTyped.exists_elements {tag : Nat} (hlists : l.Lists bucket tag) :
    ∃ items, g.elements p bucket = .ok items := by
  obtain ⟨i, slot, hi, hslot, hmany, -⟩ := hlists
  obtain ⟨items, hitems⟩ := hg.exists_items ho hl hslot hmany
  exact ⟨_, elements_eq ho hl hi hitems⟩

/-- In a well-typed graph, a list bars the children that it neither has nor takes. -/
theorem WellTyped.bars_iff (hc : g.contains c = true) :
    g.Bars p bucket c ↔ ¬ g.Takes p bucket c := by
  rw [Graph.bars_iff, not_iff_not, Takes, Holds]
  constructor
  · rintro ⟨items, helements, hmem | ⟨-, hlists⟩⟩
    · exact .inl ⟨items, helements, hmem⟩
    · exact .inr hlists
  · rintro (⟨items, helements, hmem⟩ | ⟨l', hl', hlists⟩)
    · exact ⟨items, helements, .inl hmem⟩
    · obtain rfl := Except.ok.inj (hl.symm.trans hl')
      obtain ⟨items, helements⟩ := hg.exists_elements ho hl hlists
      exact ⟨items, helements, .inr ⟨hc, l, hl, hlists⟩⟩

/-- In a well-typed graph, a list binds a child that
    it has among others which it does not take. -/
theorem WellTyped.binds_iff : g.Binds p bucket c ↔ ¬ g.Yields p bucket c := by
  by_cases hholds : g.Holds p bucket c
  · obtain ⟨items, hget, hmem⟩ := holds_iff_get.1 hholds
    have helements : g.elements p bucket = .ok items := elements_eq_ok.2 ⟨_, hget, rfl⟩
    obtain ⟨o', l', i, slot, ho', hl', hi, hslot, hv⟩ := exists_slot_of_get hget
    obtain rfl := Option.some.inj (ho.symm.trans ho')
    obtain rfl := Except.ok.inj (hl.symm.trans hl')
    obtain ⟨v, hv', hfits⟩ := hg.exists_value ho hl hslot
    obtain rfl := Option.some.inj (hv.symm.trans hv')
    have hmany : slot.member.isMany = true :=
      Member.isMany_iff.2 (Value.kind_of_fits hfits).symm
    -- Both speak of what is left in the list.
    have haccepts : slot.Accepts g (.refs (some (items.filter (· != c)))) ↔
        g.Yields p bucket c := by
      constructor
      · intro haccepts items' helements' _ s hs hne
        obtain rfl := Except.ok.inj (helements.symm.trans helements')
        have hs' : s ∈ items.filter (· != c) := List.mem_filter.2 ⟨hs, bne_iff_ne.2 hne⟩
        obtain ⟨hlive, htarget⟩ := haccepts.2 s hs'
        exact ⟨hlive, l, hl, (lists_iff hi hslot).2 ⟨hmany, htarget⟩⟩
      · intro hyields
        refine ⟨Value.fits_refs hfits, fun s hs => ?_⟩
        obtain ⟨hs, hne⟩ := List.mem_filter.1 hs
        obtain ⟨hlive, l', hl', hlists⟩ := hyields items helements hmem s hs (bne_iff_ne.1 hne)
        obtain rfl := Except.ok.inj (hl.symm.trans hl')
        exact ⟨hlive, ((lists_iff hi hslot).1 hlists).2⟩
    rw [Graph.binds_iff, ← haccepts]
    constructor
    · rintro ⟨items', hget', -, l', j, slot', hl', hj, hslot', hnot⟩
      obtain rfl := Except.ok.inj (hl.symm.trans hl')
      obtain rfl : items = items' := by simpa using hget.symm.trans hget'
      obtain rfl := Option.some.inj (hi.symm.trans hj)
      obtain rfl := Option.some.inj (hslot.symm.trans hslot')
      exact hnot
    · exact fun hnot => ⟨items, hget, hmem, l, i, slot, hl, hi, hslot, hnot⟩
  · refine iff_of_false ?_ (not_not.2 fun items helements hmem => ?_)
    · rintro ⟨items, hget, hmem, -⟩
      exact hholds (holds_iff_get.2 ⟨items, hget, hmem⟩)
    · exact absurd ⟨items, helements, hmem⟩ hholds

end

/-! ## Several lists -/

theorem nodup_eraseDups {α : Type} [DecidableEq α] : ∀ l : List α, l.eraseDups.Nodup
  | [] => .nil
  | a :: l => by
    rw [List.eraseDups_cons, List.nodup_cons, List.mem_eraseDups]
    exact ⟨fun ha => by simp at ha, nodup_eraseDups _⟩
termination_by l => l.length
decreasing_by exact Nat.lt_succ_of_le (List.length_filter_le _ _)

/-- No list is filed in twice. -/
theorem nodup_of_bucketsFor (hbuckets : g.bucketsFor p c = .ok buckets) : buckets.Nodup := by
  obtain ⟨e, -, hbuckets⟩ := bind_eq_ok.1 hbuckets
  dsimp only at hbuckets
  split at hbuckets
  · obtain rfl := pure_eq_ok.1 hbuckets
    exact .nil
  · obtain ⟨members, -, hbuckets⟩ := bind_eq_ok.1 hbuckets
    obtain rfl := pure_eq_ok.1 hbuckets
    exact nodup_eraseDups _

/-! Filing in one list, or taking out of it, does not bear on others. -/

/-- Filing fails only where the list bars the child. -/
theorem exists_run_file : (∃ h, (file p c bucket).run g = (.ok (), h)) ↔ ¬ g.Bars p bucket c := by
  rw [exists_run_ok_iff, run_file_eq, Bars, Holds]
  rcases helements : g.elements p bucket with e | items
  · simp
  · by_cases hmem : c ∈ items
    · simp [hmem]
    · rcases hpush : g.push p bucket c with e | h <;> simp [hmem]

/-- Taking out fails where the list binds the child, or if there is none. -/
theorem exists_run_unfile : (∃ h, (unfile p c bucket).run g = (.ok (), h)) ↔
    (∃ v, g.get p bucket = .ok v) ∧ ¬ g.Binds p bucket c := by
  rw [exists_run_ok_iff, run_unfile_eq, Binds]
  cases g.get p bucket with
  | error e => simp
  | ok v =>
    cases v with
    | refs items =>
      cases items with
      | none => simp
      | some items =>
        by_cases hmem : c ∈ items
        · rcases hset : g.set p bucket (.refs (some (items.filter (· != c)))) with e | h <;>
            simp [hmem, hset]
        · simp [hmem]
    | _ => simp

section

variable {name : String} {result : Except GraphError Unit}

theorem spares_of_run_file (hrun : (file p c bucket).run g = (result, h)) : g.Spares {p} h := by
  obtain rfl : ((file p c bucket).run g).2 = h := congrArg Prod.snd hrun
  exact (follows_file g).spares

theorem spares_of_run_unfile (hrun : (unfile p c bucket).run g = (result, h)) :
    g.Spares {p} h := by
  obtain rfl : ((unfile p c bucket).run g).2 = h := congrArg Prod.snd hrun
  exact (follows_unfile g).spares.symm

variable (hne : name ≠ bucket)

include hne

/-- Filing in one list leaves the others, even if it fails. -/
theorem get_of_run_file (hrun : (file p c bucket).run g = (result, h)) :
    h.get p name = g.get p name := by
  rw [run_file_eq] at hrun
  split at hrun
  · obtain ⟨-, rfl⟩ := Prod.mk.inj hrun
    rfl
  · rename_i items helements
    split at hrun
    · obtain ⟨-, rfl⟩ := Prod.mk.inj hrun
      rfl
    · split at hrun
      · rename_i h' hpush
        obtain ⟨-, rfl⟩ := Prod.mk.inj hrun
        -- Only the push writes, and it writes into the slot of the bucket.
        obtain ⟨list, hget, rfl⟩ := elements_eq_ok.1 helements
        obtain ⟨o, l, i, slot, ho, hl, hi, hslot, hv⟩ := exists_slot_of_get hget
        obtain ⟨-, rfl⟩ := (push_eq_ok ho hl hi hslot hv).1 hpush
        exact get_modify_of_ne ho hl hi hne
      · obtain ⟨-, rfl⟩ := Prod.mk.inj hrun
        rfl

/-- Taking out of one list leaves the others, even if it fails. -/
theorem get_of_run_unfile (hrun : (unfile p c bucket).run g = (result, h)) :
    h.get p name = g.get p name := by
  rw [run_unfile_eq] at hrun
  split at hrun
  · obtain ⟨-, rfl⟩ := Prod.mk.inj hrun
    rfl
  · split at hrun
    · split at hrun
      · rename_i h' hset
        obtain ⟨-, rfl⟩ := Prod.mk.inj hrun
        exact (writes_of_set hset).get_of_ne hne
      · obtain ⟨-, rfl⟩ := Prod.mk.inj hrun
        rfl
    · obtain ⟨-, rfl⟩ := Prod.mk.inj hrun
      rfl
  · obtain ⟨-, rfl⟩ := Prod.mk.inj hrun
    rfl

end

/-- All lists are filed in if none of them bars the
    child, as they do not bear on each other. -/
theorem exists_run_forM_file (hbuckets : buckets.Nodup) :
    (∃ h, (buckets.forM (file p c)).run g = (.ok (), h)) ↔
      ∀ bucket ∈ buckets, ¬ g.Bars p bucket c := by
  refine exists_run_forM_ok (P := fun bucket (g : Graph) => ¬ g.Bars p bucket c) hbuckets
    (fun _ _ => exists_run_file) fun a b g h hne hrun => not_congr ?_
  have hspares := spares_of_run_file hrun
  exact bars_congr hspares.model hspares.contains (get_of_run_file hne hrun)

theorem exists_run_forM_unfile (hbuckets : buckets.Nodup)
    (hget : ∀ bucket ∈ buckets, ∃ v, g.get p bucket = .ok v) :
    (∃ h, (buckets.forM (unfile p c)).run g = (.ok (), h)) ↔
      ∀ bucket ∈ buckets, ¬ g.Binds p bucket c := by
  have hloop : (∃ h, (buckets.forM (unfile p c)).run g = (.ok (), h)) ↔
      ∀ bucket ∈ buckets, (∃ v, g.get p bucket = .ok v) ∧ ¬ g.Binds p bucket c := by
    refine exists_run_forM_ok
      (P := fun bucket (g : Graph) => (∃ v, g.get p bucket = .ok v) ∧ ¬ g.Binds p bucket c)
      hbuckets (fun _ _ => exists_run_unfile) fun a b g h hne hrun => ?_
    have hspares := spares_of_run_unfile hrun
    have hsame := get_of_run_unfile hne hrun
    rw [hsame, binds_congr hspares.model hspares.contains hsame]
  rw [hloop]
  exact forall₂_congr fun bucket hmem => and_iff_right (hget bucket hmem)

/-! ## Releasing and adopting -/

/-- What it comes to that a child is released. -/
theorem exists_of_run_detachChild {adopted : Bool}
    (hrun : (detachChild p c).run g = (.ok adopted, h)) : ∃ buckets k,
      g.contains c = true ∧ g.contains p = true ∧ g.bucketsFor p c = .ok buckets ∧
        (buckets.forM (unfile p c)).run (g.mapHeader p (·.releasing c)) = (.ok (), k) ∧
          k.mapHeader c (·.leaving p) = h := by
  have hnot : ¬ g.RefusesToRelease p c := by
    intro hrefuses
    obtain ⟨e, he⟩ := exists_detachChild_error.2 hrefuses
    cases congrArg Prod.fst (hrun.symm.trans he)
  have hc : g.contains c = true := by
    by_contra hc
    exact hnot (.missing (by simpa using hc))
  have hp : g.contains p = true := by
    by_contra hp
    exact hnot (.gone (by simpa using hp))
  rcases hbuckets : g.bucketsFor p c with e | buckets
  · exact absurd (.unknown hbuckets) hnot
  rw [run_detachChild hc hp hbuckets] at hrun
  rcases hloop : (buckets.forM (unfile p c)).run (g.mapHeader p (·.releasing c)) with ⟨e | _, k⟩
  · rw [run_bind_error hloop] at hrun
    cases congrArg Prod.fst hrun
  · have hc' : k.contains c = true :=
      ((fills_of_run_unfile hloop).spares.contains c).symm.trans (contains_mapHeader.trans hc)
    rw [run_bind_ok hloop, run_bind_ok (run_apply (updateHeader_eq hc'))] at hrun
    exact ⟨buckets, k, hc, hp, rfl, hloop, congrArg Prod.snd hrun⟩

/-- A parent releases a child if its lists do. -/
theorem exists_run_detachChild (hc : g.contains c = true) (hp : g.contains p = true)
    (hbuckets : g.bucketsFor p c = .ok buckets) :
    (∃ adopted h, (detachChild p c).run g = (.ok adopted, h)) ↔
      ∀ bucket ∈ buckets, ¬ g.Binds p bucket c := by
  have hget : ∀ bucket ∈ buckets, ∃ v, (g.mapHeader p (·.releasing c)).get p bucket = .ok v := by
    intro bucket hmem
    rw [get_mapHeader]
    exact exists_get_of_mem_bucketsFor hp hbuckets hmem
  -- What the parent's header says has no bearing on its lists.
  have hbinds (bucket : String) :
      (g.mapHeader p (·.releasing c)).Binds p bucket c ↔ g.Binds p bucket c :=
    binds_congr rfl (fun _ => contains_mapHeader) get_mapHeader
  have hloop := exists_run_forM_unfile (c := c) (nodup_of_bucketsFor hbuckets) hget
  simp only [hbinds] at hloop
  rw [← hloop]
  constructor
  · rintro ⟨adopted, h, hrun⟩
    obtain ⟨buckets', k, -, -, hbuckets', hk, -⟩ := exists_of_run_detachChild hrun
    obtain rfl := Except.ok.inj (hbuckets.symm.trans hbuckets')
    exact ⟨k, hk⟩
  · rintro ⟨k, hk⟩
    have hc' : k.contains c = true :=
      ((fills_of_run_unfile hk).spares.contains c).symm.trans (contains_mapHeader.trans hc)
    exact ⟨_, _, (run_detachChild hc hp hbuckets).trans
      ((run_bind_ok hk).trans (run_bind_ok (run_apply (updateHeader_eq hc'))))⟩

/-- Only the parent and the child change when a child is released, and of the
    child only the header. -/
theorem get_of_run_detachChild {adopted : Bool} (hne : r ≠ p)
    (hrun : (detachChild p c).run g = (.ok adopted, h)) : h.get r bucket = g.get r bucket := by
  obtain ⟨buckets, k, -, -, -, hk, rfl⟩ := exists_of_run_detachChild hrun
  have hspares := (fills_of_run_unfile hk).spares.symm
  rw [get_mapHeader, get_congr hspares.model (by rw [hspares.others r hne]), get_mapHeader]

/-- What follows on a release succeeds if all lists can be filed in. -/
theorem exists_run_settle (hc : g.contains c = true) (hp : g.contains p = true)
    (hbuckets : buckets.Nodup) : (∃ h, (settle p c buckets).run g = (.ok (), h)) ↔
      ∀ bucket ∈ buckets, ¬ g.Bars p bucket c := by
  rw [run_settle hc hp, exists_run_forM_file hbuckets]
  refine forall₂_congr fun bucket _ => not_congr ?_
  refine bars_congr rfl (fun s => contains_mapHeader.trans contains_mapHeader) ?_
  rw [get_mapHeader, get_mapHeader]

/-- A child is adopted if its former owner releases it and no list bars it. -/
theorem exists_run_attachChild (hc : g.contains c = true) (hp : g.contains p = true)
    (hbuckets : g.bucketsFor p c = .ok buckets) :
    (∃ h, (attachChild p c).run g = (.ok (), h)) ↔
      (∀ q, g.parent? c = some q → q ≠ p →
        ∃ adopted h, (detachChild q c).run g = (.ok adopted, h)) ∧
      ∀ bucket ∈ buckets, ¬ g.Bars p bucket c := by
  have hnodup := nodup_of_bucketsFor hbuckets
  by_cases howned : ∃ q, g.parent? c = some q ∧ q ≠ p
  · obtain ⟨q, hparent, hne⟩ := howned
    -- Being released changes neither what is in the graph nor the lists of the new parent.
    have hsettle {adopted : Bool} {k : Graph}
        (hdetach : (detachChild q c).run g = (.ok adopted, k)) :
        (∃ h, (settle p c buckets).run k = (.ok (), h)) ↔
          ∀ bucket ∈ buckets, ¬ g.Bars p bucket c := by
      have hspares := spares_detachChild (p := q) (c := c) g
      rw [hdetach] at hspares
      rw [exists_run_settle ((hspares.contains c).trans hc) ((hspares.contains p).trans hp) hnodup]
      refine forall₂_congr fun bucket _ => not_congr ?_
      exact bars_congr hspares.model hspares.contains (get_of_run_detachChild hne.symm hdetach)
    rw [run_attachChild_of_owned hc hbuckets hparent hne]
    constructor
    · rintro ⟨h, hrun⟩
      rcases hdetach : (detachChild q c).run g with ⟨e | adopted, k⟩
      · rw [run_bind_error hdetach] at hrun
        cases congrArg Prod.fst hrun
      · rw [run_bind_ok hdetach] at hrun
        refine ⟨fun q' hparent' _ => ?_, (hsettle hdetach).1 ⟨h, hrun⟩⟩
        obtain rfl := Option.some.inj (hparent.symm.trans hparent')
        exact ⟨adopted, k, hdetach⟩
    · rintro ⟨hreleases, hlists⟩
      obtain ⟨adopted, k, hdetach⟩ := hreleases q hparent hne
      obtain ⟨h, hrun⟩ := (hsettle hdetach).2 hlists
      exact ⟨h, (run_bind_ok hdetach).trans hrun⟩
  · have hfree (q : Ref) (hq : g.parent? c = some q) : q = p :=
      by_contra fun hne => howned ⟨q, hq, hne⟩
    rw [run_attachChild_of_free hc hbuckets hfree, exists_run_settle hc hp hnodup]
    exact (and_iff_right fun q hq hne => absurd (hfree q hq) hne).symm

/-- Objects like `p` file objects like `c` in the list `bucket`. -/
def Files (g : Graph) (p c : Ref) (bucket : String) : Prop :=
  ∃ e, g.schema.entityAt? p.tag = some e ∧ g.model.files e bucket c.tag = true

section

variable {d : Declarations} {naming : Naming} (hs : d.toSchema naming = .ok g.schema)
  (hcheck : g.model.policy.check g.schema = .ok ()) (hg : g.WellTyped)

include hs hcheck hg

/-- The lists that a child is to be filed in are those that the policy says. -/
theorem WellTyped.exists_bucketsFor (hp : g.contains p = true) (c : Ref) : ∃ o l buckets,
    g.object? p = some o ∧ g.layout p = .ok l ∧ g.bucketsFor p c = .ok buckets ∧
      ∀ bucket, bucket ∈ buckets ↔ g.Files p c bucket := by
  obtain ⟨o, ho⟩ := contains_iff.1 hp
  obtain ⟨e, l, he, -, hl, -, -⟩ := hg.object ho
  obtain ⟨buckets, hbuckets, hmem⟩ :=
    (Model.filesInLists_of_check hs hcheck).bucketsFor hg.built he hl (c := c) rfl rfl
  refine ⟨o, l, buckets, ho, hl, hbuckets, fun bucket => (hmem bucket).trans ?_⟩
  rw [Files, he]
  simp only [Option.some.injEq, exists_eq_left']

/-- In a well-typed graph over a declared schema, whose policy is not out of
    date, an object is adopted by another exactly if a former owner exists whose
    lists yield it, and all lists in which it is to be filed take it. -/
theorem exists_attachChild_iff (hp : g.contains p = true) (hc : g.contains c = true) :
    (∃ h, (attachChild p c).run g = (.ok (), h)) ↔
      (∀ q, g.parent? c = some q → q ≠ p →
        g.contains q = true ∧ ∀ bucket, g.Files q c bucket → g.Yields q bucket c) ∧
      ∀ bucket, g.Files p c bucket → g.Takes p bucket c := by
  obtain ⟨o, l, buckets, ho, hl, hbuckets, hmem⟩ := hg.exists_bucketsFor hs hcheck hp c
  rw [exists_run_attachChild hc hp hbuckets]
  refine and_congr (forall_congr' fun q => forall₂_congr fun _ _ => ?_) ?_
  · -- A former owner that there is not releases nothing.
    rcases hq : g.contains q with _ | _
    · refine iff_of_false ?_ fun h => Bool.false_ne_true h.1
      rintro ⟨adopted, h, hrun⟩
      obtain ⟨-, -, -, hq', -⟩ := exists_of_run_detachChild hrun
      exact Bool.false_ne_true (hq.symm.trans hq')
    · obtain ⟨o', l', buckets', ho', hl', hbuckets', hmem'⟩ := hg.exists_bucketsFor hs hcheck hq c
      rw [exists_run_detachChild hc hq hbuckets', and_iff_right rfl]
      refine forall_congr' fun bucket => ?_
      rw [hmem', hg.binds_iff ho' hl', not_not]
  · refine forall_congr' fun bucket => ?_
    rw [hmem, hg.bars_iff ho hl hc, not_not]

end

/-- Two cells, under a policy by which cells file cells among their wires. -/
theorem exists_attachChild_iff_cells :
    let g := Design.graph (PolicyTable.empty.addAll [.collector "cell" "cell" "wires"]) [] [{}, {}]
    (∃ h, (attachChild (Design.cell 0) (Design.cell 1)).run g = (.ok (), h)) ↔
      (∀ q, g.parent? (Design.cell 1) = some q → q ≠ Design.cell 0 → g.contains q = true ∧
        ∀ bucket, g.Files q (Design.cell 1) bucket → g.Yields q bucket (Design.cell 1)) ∧
      ∀ bucket, g.Files (Design.cell 0) (Design.cell 1) bucket →
        g.Takes (Design.cell 0) bucket (Design.cell 1) := by
  have hsound : (Design.graph (PolicyTable.empty.addAll [.collector "cell" "cell" "wires"]) []
    [{}, {}]).Sound := Design.sound _ (by simp) (by simp)
  exact exists_attachChild_iff Design.toSchema_declarations (by decide +kernel) hsound.wellTyped
    (by decide +kernel) (by decide +kernel)

/-- That the policy is not out of date does not make adoption succeed: wires do
    not take the cells that are to be filed among them. -/
theorem attachChild_not_total :
    ¬ ∀ (d : Declarations) (naming : Naming) (g : Graph) (p c : Ref),
      d.toSchema naming = .ok g.schema → g.model.policy.check g.schema = .ok () → g.Sound →
        g.contains p = true → g.contains c = true → ∃ h, (attachChild p c).run g = (.ok (), h) := by
  intro htotal
  let policy := PolicyTable.empty.addAll [.collector "cell" "cell" "wires"]
  have hsound : (Design.graph policy [] [{}, {}]).Sound := Design.sound _ (by simp) (by simp)
  obtain ⟨h, hrun⟩ := htotal Design.declarations .hardware _ (Design.cell 0) (Design.cell 1)
    Design.toSchema_declarations (by decide +kernel) hsound (by decide +kernel) (by decide +kernel)
  have herror : ((attachChild (Design.cell 0) (Design.cell 1)).run
      (Design.graph policy [] [{}, {}])).1 =
        .error (.typeMismatch "cell" "wires" (.target "cell")) := by decide +kernel
  rw [hrun] at herror
  cases herror

end Graph

end ObjectModel
