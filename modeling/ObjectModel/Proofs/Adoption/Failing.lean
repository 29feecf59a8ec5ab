import ObjectModel.Proofs.Adoption.Lists
import ObjectModel.Proofs.Adoption.Runs

/-!
# Adoption that fails

An adoption is made of several steps, each of which may fail, and what was done
before stays done. `Graph.RefusesToAdopt` says when nothing was done before: this
is so exactly for the adoptions that fail at once
(`Graph.exists_attachChild_error`). All others that fail leave another graph
behind (`Graph.attachChild_eq_self_iff`), though objects that do not take part
stay as they are.

That a graph is another one shows in what no later step takes back: in the owner
of the child, in the children of the new owner, and in its lists, which only get
longer.
-/

namespace ObjectModel.Graph

variable {g h : Graph} {p c r : Ref} {buckets : List String}

/-! ## Releasing -/

/-- To release `c` from `p` fails before anything is changed. -/
inductive RefusesToRelease (g : Graph) (p c : Ref) : Prop
  /-- There is no such child. -/
  | missing (hc : g.contains c = false)
  /-- The parent is of no known entity. -/
  | unknown {e : GraphError} (hbuckets : g.bucketsFor p c = .error e)
  /-- There is no such parent. -/
  | gone (hp : g.contains p = false)
  /-- The parent only lists the child, and cannot take it out. -/
  | bound {buckets : List String} (hbuckets : g.bucketsFor p c = .ok buckets)
      (hchild : c ∉ g.childrenOf p) (hlists : g.FirstBinds p c buckets)

/-- To release what is no child changes no header. -/
theorem mapHeader_releasing_eq_self (hchild : c ∉ g.childrenOf p) :
    g.mapHeader p (·.releasing c) = g := by
  refine modify_eq_self fun o ho => ?_
  rw [childrenOf_eq ho] at hchild
  have hfilter : o.header.children.filter (· != c) = o.header.children :=
    List.filter_eq_self.2 fun d hd => bne_iff_ne.2 fun hdc => hchild (hdc ▸ hd)
  simp only [Header.releasing, hfilter]

/-- The steps by which a child is released, from where lists are changed on. -/
theorem run_detachChild (hc : g.contains c = true) (hp : g.contains p = true)
    (hbuckets : g.bucketsFor p c = .ok buckets) : (detachChild p c).run g = (do
      buckets.forM (unfile p c)
      Update.apply (·.updateHeader c (·.leaving p))
      return (g.childrenOf p).contains c : Update Bool).run (g.mapHeader p (·.releasing c)) := by
  obtain ⟨o, ho⟩ := contains_iff.1 hp
  obtain ⟨o', ho'⟩ := contains_iff.1 hc
  refine (run_bind_ok (run_read (header_eq ho'))).trans ?_
  refine (run_bind_ok (run_read hbuckets)).trans ?_
  refine (run_bind_ok (run_read (header_eq ho))).trans ?_
  refine (run_bind_ok (run_apply (updateHeader_eq hp))).trans ?_
  rw [childrenOf_eq ho]
  rfl

/-- Exactly these fail and leave the graph as it is. -/
theorem exists_detachChild_error :
    (∃ e, (detachChild p c).run g = (.error e, g)) ↔ g.RefusesToRelease p c := by
  constructor
  · rintro ⟨e, hrun⟩
    rcases hc : g.contains c with _ | _
    · exact .missing hc
    rcases hbuckets : g.bucketsFor p c with e' | buckets
    · exact .unknown hbuckets
    rcases hp : g.contains p with _ | _
    · exact .gone hp
    rw [run_detachChild hc hp hbuckets] at hrun
    rcases hloop : (buckets.forM (unfile p c)).run (g.mapHeader p (·.releasing c)) with
      ⟨e' | _, k⟩
    · rw [run_bind_error hloop] at hrun
      obtain ⟨-, rfl⟩ := Prod.mk.inj hrun
      -- The children are as before, so `c` was none of them.
      have hchildren := (fills_of_run_unfile hloop).children p
      rw [childrenOf_releasing hp, if_pos rfl] at hchildren
      have hchild : c ∉ k.childrenOf p := by
        intro hmem
        rw [← hchildren] at hmem
        simpa using (List.mem_filter.1 hmem).2
      rw [mapHeader_releasing_eq_self hchild] at hloop
      exact .bound hbuckets hchild ((exists_forM_unfile_error hp hbuckets).1 ⟨e', hloop⟩)
    · -- What is left to do does not fail.
      have hc' : k.contains c = true :=
        ((fills_of_run_unfile hloop).spares.contains c).symm.trans (contains_mapHeader.trans hc)
      rw [run_bind_ok hloop, run_bind_ok (run_apply (updateHeader_eq hc'))] at hrun
      cases congrArg Prod.fst hrun
  · intro hrefuses
    rcases hc : g.contains c with _ | _
    · exact ⟨_, run_bind_error (run_read_error (header_eq_error hc))⟩
    obtain ⟨o, ho⟩ := contains_iff.1 hc
    rcases hbuckets : g.bucketsFor p c with e | buckets
    · refine ⟨e, (run_bind_ok (run_read (header_eq ho))).trans ?_⟩
      exact run_bind_error (run_read_error hbuckets)
    rcases hp : g.contains p with _ | _
    · refine ⟨.danglingReference p, (run_bind_ok (run_read (header_eq ho))).trans ?_⟩
      refine (run_bind_ok (run_read hbuckets)).trans ?_
      exact run_bind_error (run_read_error (header_eq_error hp))
    rcases hrefuses with hc' | hbuckets' | hp' | ⟨hbuckets', hchild, hlists⟩
    · exact absurd hc (by simp [hc'])
    · exact absurd hbuckets (by simp [hbuckets'])
    · exact absurd hp (by simp [hp'])
    · obtain rfl := Except.ok.inj (hbuckets.symm.trans hbuckets')
      obtain ⟨e, hloop⟩ := (exists_forM_unfile_error hp hbuckets).2 hlists
      refine ⟨e, (run_detachChild hc hp hbuckets).trans ?_⟩
      rw [mapHeader_releasing_eq_self hchild]
      exact run_bind_error hloop

/-- A release changes two objects at most, whether it fails or not. -/
theorem spares_detachChild : Follows (Spares · {p, c} ·) (detachChild p c) := by
  have htrans (g h k : Graph) : g.Spares {p, c} h → h.Spares {p, c} k → g.Spares {p, c} k := .trans
  refine spares_read.bind htrans fun _ => spares_read.bind htrans fun buckets =>
    spares_read.bind htrans fun _ => ?_
  refine (spares_updateHeader (.inl rfl)).bind htrans fun _ => ?_
  refine Follows.bind htrans (fun g => ?_) fun _ => ?_
  · exact (follows_forM_unfile g).spares.symm.mono fun _ => .inl
  · exact (spares_updateHeader (.inr rfl)).bind htrans fun _ g => .refl g _

/-! ## Adopting -/

/-- To adopt `c` under `p` fails before anything is changed. -/
inductive RefusesToAdopt (g : Graph) (p c : Ref) : Prop
  /-- There is no such child. -/
  | missing (hc : g.contains c = false)
  /-- The parent is of no known entity. -/
  | unknown {e : GraphError} (hbuckets : g.bucketsFor p c = .error e)
  /-- Another owner does not release the child. -/
  | kept {q : Ref} (hparent : g.parent? c = some q) (hne : q ≠ p)
      (hkept : g.RefusesToRelease q c)
  /-- There is no such parent, though the child has it for an owner. -/
  | gone (hparent : g.parent? c = some p) (hp : g.contains p = false)
  /-- The child is adopted already, but is not in all lists, and cannot be. -/
  | barred {buckets : List String} (hparent : g.parent? c = some p) (hchild : c ∈ g.childrenOf p)
      (hbuckets : g.bucketsFor p c = .ok buckets) (hlists : g.FirstBars p c buckets)

/-- The steps by which a child is adopted that has left its former owner. -/
def settle (p c : Ref) (buckets : List String) : Update Unit := do
  Update.apply (·.updateHeader c (·.under p))
  Update.apply (·.updateHeader p (·.adopting c))
  buckets.forM (file p c)

/-- The headers are written before the lists. -/
theorem run_settle (hc : g.contains c = true) (hp : g.contains p = true) :
    (settle p c buckets).run g =
      (buckets.forM (file p c)).run ((g.mapHeader c (·.under p)).mapHeader p (·.adopting c)) := by
  have hp' : (g.mapHeader c (·.under p)).contains p = true := contains_mapHeader.trans hp
  exact (run_bind_ok (run_apply (updateHeader_eq hc))).trans
    (run_bind_ok (run_apply (updateHeader_eq hp')))

/-- The child has its new owner before it is noticed that there is none. -/
theorem run_settle_of_gone (hc : g.contains c = true) (hp : g.contains p = false) :
    (settle p c buckets).run g =
      (.error (.danglingReference p), g.mapHeader c (·.under p)) := by
  have hp' : (g.mapHeader c (·.under p)).contains p = false := contains_mapHeader.trans hp
  exact (run_bind_ok (run_apply (updateHeader_eq hc))).trans
    (run_bind_error (run_apply_error (updateHeader_eq_error hp')))

/-- However far adoption gets, the child has its new owner. -/
theorem parent?_of_settle {result : Except GraphError Unit} (hc : g.contains c = true)
    (hrun : (settle p c buckets).run g = (result, h)) : h.parent? c = some p := by
  obtain rfl : ((settle p c buckets).run g).2 = h := congrArg Prod.snd hrun
  have hunder : (g.mapHeader c (·.under p)).parent? c = some p := by
    rw [parent?_under hc, if_pos rfl]
  rcases hp : g.contains p with _ | _
  · rw [run_settle_of_gone hc hp]
    exact hunder
  · rw [run_settle hc hp, (follows_forM_file _).parent, parent?_adopting]
    exact hunder

/-- However far adoption gets, the new owner has the child. -/
theorem childrenOf_of_settle {result : Except GraphError Unit} (hc : g.contains c = true)
    (hp : g.contains p = true) (hrun : (settle p c buckets).run g = (result, h)) :
    c ∈ h.childrenOf p := by
  obtain rfl : ((settle p c buckets).run g).2 = h := congrArg Prod.snd hrun
  have hp' : (g.mapHeader c (·.under p)).contains p = true := contains_mapHeader.trans hp
  rw [run_settle hc hp, (follows_forM_file _).children, childrenOf_adopting hp', if_pos rfl]
  split
  · assumption
  · exact List.mem_append_right _ List.mem_cons_self

theorem mapHeader_under_eq_self (hparent : g.parent? c = some p) :
    g.mapHeader c (·.under p) = g := by
  refine modify_eq_self fun o ho => ?_
  rw [parent?_eq ho] at hparent
  simp only [Header.under, ← hparent]

theorem mapHeader_adopting_eq_self (hchild : c ∈ g.childrenOf p) :
    g.mapHeader p (·.adopting c) = g := by
  refine modify_eq_self fun o ho => ?_
  rw [childrenOf_eq ho] at hchild
  simp only [Header.adopting, if_pos hchild]

/-- A child that is settled without success leaves no trace only if it had this
    owner, and if the first thing to be written after that fails. -/
theorem exists_settle_error (hc : g.contains c = true) :
    (∃ e, (settle p c buckets).run g = (.error e, g)) ↔ g.parent? c = some p ∧
      (g.contains p = false ∨ c ∈ g.childrenOf p ∧ g.FirstBars p c buckets) := by
  constructor
  · rintro ⟨e, hrun⟩
    have hparent : g.parent? c = some p := parent?_of_settle hc hrun
    refine ⟨hparent, ?_⟩
    rcases hp : g.contains p with _ | _
    · exact .inl rfl
    · have hchild : c ∈ g.childrenOf p := childrenOf_of_settle hc hp hrun
      -- An error that leaves the graph as it is comes only where both headers say it already.
      rw [run_settle hc hp, mapHeader_under_eq_self hparent,
        mapHeader_adopting_eq_self hchild] at hrun
      exact .inr ⟨hchild, exists_forM_file_error.1 ⟨e, hrun⟩⟩
  · rintro ⟨hparent, hp | ⟨hchild, hlists⟩⟩
    · rw [run_settle_of_gone hc hp, mapHeader_under_eq_self hparent]
      exact ⟨_, rfl⟩
    · have hp := contains_of_mem_childrenOf hchild
      rw [run_settle hc hp, mapHeader_under_eq_self hparent, mapHeader_adopting_eq_self hchild]
      exact exists_forM_file_error.2 hlists

section

variable (hc : g.contains c = true) (hbuckets : g.bucketsFor p c = .ok buckets)

include hc hbuckets

/-- A child without another owner is settled at once. -/
theorem run_attachChild_of_free (hfree : ∀ q, g.parent? c = some q → q = p) :
    (attachChild p c).run g = (settle p c buckets).run g := by
  obtain ⟨o, ho⟩ := contains_iff.1 hc
  refine (run_bind_ok (run_read (header_eq ho))).trans ?_
  refine (run_bind_ok (run_read hbuckets)).trans ?_
  rw [parent?_eq ho] at hfree
  rcases hformer : o.header.parent with _ | q
  · rfl
  · obtain rfl := hfree q hformer
    dsimp only
    rw [if_neg (not_not.2 rfl)]
    rfl

/-- A child is released by its owner first. -/
theorem run_attachChild_of_owned {q : Ref} (hparent : g.parent? c = some q) (hne : q ≠ p) :
    (attachChild p c).run g = (do
      let _ ← detachChild q c
      settle p c buckets : Update Unit).run g := by
  obtain ⟨o, ho⟩ := contains_iff.1 hc
  refine (run_bind_ok (run_read (header_eq ho))).trans ?_
  refine (run_bind_ok (run_read hbuckets)).trans ?_
  rw [parent?_eq ho] at hparent
  rw [hparent]
  dsimp only
  rw [if_pos hne]
  rfl

end

/-- Exactly these fail and leave the graph as it is. -/
theorem exists_attachChild_error :
    (∃ e, (attachChild p c).run g = (.error e, g)) ↔ g.RefusesToAdopt p c := by
  constructor
  · rintro ⟨e, hrun⟩
    rcases hc : g.contains c with _ | _
    · exact .missing hc
    rcases hbuckets : g.bucketsFor p c with e' | buckets
    · exact .unknown hbuckets
    by_cases howned : ∃ q, g.parent? c = some q ∧ q ≠ p
    · obtain ⟨q, hparent, hne⟩ := howned
      rw [run_attachChild_of_owned hc hbuckets hparent hne] at hrun
      rcases hdetach : (detachChild q c).run g with ⟨e' | adopted, k⟩
      · rw [run_bind_error hdetach] at hrun
        obtain ⟨-, rfl⟩ := Prod.mk.inj hrun
        exact .kept hparent hne (exists_detachChild_error.1 ⟨e', hdetach⟩)
      · -- The child has another owner in the end.
        have hspares : g.Spares {q, c} k := by
          simpa only [hdetach] using spares_detachChild (p := q) (c := c) g
        rw [run_bind_ok hdetach] at hrun
        have hlast := parent?_of_settle ((hspares.contains c).trans hc) hrun
        exact absurd (Option.some.inj (hparent.symm.trans hlast)) hne
    · have hfree (q : Ref) (hq : g.parent? c = some q) : q = p :=
        by_contra fun hne => howned ⟨q, hq, hne⟩
      rw [run_attachChild_of_free hc hbuckets hfree] at hrun
      obtain ⟨hparent, hp | ⟨hchild, hlists⟩⟩ := (exists_settle_error hc).1 ⟨e, hrun⟩
      · exact .gone hparent hp
      · exact .barred hparent hchild hbuckets hlists
  · intro hrefuses
    rcases hc : g.contains c with _ | _
    · exact ⟨_, run_bind_error (run_read_error (header_eq_error hc))⟩
    obtain ⟨o, ho⟩ := contains_iff.1 hc
    rcases hbuckets : g.bucketsFor p c with e | buckets
    · refine ⟨e, (run_bind_ok (run_read (header_eq ho))).trans ?_⟩
      exact run_bind_error (run_read_error hbuckets)
    have hown (q : Ref) (hparent : g.parent? c = some p) (hq : g.parent? c = some q) : q = p :=
      Option.some.inj (hq.symm.trans hparent)
    -- A refusal is found before anything is written,
    -- or by the former parent, who writes nothing.
    rcases hrefuses with hc' | hbuckets' | ⟨hparent, hne, hkept⟩ | ⟨hparent, hp⟩ |
      ⟨hparent, hchild, hbuckets', hlists⟩
    · exact absurd hc (by simp [hc'])
    · exact absurd hbuckets (by simp [hbuckets'])
    · obtain ⟨e, hdetach⟩ := exists_detachChild_error.2 hkept
      rw [run_attachChild_of_owned hc hbuckets hparent hne]
      exact ⟨e, run_bind_error hdetach⟩
    · rw [run_attachChild_of_free hc hbuckets fun q => hown q hparent]
      exact (exists_settle_error hc).2 ⟨hparent, .inl hp⟩
    · obtain rfl := Except.ok.inj (hbuckets.symm.trans hbuckets')
      rw [run_attachChild_of_free hc hbuckets fun q => hown q hparent]
      exact (exists_settle_error hc).2 ⟨hparent, .inr ⟨hchild, hlists⟩⟩

theorem spares_settle : Follows (Spares · {p, c} ·) (settle p c buckets) := by
  have htrans (g h k : Graph) : g.Spares {p, c} h → h.Spares {p, c} k → g.Spares {p, c} k := .trans
  refine (spares_updateHeader (.inr rfl)).bind htrans fun _ => ?_
  refine (spares_updateHeader (.inl rfl)).bind htrans fun _ g => ?_
  exact (follows_forM_file g).spares.mono fun _ => .inl

/-- Whether it fails or not, only the child and its owners take part. -/
theorem spares_attachChild (g : Graph) (p c : Ref) :
    g.Spares {r | r = p ∨ r = c ∨ g.parent? c = some r} ((attachChild p c).run g).2 := by
  rcases hc : g.contains c with _ | _
  · rw [(exists_attachChild_error.2 (.missing hc)).choose_spec]
    exact .refl g _
  rcases hbuckets : g.bucketsFor p c with e | buckets
  · rw [(exists_attachChild_error.2 (.unknown hbuckets)).choose_spec]
    exact .refl g _
  have hsub : ({p, c} : Set Ref) ⊆ {r | r = p ∨ r = c ∨ g.parent? c = some r} :=
    fun r hr => hr.imp_right .inl
  by_cases howned : ∃ q, g.parent? c = some q ∧ q ≠ p
  · obtain ⟨q, hparent, hne⟩ := howned
    rw [run_attachChild_of_owned hc hbuckets hparent hne, run_bind_eq]
    -- The former parent is the one object besides the two that a release may change.
    have hdetach : g.Spares {r | r = p ∨ r = c ∨ g.parent? c = some r}
        ((detachChild q c).run g).2 := by
      refine (spares_detachChild g).mono ?_
      rintro r (rfl | rfl)
      · exact .inr (.inr hparent)
      · exact .inr (.inl rfl)
    split
    · exact hdetach.trans ((spares_settle _).mono hsub)
    · exact hdetach
  · rw [run_attachChild_of_free hc hbuckets fun q hq => by_contra fun hne => howned ⟨q, hq, hne⟩]
    exact (spares_settle g).mono hsub

/-- An adoption that fails leaves the graph as it was exactly if it fails at
    once. Otherwise the child, its former owner or the new one has changed, but
    no other object. -/
theorem attachChild_eq_self_iff {e : GraphError} (hrun : (attachChild p c).run g = (.error e, h)) :
    (h = g ↔ g.RefusesToAdopt p c) ∧
      g.Spares {r | r = p ∨ r = c ∨ g.parent? c = some r} h := by
  have hspares := spares_attachChild g p c
  rw [hrun] at hspares
  refine ⟨⟨?_, fun hrefuses => ?_⟩, hspares⟩
  · rintro rfl
    exact exists_attachChild_error.1 ⟨e, hrun⟩
  · obtain ⟨e', hrun'⟩ := exists_attachChild_error.2 hrefuses
    exact congrArg Prod.snd (hrun.symm.trans hrun')

/-- A node cannot be adopted by a node that there is not. -/
theorem attachChild_eq_self_iff_node :
    let g := (Graph.empty (Network.model .empty)).perform (.create "node")
    let h := ((attachChild (Network.ref 7) (Network.ref 0)).run g).2
    (attachChild (Network.ref 7) (Network.ref 0)).run g =
        (.error (.danglingReference (Network.ref 7)), h) ∧
      (h = g ↔ g.RefusesToAdopt (Network.ref 7) (Network.ref 0)) ∧
        g.Spares {r | r = Network.ref 7 ∨ r = Network.ref 0 ∨
          g.parent? (Network.ref 0) = some r} h := by
  intro g h
  have hrun : (attachChild (Network.ref 7) (Network.ref 0)).run g =
      (.error (.danglingReference (Network.ref 7)), h) := Prod.ext (by decide +kernel) rfl
  exact ⟨hrun, attachChild_eq_self_iff hrun⟩

/-- Not all adoptions that fail leave the graph as it was: a node comes to be
    owned by a node that there is not. -/
theorem attachChild_not_atomic :
    ¬ ∀ (m : Model) (ops : List Operation) (p c : Ref) (e : GraphError) (h : Graph), m.Built →
      (attachChild p c).run (ops.foldl perform (Graph.empty m)) = (.error e, h) →
        h = ops.foldl perform (Graph.empty m) := by
  intro hatomic
  let g := (Graph.empty (Network.model .empty)).perform (.create "node")
  let h := ((attachChild (Network.ref 7) (Network.ref 0)).run g).2
  have hrun : (attachChild (Network.ref 7) (Network.ref 0)).run g =
      (.error (.danglingReference (Network.ref 7)), h) := Prod.ext (by decide +kernel) rfl
  have hsame : h = g := hatomic _ [.create "node"] _ _ _ _ (Network.built _) hrun
  have hbefore : g.parent? (Network.ref 0) = none := by decide +kernel
  have hafter : h.parent? (Network.ref 0) = some (Network.ref 7) := by decide +kernel
  rw [hsame, hbefore] at hafter
  cases hafter

end ObjectModel.Graph
