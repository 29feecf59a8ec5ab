import ObjectModel.Proofs.Cloning.Reaching
import ObjectModel.Proofs.Graph.Design

/-!
# Nets found by name

A net whose name is bound is not cloned, but taken for what is bound to it. Its
name may have been bound in any of the scopes that are entered, since it is
looked for in the outer scopes too; so a net becomes the same as one in a scope
around it (`Cloner.cloneObject_merges`), and not only as those in its own
(`Cloner.cloneObject_not_by_scope`).

A name is bound when the net has been cloned. Whatever is reached before, from
the net itself, does not find it, so that nets of the name may remain apart in
spite of being in one scope (`Cloner.cloneObject_not_merged`).
-/

namespace ObjectModel

namespace Cloning

variable {g : Graph} {init : List Ref} {name : String} {c c' : Cloner Watched} {r s : Ref}
  {p : Option Ref}

/-- What has no name that is looked for need not be told of. -/
theorem Renews.resumes (h : Renews g init name r c s c') (hr : ¬ Named g r) :
    c'.cloned? r = some s ∧ Resumes g init name c c' :=
  ⟨h.image, ⟨h.returns.1.of_not_named hr, h.returns.2⟩, h.merging⟩

/-! ## Nets that are told of -/

section

variable {n : String} {v : Visit}

/-- The visit of a net is told. -/
theorem Passes.finish (h : Passes g name {r} { c with bindings := c.bindings.begin n } c')
    (hv : v = c.bindings.visit r n)
    (hspared : ∀ s, c.graph.contains s = true → Spared name s c → v.name = name →
      c'.cloned? r ≠ some s) :
    Passes g name ∅ c { c' with bindings := c'.bindings.finish v } where
  extension := h.extension
  cloned := h.cloned
  pending := by
    change c'.bindings.pending.tail = _
    rw [h.pending]
    rfl
  visits := by
    obtain ⟨new, hnew, hwithin⟩ := h.visits
    refine ⟨new ++ [v], ?_, fun u hu => ?_⟩
    · change c'.bindings.visits ++ [v] = _
      rw [hnew, List.append_assoc]
      rfl
    · rcases List.mem_append.1 hu with hu | hu
      · exact (List.suffix_cons _ _).trans (hwithin u hu)
      · rw [List.mem_singleton.1 hu, hv]
        exact List.suffix_rfl
  visited q s hq _ hs := by
    have hmem {u : Visit} (hu : u ∈ c'.bindings.visits) :
      u ∈ (c'.bindings.finish v).visits := List.mem_append_left _ hu
    -- The visit that ends is that of `r`, which was left out so far.
    by_cases hqr : q = r
    · refine .inr ⟨v, List.mem_append_right _ (List.mem_singleton_self v), ?_⟩
      rw [hv, hqr]
      rfl
    · exact (h.visited q s hq hqr hs).imp_right fun ⟨u, hu, huq⟩ => ⟨u, hmem hu, huq⟩
  spared s hlive hs u hu hname := by
    rcases List.mem_append.1 hu with hu | hu
    · exact h.spared s hlive hs u hu hname
    · obtain rfl := List.mem_singleton.1 hu
      rw [hv]
      exact hspared s hlive hs hname

/-- A net that is told of last becomes what the others of its name agree on. -/
theorem Merging.finish {e : Elaboration} (hc : Merging g init name c)
    (hv : g.contains v.net = true → g.name? v.net = some v.name)
    (hmerged : Merged init name c.graph c.cloned? e (c.bindings.visits ++ [v])) :
    Merging g init name { c with
      bindings := { c.bindings with elaboration := e }.finish v } where
  extension := hc.extension
  names u hu := by
    rcases List.mem_append.1 hu with hu | hu
    · exact hc.names u hu
    · rw [List.mem_singleton.1 hu]
      exact hv
  merged := hmerged

/-- It makes no difference that a net is about to be cloned. -/
theorem Merging.begin (hc : Merging g init name c) (n : String) :
    Merging g init name { c with bindings := c.bindings.begin n } :=
  ⟨hc.extension, hc.names, hc.merged⟩

variable (hc : Merging g init name c) (hname : c.graph.name? r = some n)

include hc hname

/-- A net is taken for the one that is bound to its name. -/
theorem Resumes.take (hnew : c.cloned? r = none)
    (hbound : Bindings.bindNet c.bindings n = some s) :
    Resumes g init name c { c with
      bindings := (c.bindings.begin n).finish (c.bindings.visit r n)
      memo := (r, s) :: c.memo } := by
  have hremember := (hc.begin n).remember (s := s) hnew
  have hpasses : Passes g name {r} { c with bindings := c.bindings.begin n }
      { c with bindings := c.bindings.begin n, memo := (r, s) :: c.memo } :=
    .remember (hc.begin n) hnew
  refine ⟨⟨hpasses.finish rfl fun t _ ht hn himage => ?_, rfl⟩, hremember.finish
    (v := c.bindings.visit r n) (fun h => (hc.extension.name? h).symm.trans hname) ?_⟩
  · -- Some net has become what is bound.
    obtain rfl := Option.some.inj (cloned?_remember_self.symm.trans himage)
    obtain rfl : n = name := hn
    obtain ⟨u, hu, huname, -, hus⟩ := hc.merged.known _ _ List.suffix_rfl hbound
    exact ht u hu huname hus
  · by_cases hn : n = name
    · subst hn
      exact hremember.merged.take rfl rfl hbound cloned?_remember_self
    · exact hremember.merged.other hn

/-- A net for which nothing is bound is cloned, and bound. -/
theorem Resumes.make (h : Renews g init name r { c with bindings := c.bindings.begin n } s c')
    (hbound : Bindings.bindNet c.bindings n = none) :
    Resumes g init name c { c' with
      bindings := (Bindings.recordNet c'.bindings n s).finish (c.bindings.visit r n) } := by
  have hpasses : Passes g name {r} { c with bindings := c.bindings.begin n }
      { c' with bindings := Bindings.recordNet c'.bindings n s } := h.returns.1.withElaboration _
  have hscopes : c'.bindings.scopes = c.bindings.scopes := h.returns.2
  refine ⟨⟨hpasses.finish rfl fun t ht _ _ himage => ?_,
    Elaboration.scopes_record.trans hscopes⟩, h.merging.finish
      (e := Bindings.recordNet c'.bindings.elaboration n s)
        (fun h => (hc.extension.name? h).symm.trans hname) ?_⟩
  · -- The net has become a new object.
    obtain rfl := Option.some.inj (h.image.symm.trans himage)
    exact Bool.eq_false_iff.1 h.fresh ht
  · by_cases hn : n = name
    · subst hn
      refine h.merging.merged.make rfl hscopes.symm h.image h.live h.spared
        fun hapart u hu huname hus => ?_
      obtain ⟨new, hnew, hwithin⟩ := h.returns.1.visits
      rw [hnew] at hu hapart
      rcases List.mem_append.1 hu with hu | hu
      · -- Something would have been bound.
        obtain ⟨-, t, ht, -⟩ := hc.merged.visited u hu huname
        have hfound := hc.merged.found hapart.of_append _ List.suffix_rfl u hu huname hus
        have hnone : Elaboration.netIn c.bindings.elaboration.root c.bindings.elaboration.scopes
          n = none := hbound
        rw [hnone, ht] at hfound
        cases hfound
      · -- The net was about to be cloned.
        exact hapart u (List.mem_append_right _ hu) huname
          ((hwithin u hu).subset List.mem_cons_self)
    · have hother : ∀ f : Frame, (f.nets.insert n s).get? name = f.nets.get? name := fun f => by
        rw [SortedMap.get?_insert, if_neg (Ne.symm hn)]
      exact (h.merging.merged.record
        (w := fun f => { f with nets := f.nets.insert n s }) hother).other hn

end

/-! ## Cloning objects -/

variable {clone : Ref → Option Ref → Cloning Watched Ref} {n : String}

/-- A net that is looked for is taken, or cloned and bound. -/
theorem Merges.dedupNet (hclone : Merges g init name clone) (chain : List Entity)
    (hc : Merging g init name c) (hnew : c.cloned? r = none) (hname : c.graph.name? r = some n)
    (hempty : n ≠ "") :
    Ends (Cloning.dedup clone chain .net r p) { c with bindings := c.bindings.begin n }
      (fun s c' => c'.cloned? r = some s ∧ Resumes g init name c
        { c' with bindings := c'.bindings.finish (c.bindings.visit r n) })
      (Merging g init name) := by
  refine .after (run_fromGraph (congrArg Except.ok (congrArg (Option.getD · "") hname))) ?_
  rw [Option.getD_some, if_neg hempty]
  refine .after (a := Bindings.bindNet c.bindings n) rfl ?_
  cases hbound : Bindings.bindNet c.bindings n with
  | some s =>
    exact .after rfl (.pure ⟨cloned?_remember_self, .take hc hname hnew hbound⟩)
  | none =>
    refine (hclone.generic chain none (hc.begin n) hnew).bind fun s c' h => ?_
    exact .after rfl (.pure ⟨h.image, .make hc hname h hbound⟩)

/-- Any object is cloned that is not looked for among the nets. -/
theorem Merges.cloneWith (hclone : Merges g init name clone) (hc : Merging g init name c)
    (hr : c.netName? r = none) :
    Ends (Cloning.cloneWith clone r p) c (fun s c' => c'.cloned? r = some s ∧
      Resumes g init name c c') (Merging g init name) := by
  have hnamed (hnew : c.cloned? r = none) : ¬ Named g r := by
    rintro ⟨n, ⟨hlive, hnet, hn⟩, hempty⟩
    have hr' := Cloner.netName?_eq_some.2
      ⟨hnew, hc.extension.model ▸ hnet, (hc.extension.name? hlive).trans hn, hempty⟩
    exact Option.some_ne_none n (hr'.symm.trans hr)
  have hrenews (hnew : c.cloned? r = none) (s : Ref) (c' : Cloner Watched)
      (h : Renews g init name r c s c') := h.resumes (hnamed hnew)
  refine ends_cloneWith (fun s hs => ⟨hs, .refl g name ∅ c, hc⟩) (fun _ => hc)
    (fun hnew _ _ => (hclone.generic _ _ hc hnew).mono (hrenews hnew) fun _ h => h)
    (fun hnew kind hkind => ?_)
    fun hnew _ => (ends_shallow_merging hc hnew).mono (hrenews hnew) fun _ h => h
  have hgeneric := (hclone.generic (p := p) (c.graph.model.chainAt r.tag) none hc hnew).mono
    (hrenews hnew) fun _ h => h
  refine .after (run_fromGraph rfl) ?_
  split
  · exact hgeneric
  · rename_i hempty
    cases kind with
    | net =>
      -- A net that has a name is looked for.
      cases hn : c.graph.name? r with
      | none => exact absurd (congrArg (Option.getD · "") hn) hempty
      | some n =>
        rw [hn] at hempty
        have hr' := Cloner.netName?_eq_some.2 ⟨hnew, hkind, hn, hempty⟩
        exact absurd (hr'.symm.trans hr) (Option.some_ne_none n)
    | param =>
      generalize Option.getD _ "" = n
      refine .after (t := c) (a := Bindings.bindParam c.bindings n) rfl ?_
      cases Bindings.bindParam c.bindings n with
      | some s =>
        have hpasses : Passes g name {r} c { c with memo := (r, s) :: c.memo } :=
          .remember hc hnew
        exact .after rfl (.pure ⟨cloned?_remember_self,
          ⟨hpasses.of_not_named (hnamed hnew), rfl⟩, hc.remember hnew⟩)
      | none =>
        refine hgeneric.bind fun s c' ⟨himage, ⟨hpasses, hscopes⟩, hc'⟩ => .after rfl (.pure ?_)
        refine ⟨himage, ⟨hpasses.withElaboration _, Elaboration.scopes_record.trans hscopes⟩,
          hc'.withElaboration fun l hl => hl.record fun _ => rfl⟩

/-- Watching a net being cloned does not change what it is merged with. -/
theorem Merges.watch (hclone : Merges g init name clone) :
    Merges g init name (Cloning.watch clone) := by
  intro c r p hc
  refine .after (t := c) rfl ?_
  cases hr : c.netName? r with
  | none => exact hclone.cloneWith hc hr
  | some n =>
    obtain ⟨hnew, hnet, hname, hempty⟩ := Cloner.netName?_eq_some.1 hr
    -- The scopes are noted, and the net is about to be cloned.
    refine .after rfl (.after rfl ?_)
    refine (ends_cloneWith (c := { c with bindings := c.bindings.begin n })
      (Q := fun s c' => c'.cloned? r = some s ∧ Resumes g init name c
        { c' with bindings := c'.bindings.finish (c.bindings.visit r n) })
      (fun s hs => absurd (hs.symm.trans hnew) (Option.some_ne_none s)) (fun _ => hc.begin n)
      (fun _ htable _ => ?_) (fun _ kind hkind => ?_) fun _ hconstant => ?_).bind
        fun s c' h => ?_
    · exact absurd ((congrArg EntityClone.table? hnet).symm.trans htable) nofun
    · obtain rfl : .net = kind := EntityClone.dedupByName.inj (hnet.symm.trans hkind)
      exact hclone.dedupNet _ hc hnew hname hempty
    · exact absurd (hnet.symm.trans hconstant) nofun
    · exact .after rfl (.pure h)

/-- The nets of a name are merged at whatever depth they are reached. -/
theorem merges_watchUpTo (n : Nat) : Merges g init name (watchUpTo n) := by
  induction n with
  | zero => exact fun _ _ _ hc => hc
  | succ n ih => exact ih.watch

end Cloning

namespace Cloner

open Cloning

section

variable (c : Cloner Elaboration) {name : String}
  (hfree : Bindings.bindNet c.bindings name = none)

include hfree

/-- Nothing is bound to the name when cloning begins. -/
theorem merging_start : Merging c.graph (c.bindings.scopes.map Prod.fst) name
    ⟨c.graph, { elaboration := c.bindings }, c.memo⟩ where
  extension := .refl _
  names _ hv := absurd hv List.not_mem_nil
  merged := by
    refine ⟨⟨[], rfl, fun _ hx => absurd hx List.not_mem_nil⟩,
      fun _ hv => absurd hv List.not_mem_nil, fun outer s houter hbound => ?_, Visit.Each.nil,
      fun _ _ _ _ hv => absurd hv List.not_mem_nil, fun _ => Visit.Each.nil⟩
    have hnone : ∀ f ∈ c.bindings.scopes.map Prod.snd ++ [c.bindings.root],
      f.nets.get? name = none := List.findSome?_eq_none_iff.1 hfree
    obtain ⟨f, hf, hs⟩ := List.exists_of_findSome?_eq_some hbound
    rw [List.mem_append] at hf
    have hf := hnone f (List.mem_append.2 (hf.imp_left ((houter.map Prod.snd).subset ·)))
    exact absurd (hf.symm.trans hs) (Option.some_ne_none s).symm

variable (r : Ref) (parent : Option Ref)

/-- A run that is watched ends with all nets told of that it has reached. -/
theorem ends_watchObject : Ends (watchUpTo c.graph.cloneDepth r parent)
    ⟨c.graph, { elaboration := c.bindings }, c.memo⟩
    (fun _ c' => Resumes c.graph (c.bindings.scopes.map Prod.fst) name
      ⟨c.graph, { elaboration := c.bindings }, c.memo⟩ c')
    (Merging c.graph (c.bindings.scopes.map Prod.fst) name) :=
  (merges_watchUpTo _ _ r parent (merging_start c hfree)).mono (fun _ _ h => h.2) fun _ h => h

/-- Whether or not cloning succeeds, nets are merged. -/
theorem merged_cloneObject :
    Merged (c.bindings.scopes.map Prod.fst) name (c.cloneObject r parent).2.graph
      (c.cloneObject r parent).2.cloned? (c.cloneObject r parent).2.bindings
      (c.visits r parent) := by
  have hends := ends_watchObject c hfree r parent
  rw [cloneObject_eq_watchObject]
  exact (Ends.state (hends.mono (fun _ _ h => h.2) fun _ h => h)).merged

/-- If cloning succeeds, it is told of every net of the name that was cloned. -/
theorem exists_visit {copy s q : Ref} (hcopy : (c.cloneObject r parent).1 = .ok copy)
    (hq : c.graph.IsNet name q) (hname : name ≠ "") (hnew : c.cloned? q = none)
    (hs : (c.cloneObject r parent).2.cloned? q = some s) :
    ∃ v ∈ c.visits r parent, v.net = q ∧ v.name = name := by
  rw [cloneObject_eq_watchObject] at hcopy hs
  obtain ⟨⟨hpasses, -⟩, hmerging⟩ := (ends_watchObject c hfree r parent).of_ok hcopy
  rcases hpasses.visited q s ⟨name, hq, hname⟩ (Set.notMem_empty q) hs with ⟨t, ht⟩ | ⟨v, hv, rfl⟩
  · exact absurd (hnew.symm.trans ht) (Option.some_ne_none t).symm
  · have hsame := hmerging.names v hv hq.1
    exact ⟨v, hv, rfl, Option.some.inj (hsame.symm.trans hq.2.2)⟩

end

/-- What becomes of the nets of a name, if nothing is bound to it when cloning
    begins. Nets are told of with the scopes in which they were reached
    (`Cloner.visits`). Whether or not cloning succeeds,

    * those that were told of have become objects;
    * two of them have become the same only if one of the name had been reached,
      no later than either, in a scope around both: the innermost one that was
      entered when each was reached, or one that it is within;
    * and this is enough, if none of them was reached while another of them was
      still to be cloned.

    If it succeeds, it has told of all nets of the name that were cloned. -/
theorem cloneObject_merges (c : Cloner Elaboration) (r : Ref) (parent : Option Ref)
    (name : String) (hname : name ≠ "") (hfree : Bindings.bindNet c.bindings name = none) :
    (∀ v ∈ c.visits r parent, v.name = name →
      ∃ s, (c.cloneObject r parent).2.cloned? v.net = some s ∧
        (c.cloneObject r parent).2.graph.contains s = true) ∧
    (∀ i j v w, (c.visits r parent)[i]? = some v → (c.visits r parent)[j]? = some w →
      v.name = name → w.name = name →
        ((c.cloneObject r parent).2.cloned? v.net = (c.cloneObject r parent).2.cloned? w.net →
          Visit.Around ((c.visits r parent).take (min i j + 1)) v w) ∧
        (Visit.Apart name (c.visits r parent) →
          Visit.Around ((c.visits r parent).take (min i j + 1)) v w →
            (c.cloneObject r parent).2.cloned? v.net =
              (c.cloneObject r parent).2.cloned? w.net)) ∧
    ∀ copy, (c.cloneObject r parent).1 = .ok copy →
      ∀ q s, c.graph.IsNet name q → c.cloned? q = none →
        (c.cloneObject r parent).2.cloned? q = some s →
          ∃ v ∈ c.visits r parent, v.net = q ∧ v.name = name := by
  have hmerged := merged_cloneObject c hfree r parent
  refine ⟨fun v hv hvname => (hmerged.visited v hv hvname).2,
    fun i j v w hv hw hvname hwname => ⟨fun hsame => ?_, fun hapart haround => ?_⟩,
    fun copy hcopy q s hq hnew hs => ?_⟩
  · exact hmerged.settled.around hv hw hvname hwname hsame
  · exact (hmerged.agreed hapart).image_eq_of_around hv hw hvname hwname haround
  · exact exists_visit c hfree r parent hcopy hq hname hnew hs

/-- Of three wires of one name, that in the cell within another's is merged with
    the wire there, and that in the cell beside is not, though it is cloned. -/
theorem cloneObject_merges_wires :
    let policy := PolicyTable.empty.addAll [.entityClone "wire" (.dedupByName .net),
      .collector "cell" "wire" "wires"]
    let c : Cloner Elaboration := ⟨Design.graph policy [{ name := "a" }, { name := "a" },
      { name := "a" }] [{ cells := [1, 3] }, { wires := [0], cells := [2] }, { wires := [1] },
      { wires := [2] }], {}, []⟩
    let c' := (c.cloneObject (Design.cell 0) none).2
    c'.cloned? (Design.wire 0) = c'.cloned? (Design.wire 1) ∧
      c'.cloned? (Design.wire 0) ≠ c'.cloned? (Design.wire 2) ∧
        ∃ v ∈ c.visits (Design.cell 0) none, v.net = Design.wire 2 ∧ v.name = "a" := by
  intro policy c c'
  have hvisits : c.visits (Design.cell 0) none =
      [⟨Design.wire 0, "a", [Design.cell 5, Design.cell 4], []⟩,
        ⟨Design.wire 1, "a", [Design.cell 6, Design.cell 5, Design.cell 4], []⟩,
        ⟨Design.wire 2, "a", [Design.cell 7, Design.cell 4], []⟩] := by decide +kernel
  have hcopy : (c.cloneObject (Design.cell 0) none).1 = .ok (Design.cell 4) := by decide +kernel
  have hnet : c.graph.IsNet "a" (Design.wire 2) := by decide +kernel
  have himage : c'.cloned? (Design.wire 2) = some (Design.wire 4) := by decide +kernel
  obtain ⟨-, hmerged, htold⟩ := cloneObject_merges c (Design.cell 0) none "a" (by decide) rfl
  have htold := htold (Design.cell 4) hcopy (Design.wire 2) (Design.wire 4) hnet rfl himage
  rw [hvisits] at hmerged
  exact ⟨(hmerged 0 1 _ _ rfl rfl rfl rfl).2 (by decide) (by decide),
    fun hsame => absurd ((hmerged 0 2 _ _ rfl rfl rfl rfl).1 hsame) (by decide), htold⟩

/-- It is not the innermost scope that tells which nets of a name become the same,
    as the wire in a cell within is merged with the one around. -/
theorem cloneObject_not_by_scope :
    ¬ ∀ (c : Cloner Elaboration) (r copy : Ref) (parent : Option Ref) (name : String),
      name ≠ "" → (∀ n, Bindings.bindNet c.bindings n = none) →
        (c.cloneObject r parent).1 = .ok copy →
          ∀ v ∈ c.visits r parent, ∀ w ∈ c.visits r parent,
            c.graph.IsNet name v.net → c.graph.IsNet name w.net →
              ((c.cloneObject r parent).2.cloned? v.net = (c.cloneObject r parent).2.cloned? w.net ↔
                v.scopes.head? = w.scopes.head?) := by
  intro hscope
  let policy := PolicyTable.empty.addAll [.entityClone "wire" (.dedupByName .net),
    .collector "cell" "wire" "wires"]
  let c : Cloner Elaboration := ⟨Design.graph policy [{ name := "a" }, { name := "a" }]
    [{ wires := [0], cells := [1] }, { wires := [1] }], {}, []⟩
  let v : Visit := ⟨Design.wire 0, "a", [Design.cell 2], []⟩
  let w : Visit := ⟨Design.wire 1, "a", [Design.cell 3, Design.cell 2], []⟩
  have hvisits : c.visits (Design.cell 0) none = [v, w] := by decide +kernel
  have hcopy : (c.cloneObject (Design.cell 0) none).1 = .ok (Design.cell 2) := by decide +kernel
  -- The inner cell finds the net that the outer one has bound.
  have hsame : (c.cloneObject (Design.cell 0) none).2.cloned? (Design.wire 0) =
    (c.cloneObject (Design.cell 0) none).2.cloned? (Design.wire 1) := by decide +kernel
  have hv : c.graph.IsNet "a" v.net := by decide +kernel
  have hw : c.graph.IsNet "a" w.net := by decide +kernel
  have hiff := hscope c (Design.cell 0) _ none "a" (by decide) (fun _ => rfl) hcopy
  rw [hvisits] at hiff
  have hhead := (hiff v List.mem_cons_self w (List.mem_cons_of_mem _ List.mem_cons_self) hv hw).1
  exact absurd (hhead hsame) (by decide)

/-- Nor do nets of a name that are reached in the same scope become the same if
    they are not reached apart: of two wires, one leads to the other, which is
    cloned before the first is bound. -/
theorem cloneObject_not_merged :
    ¬ ∀ (c : Cloner Elaboration) (r copy : Ref) (parent : Option Ref) (name : String),
      name ≠ "" → (∀ n, Bindings.bindNet c.bindings n = none) →
        (c.cloneObject r parent).1 = .ok copy →
          ∀ v ∈ c.visits r parent, ∀ w ∈ c.visits r parent,
            c.graph.IsNet name v.net → c.graph.IsNet name w.net → v.scopes = w.scopes →
              (c.cloneObject r parent).2.cloned? v.net =
                (c.cloneObject r parent).2.cloned? w.net := by
  intro hmerged
  let policy := PolicyTable.empty.addAll [.entityClone "wire" (.dedupByName .net),
    .collector "cell" "wire" "wires"]
  let c : Cloner Elaboration := ⟨Design.graph policy [{ name := "a", next := some 1 },
    { name := "a" }] [{ wires := [0, 1] }], {}, []⟩
  let v : Visit := ⟨Design.wire 1, "a", [Design.cell 1], ["a"]⟩
  let w : Visit := ⟨Design.wire 0, "a", [Design.cell 1], []⟩
  have hvisits : c.visits (Design.cell 0) none = [v, w] := by decide +kernel
  have hcopy : (c.cloneObject (Design.cell 0) none).1 = .ok (Design.cell 1) := by decide +kernel
  -- The second wire is asked for while the first is being cloned, before that is bound.
  have hother : (c.cloneObject (Design.cell 0) none).2.cloned? (Design.wire 1) ≠
    (c.cloneObject (Design.cell 0) none).2.cloned? (Design.wire 0) := by decide +kernel
  have hv : c.graph.IsNet "a" v.net := by decide +kernel
  have hw : c.graph.IsNet "a" w.net := by decide +kernel
  have hsame := hmerged c (Design.cell 0) _ none "a" (by decide) (fun _ => rfl) hcopy
  rw [hvisits] at hsame
  exact hother (hsame v List.mem_cons_self w (List.mem_cons_of_mem _ List.mem_cons_self) hv hw rfl)

end Cloner

end ObjectModel
