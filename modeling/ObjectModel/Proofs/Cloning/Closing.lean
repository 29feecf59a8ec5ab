import Mathlib.Data.List.Chain
import ObjectModel.Proofs.Cloning.Isomorphism
import ObjectModel.Proofs.Cloning.Noting
import ObjectModel.Proofs.Cloning.Replacing

/-!
# Scopes while objects are cloned

An object that is a scope (`Model.opensScope`) is entered before what it holds is cloned,
and left when this is done. So if cloning comes to an end, all scopes that were entered
have been left, and names were bound for objects that were cloned (`Cloner.Notes`).

If it fails, it stops at an object that cannot be cloned, on the way to which the cloning
of some objects has begun, each a part of the one before (`Cloner.Stops`). Nothing is done
for them after that, so the scopes among them are not left (`Cloner.Abandons`).

* `Cloning.closes_cloneUpTo`: cloning to whatever depth ends in one of these ways.
-/

namespace ObjectModel

/-- Objects of the tag are scopes while what they hold is cloned. -/
def Model.opensScope (m : Model) (tag : Nat) : Bool :=
  Cloning.Method.isScope ⟨m.chainAt tag, (m.cloneKind tag).custom?, ""⟩ m.policy

/-! ## Names -/

/-- Texts are empty to begin with. -/
theorem Value.eq_of_default_eq_text {m : Member} {text : String} (h : default m = .text text) :
    text = "" := by
  unfold default at h
  split at h <;> cases h <;> rfl

namespace Graph

variable {g : Graph} {r s : Ref} {name : String}

theorem contains_of_name? (h : g.name? r = some name) : g.contains r = true := by
  obtain ⟨l, -, h⟩ := Option.bind_eq_some_iff.1 h
  obtain ⟨i, -, h⟩ := Option.bind_eq_some_iff.1 h
  obtain ⟨o, ho, -⟩ := Option.bind_eq_some_iff.1 h
  exact contains_of_object? ho

theorem name?_modify_of_ne {f : Object → Object} (h : r ≠ s) :
    (g.modify s f).name? r = g.name? r := by
  have hlayout : (g.modify s f).layout r = g.layout r := rfl
  rw [name?, name?, object?_modify_of_ne f h, hlayout]

/-- The name of a new object is empty, if it has one. -/
theorem name?_add_fresh {tag : Nat} {l : Layout} {header : Header} (htag : tag < g.stores.length)
    (h : (g.add tag ⟨header, l.defaults⟩).name? (g.fresh tag) = some name) : name = "" := by
  obtain ⟨_, -, h⟩ := Option.bind_eq_some_iff.1 h
  obtain ⟨i, -, h⟩ := Option.bind_eq_some_iff.1 h
  obtain ⟨o, ho, h⟩ := Option.bind_eq_some_iff.1 h
  rw [object?_add_fresh htag] at ho
  obtain rfl := Option.some.inj ho
  dsimp only at h
  split at h
  · rename_i text htext
    obtain rfl := Option.some.inj h
    rw [Layout.defaults, List.getD_eq_getElem?_getD, List.getElem?_map] at htext
    cases hslot : l[i]? with
    | none =>
      rw [hslot] at htext
      cases htext
    | some slot =>
      rw [hslot] at htext
      exact Value.eq_of_default_eq_text htext
  · cases h

end Graph

namespace Cloner

variable {σ : Type} {c c₁ c' c'' : Cloner σ} {r s x y : Ref} {o : Object} {path : List Ref}

/-! ## Steps forward -/

/-- From `c` to `c'`, objects stay as they are, and what has become of them stays so. -/
structure Grows (c c' : Cloner σ) : Prop where
  extension : c.graph.Extends c'.graph
  cloned : ∀ r s, c.cloned? r = some s → c'.cloned? r = some s

namespace Grows

theorem refl (c : Cloner σ) : c.Grows c := ⟨.refl _, fun _ _ h => h⟩

theorem trans (h : c.Grows c') (h' : c'.Grows c'') : c.Grows c'' :=
  ⟨h.extension.trans h'.extension, fun r s hs => h'.cloned r s (h.cloned r s hs)⟩

theorem new (h : c.Grows c') (hr : c'.cloned? r = none) : c.cloned? r = none := by
  by_contra hne
  obtain ⟨s, hs⟩ := Option.ne_none_iff_exists'.1 hne
  rw [h.cloned r s hs] at hr
  cases hr

theorem fresh (h : c.Grows c') (hr : c'.graph.contains r = false) : c.graph.contains r = false :=
  Bool.eq_false_iff.2 fun hc => Bool.eq_false_iff.1 hr (h.extension.contains hc)

theorem withImage (hnew : c.cloned? r = none) : c.Grows (c.withImage r o) :=
  ⟨(Graph.Extends.refl _).add, fun _ _ hs => cloned?_of_withImage hnew hs⟩

/-- Remembering a clone is a step forward if there is none yet. -/
theorem remember (hnew : c.cloned? r = none) : c.Grows { c with memo := (r, s) :: c.memo } where
  extension := .refl _
  cloned q t ht := by
    have hne : q ≠ r := fun h => by
      rw [h, hnew] at ht
      cases ht
    rwa [cloned?, List.lookup_cons, beq_false_of_ne hne]

theorem modify (h : c.Grows c') (hr : c.graph.contains r = false) (f : Object → Object) (b : σ) :
    c.Grows { c' with graph := c'.graph.modify r f, bindings := b } :=
  ⟨h.extension.modify hr, h.cloned⟩

end Grows

/-- An object has been made for `r`. It has no name yet. -/
structure Begins (c : Cloner σ) (r copy : Ref) (c' : Cloner σ) : Prop extends Grows c c' where
  new : c.cloned? r = none
  image : c'.cloned? r = some copy
  live : c'.graph.contains copy = true
  fresh : c.graph.contains copy = false
  unnamed : ∀ name, c'.graph.name? copy = some name → name = ""

theorem Begins.withBindings (h : c.Begins r s c') (b : σ) :
    c.Begins r s { c' with bindings := b } :=
  ⟨⟨h.extension, h.cloned⟩, h.new, h.image, h.live, h.fresh, h.unnamed⟩

/-- The cloning of an object begins with a new object that is remembered for it. -/
theorem begins_withImage {l : Layout} {header : Header} (hnew : c.cloned? r = none)
    (htag : r.tag < c.graph.stores.length) :
    c.Begins r (c.graph.fresh r.tag) (c.withImage r ⟨header, l.defaults⟩) where
  toGrows := .withImage hnew
  new := hnew
  image := (cloned?_withImage ..).trans (if_pos rfl)
  live := contains_withImage htag
  fresh := Graph.contains_fresh
  unnamed _ := Graph.name?_add_fresh htag

/-! ## Stopping -/

/-- No object has been made for `x`. -/
def Lacks (c : Cloner σ) (x : Ref) : Prop :=
  ∀ s, c.cloned? x = some s → c.graph.contains s = false

theorem lacks_of_new (h : c.cloned? r = none) : c.Lacks r := fun s hs => by
  rw [h] at hs
  cases hs

/-- Cloning `r` from the state `c` has stopped at `x` in the state `c'`, in the midst of
    cloning the objects on the path. -/
structure Stops (c : Cloner σ) (r : Ref) (path : List Ref) (x : Ref) (c' : Cloner σ) : Prop where
  starts : (path ++ [x]).head? = some r
  /-- Each object is a part of the one before. -/
  chain : (path ++ [x]).IsChain c'.graph.HasPart
  nodup : path.Nodup
  /-- For each object on the path, a new object has been made. -/
  begun : ∀ s ∈ path, c.cloned? s = none ∧ ∃ copy, c'.cloned? s = some copy ∧
    c'.graph.contains copy = true ∧ c.graph.contains copy = false

/-- The new objects for the scopes on the path, the innermost first. -/
def openScopes (c : Cloner σ) (path : List Ref) : List Ref :=
  (path.filter fun s => c.graph.model.opensScope s.tag).reverse.map c.image

/-- The scopes of a path are those of the objects on it, innermost first. -/
theorem openScopes_cons : c.openScopes (r :: path) =
    c.openScopes path ++ if c.graph.model.opensScope r.tag then [c.image r] else [] := by
  rw [openScopes, List.filter_cons]
  split
  · rw [List.reverse_cons, List.map_append]
    rfl
  · exact (List.append_nil _).symm

theorem Stops.here (c : Cloner σ) (r : Ref) (c' : Cloner σ) : c.Stops r [] r c' :=
  ⟨rfl, .singleton r, .nil, fun _ hs => absurd hs List.not_mem_nil⟩

/-- What has been done before does not count. -/
theorem Stops.after (h : c.Grows c₁) (hs : c₁.Stops r path x c') : c.Stops r path x c' where
  starts := hs.starts
  chain := hs.chain
  nodup := hs.nodup
  begun s hmem :=
    let ⟨hnew, copy, hcopy, hlive, hfresh⟩ := hs.begun s hmem
    ⟨h.new hnew, copy, hcopy, hlive, h.fresh hfresh⟩

/-- What stops the cloning of a part stops the cloning of the object. -/
theorem Stops.inside (h : c.Begins r s c₁) (h' : c₁.Grows c') (hpart : c'.graph.HasPart r x)
    (hs : c₁.Stops x path y c') :
    c.Stops r (r :: path) y c' where
  starts := rfl
  chain := by
    rw [List.cons_append, List.isChain_cons]
    refine ⟨fun z hz => ?_, hs.chain⟩
    rw [hs.starts] at hz
    exact Option.some.inj hz ▸ hpart
  nodup := by
    refine List.nodup_cons.2 ⟨fun hmem => ?_, hs.nodup⟩
    have himage := h.image
    rw [(hs.begun r hmem).1] at himage
    cases himage
  begun := by
    rw [List.forall_mem_cons]
    exact ⟨⟨h.new, s, h'.cloned r s h.image, h'.extension.contains h.live, h.fresh⟩,
      (hs.after h.toGrows).begun⟩

end Cloner

/-! ## What a run has done to the bindings -/

namespace Cloner

variable {c c₁ c' c'' : Cloner Noted} {l l' : List Recording} {r x : Ref} {n : Nat}

/-- From `c` to `c'`, the names in the list were bound, all of them to what has become of
    objects of these names that were cloned on the way. All scopes have been left again. -/
structure Notes (c : Cloner Noted) (l : List Recording) (c' : Cloner Noted) : Prop
    extends Grows c c' where
  bindings : c.bindings.Adds l c'.bindings
  named : ∀ x ∈ l, ∃ r, c.cloned? r = none ∧ c'.cloned? r = some x.object ∧
    c'.graph.name? r = some x.name ∧ x.name ≠ ""

theorem Notes.refl (c : Cloner Noted) : c.Notes [] c :=
  ⟨.refl c, .refl _, fun _ hx => absurd hx List.not_mem_nil⟩

/-- Nothing is bound where the bindings stay as they are. -/
theorem Notes.of_grows (h : c.Grows c') (hbindings : c'.bindings = c.bindings) :
    c.Notes [] c' :=
  ⟨h, hbindings ▸ .refl _, fun _ hx => absurd hx List.not_mem_nil⟩

/-- What was bound by one part and then by another was bound by both. -/
theorem Notes.trans (h : c.Notes l c') (h' : c'.Notes l' c'') : c.Notes (l ++ l') c'' where
  toGrows := h.toGrows.trans h'.toGrows
  bindings := h.bindings.trans h'.bindings
  named x hx := by
    rcases List.mem_append.1 hx with hx | hx
    · obtain ⟨r, hnew, himage, hname, hne⟩ := h.named x hx
      refine ⟨r, hnew, h'.cloned r _ himage, ?_, hne⟩
      rw [h'.extension.name? (Graph.contains_of_name? hname), hname]
    · obtain ⟨r, hnew, hrest⟩ := h'.named x hx
      exact ⟨r, h.toGrows.new hnew, hrest⟩

/-- The object made for `r` is written into at last. Besides what was bound on the way,
    its name may have been. -/
theorem Notes.finish {copy : Ref} {own : List Recording} {b : Noted} (h : c.Begins r copy c₁)
    (hl : c₁.Notes l c')
    (hown : ∀ x ∈ own, c.graph.name? r = some x.name ∧ x.name ≠ "" ∧ x.object = copy)
    (hb : c.bindings.Adds (own ++ l) b) (f : Object → Object) :
    c.Notes (own ++ l) { c' with graph := c'.graph.modify copy f, bindings := b } := by
  have hgrows := (h.toGrows.trans hl.toGrows).modify h.fresh f b
  refine ⟨hgrows, hb, fun x hx => ?_⟩
  rcases List.mem_append.1 hx with hx | hx
  · obtain ⟨hname, hne, hobject⟩ := hown x hx
    refine ⟨r, h.new, hobject ▸ hl.cloned r copy h.image, ?_, hne⟩
    rw [hgrows.extension.name? (Graph.contains_of_name? hname), hname]
  · obtain ⟨q, hnew, himage, hname, hne⟩ := hl.named x hx
    -- What had a name is another object than the one that had none so far.
    have hq : q ≠ copy := by
      rintro rfl
      rw [hl.extension.name? h.live] at hname
      exact hne (h.unnamed _ hname)
    exact ⟨q, h.toGrows.new hnew, himage, (Graph.name?_modify_of_ne hq).trans hname, hne⟩

/-- Cloning `r` on a path of at most `n` objects has failed: it stops at an object that
    cannot be cloned, or since the path is as long as it may be. The scopes on the path are
    still entered. -/
def Abandons (n : Nat) (c : Cloner Noted) (r : Ref) (c' : Cloner Noted) : Prop :=
  c.Grows c' ∧ ∃ path x, c.Stops r path x c' ∧ (path.length = n ∨ c'.Lacks x) ∧
    c'.bindings.entered = c'.openScopes path ++ c.bindings.entered

theorem Abandons.here (h : c.Grows c') (hlacks : c'.Lacks r)
    (hbindings : c'.bindings = c.bindings) : Abandons n c r c' :=
  ⟨h, [], r, .here c r c', .inr hlacks, by rw [hbindings]; rfl⟩

/-- What was done before it stopped counts as well. -/
theorem Abandons.after (h : c.Notes l c₁) (h' : Abandons n c₁ r c') : Abandons n c r c' := by
  obtain ⟨hgrows, path, x, hstops, hstuck, hentered⟩ := h'
  refine ⟨h.toGrows.trans hgrows, path, x, hstops.after h.toGrows, hstuck, ?_⟩
  rw [hentered, h.bindings.entered]

end Cloner

namespace Cloning

variable {c : Cloner Noted} {r : Ref} {p : Option Ref} {n : Nat} {chain : List Entity}
  {custom : Option CustomClone}

/-- Either an object is made for `r`, or it cannot be. -/
theorem ends_allocate_begins {σ : Type} {c : Cloner σ} (source : Header)
    (hnew : c.cloned? r = none) :
    Ends (allocate r p source) c
      (fun copy c' => c.Begins r copy c' ∧ c'.bindings = c.bindings ∧
        ∃ l, c'.graph.layout r = .ok l)
      (fun c' => c.Grows c' ∧ c'.Lacks r ∧ c'.bindings = c.bindings) := by
  have hnone : c.Grows c ∧ c.Lacks r ∧ c.bindings = c.bindings :=
    ⟨.refl c, Cloner.lacks_of_new hnew, rfl⟩
  rcases Nat.lt_or_ge r.tag c.graph.stores.length with htag | htag
  · exact ends_allocate_of htag (fun _ => hnone) fun l hl =>
      ⟨Cloner.begins_withImage hnew htag, rfl, l, hl⟩
  · cases hcreate : c.graph.createTag r.tag with
    | error e => exact .of_run_error (run_allocate_error hcreate) hnone
    | ok made =>
      obtain ⟨copy, h⟩ := made
      obtain ⟨l, hl, rfl, rfl⟩ := Graph.createTag_eq_ok hcreate
      -- There is no place for the object, so it is not found when it is to be written into.
      refine .of_run_error (run_allocate_of_le hcreate htag) ⟨.withImage hnew, fun s hs => ?_, rfl⟩
      obtain rfl : s = c.graph.fresh r.tag :=
        Option.some.inj (hs.symm.trans ((Cloner.cloned?_withImage ..).trans (if_pos rfl)))
      rw [Graph.contains_eq_false, Graph.object?_add_of_le htag]
      exact Graph.object?_fresh

/-- What is cloned is read first, and an object is made for it. -/
theorem ends_begin {n : Nat} {f : Object → Ref → Cloning Noted Ref}
    {Q : Ref → Cloner Noted → Prop} (hnew : c.cloned? r = none)
    (hf : ∀ o copy c', c.graph.object? r = some o → c.Begins r copy c' →
      c'.bindings = c.bindings → ∀ l, c'.graph.layout r = .ok l →
        Ends (f o copy) c' Q (Cloner.Abandons n c r)) :
    Ends (do
      let source ← fromGraph (·.object r)
      let copy ← allocate r p source.header
      f source copy) c Q (Cloner.Abandons n c r) := by
  refine ends_read (.here (.refl c) (Cloner.lacks_of_new hnew) rfl) fun o hread => ?_
  refine ((ends_allocate_begins o.header hnew).mono (fun _ _ h => h)
    fun c' ⟨h, hlacks, hbindings⟩ => .here h hlacks hbindings).bind
      fun copy c' ⟨h, hbindings, l, hl⟩ => ?_
  exact hf o copy c' (Graph.object_eq_ok.1 hread) h hbindings l hl

/-- Cloning by `clone` leaves the scopes that it has entered, or fails on the way to an
    object that cannot be cloned. -/
def Closes (n : Nat) (clone : Ref → Option Ref → Cloning Noted Ref) : Prop :=
  ∀ c r p, Ends (clone r p) c (fun s c' => c'.cloned? r = some s ∧ ∃ l, c.Notes l c')
    (Cloner.Abandons n c r)

/-- An object that shares what its source holds is made, or cloning stops at it. -/
theorem ends_shallow_closes (hnew : c.cloned? r = none) :
    Ends (shallow r p) c (fun s c' => c'.cloned? r = some s ∧ ∃ l, c.Notes l c')
      (Cloner.Abandons n c r) := by
  refine ends_begin hnew fun o copy c₁ _ h hbindings _ _ => ?_
  refine .after (run_changeGraph (Graph.setValues_eq h.live)) (.pure ⟨h.image, [], ?_⟩)
  exact .of_grows (h.toGrows.modify h.fresh _ _) hbindings

variable {clone : Ref → Option Ref → Cloning Noted Ref}

/-- Objects are cloned one after the other, until one of them cannot be. -/
theorem Closes.keeps (hclone : Closes n clone) (c : Cloner Noted) {parts : List Ref} {x : Ref}
    (hx : x ∈ parts) (p : Option Ref) :
    Keeps (fun c' => ∃ l, c.Notes l c') (fun c' => ∃ x ∈ parts, Cloner.Abandons n c x c')
      (clone x p) := by
  intro c' ⟨l, hl⟩
  exact (hclone c' x p).mono (fun _ _ ⟨_, l', h⟩ => ⟨l ++ l', hl.trans h⟩)
    fun _ h => ⟨x, hx, h.after hl⟩

/-- An object is cloned in a scope of its own, if it is one, which is left when this is
    done. -/
theorem Closes.generic (hclone : Closes n clone) (hnew : c.cloned? r = none)
    (hscope : Method.isScope ⟨chain, custom, ""⟩ c.graph.model.policy =
      c.graph.model.opensScope r.tag) :
    Ends (Cloning.generic clone chain custom r p) c
      (fun s c' => c'.cloned? r = some s ∧ ∃ l, c.Notes l c') (Cloner.Abandons (n + 1) c r) := by
  refine ends_begin hnew fun o copy c₁ ho h hbindings layout hl => ?_
  refine .after (run_fromGraph rfl) (.after (run_fromGraph rfl) (.after rfl ?_))
  rw [h.extension.model, h.extension.name? (Graph.contains_of_object? ho), hbindings]
  have hisScope : Method.isScope ⟨chain, custom, (c.graph.name? r).getD ""⟩ c.graph.model.policy =
      c.graph.model.opensScope r.tag := hscope
  have hname (hne : (c.graph.name? r).getD "" ≠ "") :
      c.graph.name? r = some ((c.graph.name? r).getD "") := by
    cases hr : c.graph.name? r with
    | none => exact absurd (by rw [hr]; rfl) hne
    | some name => rfl
  generalize (c.graph.name? r).getD "" = name at *
  obtain ⟨own, hown, hadds⟩ :=
    exists_adds_conclude ⟨chain, custom, name⟩ c.graph.model.policy copy c.bindings
  have hentered := entered_prepare ⟨chain, custom, name⟩ c.graph.model.policy copy c.bindings
  rw [hisScope] at hentered
  generalize Method.prepare ⟨chain, custom, name⟩ c.graph.model.policy copy c.bindings = b at *
  replace h := h.withBindings b
  -- If this fails, it fails in one of the parts, which is cloned in the midst of `r`.
  suffices hrest : Ends _ { c₁ with bindings := b }
      (fun s c' => c'.cloned? r = some s ∧ ∃ l, c.Notes l c')
      fun c' => ∃ x ∈ o.parts, Cloner.Abandons n { c₁ with bindings := b } x c' by
    refine hrest.mono (fun _ _ h => h) fun c' ⟨x, hx, hgrows, path, y, hstops, hstuck, hopen⟩ => ?_
    have hgrows' := h.toGrows.trans hgrows
    refine ⟨hgrows', r :: path, y, hstops.inside h hgrows ⟨o, hgrows'.extension.object? ho, hx⟩,
      hstuck.imp_left (congrArg (· + 1)), ?_⟩
    -- The scope of `r`, if there is one, is further out than those inside.
    have hcopy : c'.image r = copy := Cloner.image_eq (hgrows.cloned r copy h.image)
    rw [hopen, hentered, Cloner.openScopes_cons, hcopy, hgrows'.extension.model]
    split <;> simp
  refine .after (run_fromGraph (map_eq_ok.2 ⟨layout, hl, rfl⟩)) ?_
  have hkeeps {x : Ref} (hx : x ∈ o.parts) := hclone.keeps { c₁ with bindings := b } hx (some copy)
  refine (keeps_cloneMembers (fun v hv s hs => hkeeps (Object.mem_parts.2 (.inr ⟨v, hv, hs⟩)))
    _ _ _ _ ⟨[], .refl _⟩).bind fun values c' hc' => ?_
  refine (Keeps.mapM (fun s hs => hkeeps (Object.mem_parts.2 (.inl hs))) c' hc').bind
    fun children c₃ ⟨l, hl⟩ => .after rfl ?_
  have hlive : c₃.graph.contains copy = true := hl.extension.contains h.live
  refine .after (run_changeGraph (Graph.updateHeader_eq hlive)) ?_
  refine .after (run_changeGraph (Graph.setValues_eq ((Graph.contains_modify _).trans hlive)))
    (.pure ⟨hl.cloned r copy h.image, own ++ l, ?_⟩)
  dsimp only
  rw [Graph.modify_modify]
  refine .finish h hl (fun x hx => ?_) (hadds l _ hl.bindings) _
  obtain ⟨hx, hne, hobject⟩ := hown x hx
  exact ⟨hx ▸ hname hne, hx ▸ hne, hobject⟩

/-- A clone that is found is bound already. One that is made is bound to its name. -/
theorem Closes.dedup (hclone : Closes n clone) (hnew : c.cloned? r = none) (kind : BindingKind)
    (hscope : Method.isScope ⟨chain, none, ""⟩ c.graph.model.policy =
      c.graph.model.opensScope r.tag) :
    Ends (Cloning.dedup clone chain kind r p) c
      (fun s c' => c'.cloned? r = some s ∧ ∃ l, c.Notes l c') (Cloner.Abandons (n + 1) c r) := by
  refine .after (run_fromGraph rfl) ?_
  split
  · exact hclone.generic hnew hscope
  rename_i hne
  obtain ⟨name, hname⟩ : ∃ name, c.graph.name? r = some name := by
    rw [← Option.isSome_iff_exists, Option.isSome_iff_ne_none]
    intro hnone
    rw [hnone] at hne
    exact hne rfl
  rw [hname, Option.getD_some] at hne ⊢
  refine .after rfl ?_
  split
  · rename_i existing _
    refine .after rfl (.pure ⟨?_, [], .of_grows (.remember hnew) rfl⟩)
    rw [Cloner.cloned?, List.lookup_cons, beq_self_eq_true]
  · -- What the parts have recorded comes before the record of the copy itself.
    refine (hclone.generic hnew hscope).bind fun copy c' hmade => .after rfl ?_
    obtain ⟨himage, l, hl⟩ := hmade
    obtain ⟨sort, hadds⟩ := exists_adds_record kind name copy c'.bindings
    refine .pure ⟨himage, l ++ [⟨sort, name, copy, c'.bindings.entered⟩],
      ⟨hl.extension, hl.cloned⟩, hl.bindings.trans hadds, fun x hx => ?_⟩
    rcases List.mem_append.1 hx with hx | hx
    · exact hl.named x hx
    · rw [List.mem_singleton.1 hx]
      refine ⟨r, hnew, himage, ?_, hne⟩
      exact (hl.extension.name? (Graph.contains_of_name? hname)).trans hname

/-- If cloning what an object refers to closes, cloning the object does, one step deeper. -/
theorem Closes.cloneWith (hclone : Closes n clone) : Closes (n + 1) (Cloning.cloneWith clone) := by
  intro c r p
  have hscope {custom : Option CustomClone} (h : (c.graph.model.cloneKind r.tag).custom? = custom) :
      Method.isScope ⟨c.graph.model.chainAt r.tag, custom, ""⟩ c.graph.model.policy =
        c.graph.model.opensScope r.tag := by rw [Model.opensScope, h]
  refine ends_cloneWith (fun s hs => ⟨hs, [], .refl c⟩)
    (fun hnew => .here (.refl c) (Cloner.lacks_of_new hnew) rfl)
    (fun hnew _ _ => hclone.generic hnew (hscope rfl))
    (fun hnew kind hkind => hclone.dedup hnew kind (hscope (by rw [hkind]; rfl)))
    fun hnew _ => ends_shallow_closes hnew

theorem closes_cloneUpTo (n : Nat) : Closes n (cloneUpTo n) := by
  induction n with
  | zero =>
    -- Nothing can be cloned on a path without objects.
    exact fun c r _ => ⟨.refl c, [], r, .here c r c, .inl rfl, rfl⟩
  | succ n ih => exact ih.cloneWith

end Cloning

end ObjectModel
