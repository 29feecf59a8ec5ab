import ObjectModel.Proofs.Cloning.Scopes
import ObjectModel.Proofs.Cloning.Watching

/-!
# Merged nets

A net that is reached while a design is elaborated is taken for the one that is
bound to its name, or is cloned, and then bound in the innermost scope. So from
the visits of the nets of a name, and the scopes in which these were, it can be
told which of them become the same:

* `Visit.Settled`: each net becomes what one has become that was reached before
  in a scope around, or is new. So two become the same only if one was reached,
  no later than either, in a scope around both (`Visit.Settled.around`).
* `Visit.Agreed`: each becomes what all have become that were reached before in a
  scope around. Then this is also enough (`Visit.Agreed.image_eq_of_around`). It
  is known of nets that are reached apart (`Visit.Apart`), since a net is bound
  after those are cloned that it leads to.

For this to go on, what is bound in each scope has to be what nets in the scopes
around it have become (`Merged`). This is kept when scopes are entered and left,
when a net is taken (`Merged.take`), and when one is cloned and bound
(`Merged.make`).
-/

namespace ObjectModel

/-! ## Visits of one name -/

namespace Visit

/-- Nets of that name were reached only while none of it was about to be cloned. -/
def Apart (name : String) (l : List Visit) : Prop := ∀ v ∈ l, v.name = name → name ∉ v.within

instance (name : String) (l : List Visit) : Decidable (Apart name l) :=
  inferInstanceAs (Decidable (∀ v ∈ l, v.name = name → name ∉ v.within))

/-- `P` is true of each visit of that name and those before it. -/
def Each (P : List Visit → Visit → Prop) (name : String) (l : List Visit) : Prop :=
  ∀ (i : Nat) (v : Visit), l[i]? = some v → v.name = name → P (l.take i) v

/-- After the visits in `earlier`, the net has become what one of its name has that
    was reached in a scope around, or it is new. -/
def Merges (image : Ref → Option Ref) (earlier : List Visit) (v : Visit) : Prop :=
  (∃ u ∈ earlier, u.name = v.name ∧ u.scopes <:+ v.scopes ∧ image u.net = image v.net) ∨
    ∀ u ∈ earlier, u.name = v.name → image u.net ≠ image v.net

/-- After the visits in `earlier`, the net has become what all of its name have that
    were reached in a scope around. -/
def Agrees (image : Ref → Option Ref) (earlier : List Visit) (v : Visit) : Prop :=
  ∀ u ∈ earlier, u.name = v.name → u.scopes <:+ v.scopes → image u.net = image v.net

/-- In one of these visits, a net of the name of `v` was reached in a scope around
    both. -/
def Around (l : List Visit) (v w : Visit) : Prop :=
  ∃ u ∈ l, u.name = v.name ∧ u.scopes <:+ v.scopes ∧ u.scopes <:+ w.scopes

instance (l : List Visit) (v w : Visit) : Decidable (Around l v w) :=
  inferInstanceAs (Decidable (∃ u ∈ l, _))

/-- Each net of that name is merged with one before, or new. -/
def Settled (image : Ref → Option Ref) : String → List Visit → Prop := Each (Merges image)

/-- Each net of that name is merged with all before in the scopes around. -/
def Agreed (image : Ref → Option Ref) : String → List Visit → Prop := Each (Agrees image)

variable {P P' : List Visit → Visit → Prop} {image image' : Ref → Option Ref} {name : String}
  {l : List Visit} {u v a b : Visit} {i j : Nat}

theorem Apart.of_append {l' : List Visit} (h : Apart name (l ++ l')) : Apart name l :=
  fun v hv => h v (List.mem_append_left _ hv)

theorem Each.nil : Each P name [] := fun _ _ hv => by cases hv

/-- What is said of each visit is said of the last one in view of those before. -/
theorem Each.append (hl : Each P name l) (hv : v.name = name → P l v) :
    Each P name (l ++ [v]) := by
  intro i w hw hname
  rcases lt_trichotomy i l.length with hi | rfl | hi
  · rw [List.getElem?_append_left hi] at hw
    rw [List.take_append_of_le_length hi.le]
    exact hl i w hw hname
  · rw [List.getElem?_concat_length] at hw
    obtain rfl := Option.some.inj hw
    rw [List.take_left]
    exact hv hname
  · rw [List.getElem?_eq_none (by simpa using Nat.succ_le_of_lt hi)] at hw
    cases hw

theorem Each.imp (hl : Each P name l)
    (h : ∀ earlier v, earlier ⊆ l → v ∈ l → v.name = name → P earlier v → P' earlier v) :
    Each P' name l := fun i v hv hname =>
  h _ v (List.take_subset i l) (List.mem_of_getElem? hv) hname (hl i v hv hname)

section

variable (himage : ∀ v ∈ l, v.name = name → image' v.net = image v.net)

include himage

/-- It only matters what the nets of the name have become. -/
theorem Settled.congr (hl : Settled image name l) : Settled image' name l := by
  refine Each.imp hl fun earlier v hsub hv hname hmerges => ?_
  have hsame {u : Visit} (hu : u ∈ earlier) (huv : u.name = v.name) : image' u.net = image u.net :=
    himage u (hsub hu) (huv.trans hname)
  rcases hmerges with ⟨u, hu, huv, hscopes, heq⟩ | hnew
  · exact .inl ⟨u, hu, huv, hscopes, by rw [hsame hu huv, heq, himage v hv hname]⟩
  · refine .inr fun u hu huv => ?_
    rw [hsame hu huv, himage v hv hname]
    exact hnew u hu huv

theorem Agreed.congr (hl : Agreed image name l) : Agreed image' name l := by
  refine Each.imp hl fun earlier v hsub hv hname hagrees u hu huv hscopes => ?_
  rw [himage u (hsub hu) (huv.trans hname), himage v hv hname]
  exact hagrees u hu huv hscopes

end

/-- Where two nets become the same, one was reached, no later than the first, in a
    scope around both. -/
theorem Settled.around_of_le (hl : Settled image name l) (hij : i ≤ j) (ha : l[i]? = some a)
    (hb : l[j]? = some b) (haname : a.name = name) (hbname : b.name = name)
    (himage : image a.net = image b.net) : Around (l.take (i + 1)) a b := by
  have hmem {k m : Nat} {v : Visit} (hv : l[k]? = some v) (hkm : k < m) : v ∈ l.take m :=
    List.mem_of_getElem? ((List.getElem?_take_of_lt hkm).trans hv)
  induction j using Nat.strong_induction_on generalizing i a b with
  | _ j ih =>
    rcases hij.eq_or_lt with rfl | hlt
    · obtain rfl := Option.some.inj (ha.symm.trans hb)
      exact ⟨a, hmem ha (Nat.lt_succ_self i), rfl, List.suffix_rfl, List.suffix_rfl⟩
    · rcases hl j b hb hbname with ⟨u, hu, huname, hub, heq⟩ | hnew
      · obtain ⟨k, hk, hku⟩ := List.mem_take_iff_getElem.1 hu
        have hkj : k < j := by omega
        have hu : l[k]? = some u := hku ▸ List.getElem?_eq_getElem _
        have huname := huname.trans hbname
        -- Of the first net and the one around the second, the later one is before the second.
        rcases Nat.le_total i k with hik | hki
        · obtain ⟨w, hw, hwname, hwa, hwu⟩ :=
            ih k hkj hik ha hu haname huname (himage.trans heq.symm)
          exact ⟨w, hw, hwname, hwa, hwu.trans hub⟩
        · obtain ⟨w, hw, hwname, hwu, hwa⟩ :=
            ih i hlt hki hu ha huname haname (heq.trans himage.symm)
          exact ⟨w, List.take_subset_take_left l (Nat.succ_le_succ hki) hw,
            hwname.trans (huname.trans haname.symm), hwa, hwu.trans hub⟩
      · exact absurd himage (hnew a (hmem ha hlt) (haname.trans hbname.symm))

/-- Where two nets become the same, one was reached, no later than either, in a
    scope around both. -/
theorem Settled.around (hl : Settled image name l) (ha : l[i]? = some a) (hb : l[j]? = some b)
    (haname : a.name = name) (hbname : b.name = name) (himage : image a.net = image b.net) :
    Around (l.take (min i j + 1)) a b := by
  rcases Nat.le_total i j with hij | hji
  · rw [Nat.min_eq_left hij]
    exact hl.around_of_le hij ha hb haname hbname himage
  · rw [Nat.min_eq_right hji]
    obtain ⟨u, hu, huname, hub, hua⟩ := hl.around_of_le hji hb ha hbname haname himage.symm
    exact ⟨u, hu, huname.trans (hbname.trans haname.symm), hua, hub⟩

/-- A net becomes what those have become that were reached, no later, in a scope
    around. -/
theorem Agreed.image_eq (hl : Agreed image name l) (ha : l[i]? = some a) (haname : a.name = name)
    (hu : u ∈ l.take (i + 1)) (huname : u.name = name) (hscopes : u.scopes <:+ a.scopes) :
    image u.net = image a.net := by
  rw [List.take_add_one, ha, Option.toList_some, List.mem_append, List.mem_singleton] at hu
  rcases hu with hu | rfl
  · exact hl i a ha haname u hu (huname.trans haname.symm) hscopes
  · rfl

/-- Nets that agree have become the same if one was reached in a scope around both,
    before either of them. -/
theorem Agreed.image_eq_of_around (hl : Agreed image name l) (ha : l[i]? = some a)
    (hb : l[j]? = some b) (haname : a.name = name) (hbname : b.name = name)
    (h : Around (l.take (min i j + 1)) a b) : image a.net = image b.net := by
  obtain ⟨u, hu, huname, hua, hub⟩ := h
  have huname := huname.trans haname
  have hi := List.take_subset_take_left l (Nat.succ_le_succ (Nat.min_le_left i j)) hu
  have hj := List.take_subset_take_left l (Nat.succ_le_succ (Nat.min_le_right i j)) hu
  rw [← hl.image_eq ha haname hi huname hua, hl.image_eq hb hbname hj huname hub]

end Visit

/-! ## Nets that are bound -/

/-- The scopes in `init`, and inside of them such as are objects of the graph. -/
def Graph.Enters (g : Graph) (init scopes : List Ref) : Prop :=
  ∃ inner, scopes = inner ++ init ∧ ∀ x ∈ inner, g.contains x = true

theorem Graph.Enters.grows {g h : Graph} {init scopes : List Ref} (hs : g.Enters init scopes)
    (hcontains : ∀ s, g.contains s = true → h.contains s = true) : h.Enters init scopes :=
  hs.imp fun _ hinner => hinner.imp_right fun hlive x hx => hcontains x (hlive x hx)

/-- What is bound to a name, in each scope, is what a net of that name has become
    that was reached in a scope around it; and so have all of them, if they were
    reached apart. -/
structure Merged (init : List Ref) (name : String) (g : Graph) (image : Ref → Option Ref)
    (e : Elaboration) (l : List Visit) : Prop where
  scopes : g.Enters init (e.scopes.map Prod.fst)
  visited : ∀ v ∈ l, v.name = name →
    g.Enters init v.scopes ∧ ∃ s, image v.net = some s ∧ g.contains s = true
  known : ∀ outer s, outer <:+ e.scopes → Elaboration.netIn e.root outer name = some s →
    ∃ v ∈ l, v.name = name ∧ v.scopes <:+ outer.map Prod.fst ∧ image v.net = some s
  settled : Visit.Settled image name l
  found : Visit.Apart name l → ∀ outer, outer <:+ e.scopes → ∀ v ∈ l, v.name = name →
    v.scopes <:+ outer.map Prod.fst → Elaboration.netIn e.root outer name = image v.net
  agreed : Visit.Apart name l → Visit.Agreed image name l

namespace Merged

variable {init : List Ref} {name : String} {g h : Graph} {image image' : Ref → Option Ref}
  {e e' : Elaboration} {l : List Visit} {v : Visit} {s : Ref}

/-- There may be more objects, and more may have become of them. -/
theorem grows (hl : Merged init name g image e l)
    (hcontains : ∀ s, g.contains s = true → h.contains s = true)
    (himage : ∀ r s, image r = some s → image' r = some s) : Merged init name h image' e l := by
  have hsame : ∀ v ∈ l, v.name = name → image' v.net = image v.net := fun v hv hname => by
    obtain ⟨-, s, hs, -⟩ := hl.visited v hv hname
    rw [hs, himage _ _ hs]
  refine ⟨hl.scopes.grows hcontains, fun v hv hname => ?_, fun outer s houter hbound => ?_,
    hl.settled.congr hsame, fun hapart outer houter v hv hname hscopes => ?_,
    fun hapart => (hl.agreed hapart).congr hsame⟩
  · obtain ⟨hscopes, s, hs, hlive⟩ := hl.visited v hv hname
    exact ⟨hscopes.grows hcontains, s, himage _ _ hs, hcontains s hlive⟩
  · obtain ⟨v, hv, hname, hscopes, hs⟩ := hl.known outer s houter hbound
    exact ⟨v, hv, hname, hscopes, himage _ _ hs⟩
  · rw [hsame v hv hname]
    exact hl.found hapart outer houter v hv hname hscopes

/-- Other bindings will do in which each scope has a counterpart. -/
theorem rebound (hl : Merged init name g image e l)
    (hscopes : g.Enters init (e'.scopes.map Prod.fst))
    (houter : ∀ outer, outer <:+ e'.scopes → ∃ outer₀, outer₀ <:+ e.scopes ∧
      Elaboration.netIn e'.root outer name = Elaboration.netIn e.root outer₀ name ∧
        ∀ v ∈ l, v.name = name →
          (v.scopes <:+ outer.map Prod.fst ↔ v.scopes <:+ outer₀.map Prod.fst)) :
    Merged init name g image e' l := by
  refine ⟨hscopes, hl.visited, fun outer s ho hbound => ?_, hl.settled,
    fun hapart outer ho v hv hname hv' => ?_, hl.agreed⟩
  · obtain ⟨outer₀, ho₀, hsame, hiff⟩ := houter outer ho
    obtain ⟨v, hv, hname, hv', hs⟩ := hl.known outer₀ s ho₀ (hsame.symm.trans hbound)
    exact ⟨v, hv, hname, (hiff v hv hname).2 hv', hs⟩
  · obtain ⟨outer₀, ho₀, hsame, hiff⟩ := houter outer ho
    exact hsame.trans (hl.found hapart outer₀ ho₀ v hv hname ((hiff v hv hname).1 hv'))

/-- What is recorded besides does not count. -/
theorem record {w : Frame → Frame} (hl : Merged init name g image e l)
    (hw : ∀ f, (w f).nets.get? name = f.nets.get? name) :
    Merged init name g image (e.record w) l := by
  refine hl.rebound (by rw [Elaboration.scopes_record]; exact hl.scopes) fun outer houter => ?_
  rcases Elaboration.suffix_record houter with rfl | ⟨houter, -, hroot⟩
  · refine ⟨e.scopes, List.suffix_rfl, Elaboration.netIn_record hw, fun v _ _ => ?_⟩
    rw [Elaboration.scopes_record]
  · exact ⟨outer, houter, by rw [hroot], fun _ _ _ => .rfl⟩

/-- A scope is entered in which no net was reached before. -/
theorem enter (hl : Merged init name g image e l) (hs : g.contains s = true)
    (hnew : ∀ v ∈ l, v.name = name → v.scopes ≠ s :: e.scopes.map Prod.fst) :
    Merged init name g image (e.enter s) l := by
  obtain ⟨inner, hinner, hlive⟩ := hl.scopes
  refine hl.rebound ⟨s :: inner, congrArg (s :: ·) hinner, List.forall_mem_cons.2 ⟨hs, hlive⟩⟩
    fun outer houter => ?_
  rcases List.suffix_cons_iff.1 houter with rfl | houter
  · refine ⟨e.scopes, List.suffix_rfl, Elaboration.netIn_cons, fun v hv hname => ?_⟩
    rw [List.map_cons, List.suffix_cons_iff, or_iff_right (hnew v hv hname)]
  · exact ⟨outer, houter, rfl, fun _ _ _ => .rfl⟩

/-- No net was reached in a scope that there was not yet. -/
theorem ne_cons (hl : Merged init name g image e l) (hs : g.contains s = false) :
    ∀ v ∈ l, v.name = name → v.scopes ≠ s :: e.scopes.map Prod.fst := by
  intro v hv hname hscopes
  obtain ⟨⟨inner, hinner, hlive⟩, -⟩ := hl.visited v hv hname
  obtain ⟨inner', hinner', -⟩ := hl.scopes
  have happend : inner ++ init = (s :: inner') ++ init := by
    rw [← hinner, hscopes, hinner', List.cons_append]
  rw [List.append_cancel_right happend] at hlive
  rw [hlive s List.mem_cons_self] at hs
  cases hs

/-- The innermost scope is left. -/
theorem leave (hl : Merged init name g image e l) (s : Ref)
    (hscopes : g.Enters init (e.scopes.tail.map Prod.fst)) :
    Merged init name g image (e.leave s) l := by
  rw [Elaboration.leave]
  split
  · rename_i t f rest hscopes'
    rw [hscopes'] at hscopes
    split
    · refine hl.rebound hscopes fun outer houter => ?_
      exact ⟨outer, hscopes' ▸ houter.trans (List.suffix_cons _ _), rfl, fun _ _ _ => .rfl⟩
    · exact hl
  · exact hl

/-- The visit of a net of another name does not count. -/
theorem other (hl : Merged init name g image e l) (hv : v.name ≠ name) :
    Merged init name g image e (l ++ [v]) := by
  have hmem {u : Visit} (hu : u ∈ l ++ [v]) (hname : u.name = name) : u ∈ l := by
    rcases List.mem_append.1 hu with hu | hu
    · exact hu
    · exact absurd (List.mem_singleton.1 hu ▸ hname) hv
  refine ⟨hl.scopes, fun u hu hname => hl.visited u (hmem hu hname) hname,
    fun outer s ho hbound => ?_, hl.settled.append fun hname => absurd hname hv,
    fun hapart outer ho u hu hname => ?_,
    fun hapart => (hl.agreed hapart.of_append).append fun hname => absurd hname hv⟩
  · obtain ⟨u, hu, hu'⟩ := hl.known outer s ho hbound
    exact ⟨u, List.mem_append_left _ hu, hu'⟩
  · exact hl.found hapart.of_append outer ho u (hmem hu hname) hname

/-- A net that was reached in the innermost scope has become an object. -/
theorem visited_append (hl : Merged init name g image e l)
    (hscopes : v.scopes = e.scopes.map Prod.fst) (himage : image v.net = some s)
    (hlive : g.contains s = true) : ∀ u ∈ l ++ [v], u.name = name →
      g.Enters init u.scopes ∧ ∃ s, image u.net = some s ∧ g.contains s = true := by
  intro u hu hname
  rcases List.mem_append.1 hu with hu | hu
  · exact hl.visited u hu hname
  · obtain rfl := List.mem_singleton.1 hu
    exact ⟨hscopes ▸ hl.scopes, s, himage, hlive⟩

/-- A net is taken for the one that is bound to its name. -/
theorem take (hl : Merged init name g image e l) (hv : v.name = name)
    (hscopes : v.scopes = e.scopes.map Prod.fst)
    (hnet : Elaboration.netIn e.root e.scopes name = some s) (himage : image v.net = some s) :
    Merged init name g image e (l ++ [v]) := by
  -- The net was bound by an earlier visit, and this one is of the same clone.
  obtain ⟨u, hu, huname, huscopes, hus⟩ := hl.known _ s List.suffix_rfl hnet
  have hlive : g.contains s = true := by
    obtain ⟨-, t, ht, hlive⟩ := hl.visited u hu huname
    obtain rfl := Option.some.inj (hus.symm.trans ht)
    exact hlive
  refine ⟨hl.scopes, hl.visited_append hscopes himage hlive, fun outer t ho hbound => ?_,
    hl.settled.append fun _ => .inl ⟨u, hu, huname.trans hv.symm, hscopes ▸ huscopes,
      hus.trans himage.symm⟩, fun hapart outer ho w hw hname hws => ?_,
    fun hapart => (hl.agreed hapart.of_append).append fun _ w hw hname hws => ?_⟩
  · obtain ⟨w, hw, hw'⟩ := hl.known outer t ho hbound
    exact ⟨w, List.mem_append_left _ hw, hw'⟩
  · rcases List.mem_append.1 hw with hw | hw
    · exact hl.found hapart.of_append outer ho w hw hname hws
    · -- The visit was in the innermost scope.
      obtain rfl := List.mem_singleton.1 hw
      obtain rfl : outer = e.scopes := by
        refine ho.eq_of_length (le_antisymm ho.length_le ?_)
        simpa [hscopes] using hws.length_le
      rw [hnet, himage]
  · have hfound := hl.found hapart.of_append _ List.suffix_rfl w hw (hname.trans hv)
      (hscopes ▸ hws)
    rw [← hfound, hnet, himage]

/-- A net of a name for which nothing was bound is new, and is bound. If those of
    the name were reached apart, none was in a scope around. -/
theorem make (hl : Merged init name g image e l) (hv : v.name = name)
    (hscopes : v.scopes = e.scopes.map Prod.fst) (himage : image v.net = some s)
    (hlive : g.contains s = true) (hnew : ∀ u ∈ l, u.name = name → image u.net ≠ some s)
    (hnone : Visit.Apart name l → ∀ u ∈ l, u.name = name → ¬ u.scopes <:+ v.scopes) :
    Merged init name g image (Bindings.recordNet e name s) (l ++ [v]) := by
  have hfirst : (Bindings.recordNet e name s).scopes.map Prod.fst = v.scopes :=
    Elaboration.scopes_record.trans hscopes.symm
  have hlength : v.scopes.length = e.scopes.length := by rw [hscopes, List.length_map]
  refine ⟨hfirst ▸ hscopes ▸ hl.scopes, hl.visited_append hscopes himage hlive,
    fun outer t ho hbound => ?_, hl.settled.append fun _ => .inr fun w hw hname => ?_,
    fun hapart outer ho w hw hname hws => ?_, fun hapart =>
      (hl.agreed hapart.of_append).append fun _ w hw hname hws => ?_⟩
  · -- Recording changes the innermost scope and no other.
    rcases Elaboration.suffix_record ho with rfl | ⟨ho', hlt, hroot⟩
    · refine ⟨v, List.mem_append_right _ (List.mem_singleton_self v), hv, ?_, ?_⟩
      · rw [← hfirst]
        exact List.suffix_rfl
      · rw [himage, ← hbound]
        exact Elaboration.netIn_recordNet.symm
    · have hbound' : Elaboration.netIn e.root outer name = some t := hroot ▸ hbound
      obtain ⟨w, hw, hw'⟩ := hl.known outer t ho' hbound'
      exact ⟨w, List.mem_append_left _ hw, hw'⟩
  · rw [himage]
    exact hnew w hw (hname.trans hv)
  · have hapart := hapart.of_append
    rcases Elaboration.suffix_record ho with rfl | ⟨ho', hlt, hroot⟩
    · -- In the innermost scope, the new clone is found, and no other was.
      rcases List.mem_append.1 hw with hw | hw
      · exact absurd (hfirst ▸ hws) (hnone hapart w hw hname)
      · obtain rfl := List.mem_singleton.1 hw
        exact Elaboration.netIn_recordNet.trans himage.symm
    · rcases List.mem_append.1 hw with hw | hw
      · have hsame := hl.found hapart outer ho' w hw hname hws
        rwa [← hroot] at hsame
      · obtain rfl := List.mem_singleton.1 hw
        have hle := hws.length_le
        rw [hlength, List.length_map] at hle
        exact absurd hlt (Nat.not_lt_of_le hle)
  · exact absurd hws (hnone hapart.of_append w hw (hname.trans hv))

end Merged

end ObjectModel
