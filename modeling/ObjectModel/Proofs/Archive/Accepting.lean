import ObjectModel.Proofs.Archive.Restoring
import ObjectModel.Proofs.Archive.Taking

/-!
# What is restored was in the archive

Bytes that are restored begin with an archive (`Model.exists_archive_of_restore`).
The graph has the objects that the archive has entries for, and each is what its
entry says, given the symbols (`Restoring.Holds`). This is the converse of restoring
what was saved, and holds of all bytes.
-/

namespace ObjectModel

open Wire Archive

namespace Restoring

variable {t : SymbolTable} {g : Graph}

/-! ## Symbols -/

/-- The symbols that were entered are the texts that were read. -/
theorem texts_of_run {n : Nat} {unread : List UInt8} {room : Room} {l : List Unit} {s : Restoration}
    (h : (times Restoring.takeText n).run ⟨unread, t, g, room⟩ = (.ok l, s)) :
    ∃ texts rest, texts.length = n ∧ s = ⟨rest, t.internAll texts, g, room⟩ ∧
      unread = encodeAll (texts.map .text) ++ rest ∧ ∀ s ∈ texts, s.utf8ByteSize < 2 ^ 32 := by
  induction n generalizing unread t l with
  | zero =>
    cases h
    exact ⟨[], unread, rfl, rfl, rfl, fun _ hs => absurd hs List.not_mem_nil⟩
  | succ n ih =>
    obtain ⟨_, s₁, htext, h₁⟩ := exists_run_bind_ok h
    obtain ⟨l', s₂, htimes, h₂⟩ := exists_run_bind_ok h₁
    cases h₂
    obtain ⟨text, s₃, htake, h₃⟩ := exists_run_bind_ok htext
    cases h₃
    obtain ⟨rest, rfl, hread⟩ := exists_of_run_take htake
    obtain ⟨_, rfl, rfl, hsize⟩ := takeText_takes _ _ _ hread
    obtain ⟨texts, rest', rfl, rfl, rfl, htexts⟩ := ih htimes
    refine ⟨text :: texts, rest', rfl, rfl, ?_, List.forall_mem_cons.2 ⟨hsize, htexts⟩⟩
    rw [List.map_cons, encodeAll_cons, List.append_assoc]

/-- Symbols are read as a count and as many texts. -/
theorem symbols_of_run {unread : List UInt8} {room : Room} {s : Restoration}
    (h : takeSymbols.run ⟨unread, {}, g, room⟩ = (.ok (), s)) :
    ∃ texts rest, texts.length < 2 ^ 32 ∧ s = ⟨rest, ({} : SymbolTable).internAll texts, g, room⟩ ∧
      unread = encodeAll (countItem texts.length :: texts.map .text) ++ rest ∧
        ∀ s ∈ texts, s.utf8ByteSize < 2 ^ 32 := by
  obtain ⟨n, s₁, hcount, h₁⟩ := exists_run_bind_ok h
  obtain ⟨_, s₂, htimes, h₂⟩ := exists_run_bind_ok h₁
  cases h₂
  obtain ⟨rest, rfl, hread⟩ := exists_of_run_take hcount
  obtain ⟨hn, rfl⟩ := eq_append_of_run_takeCount hread
  obtain ⟨texts, rest', rfl, rfl, rfl, htexts⟩ := texts_of_run htimes
  refine ⟨texts, rest', hn, rfl, ?_, htexts⟩
  rw [encodeAll_cons, encode_countItem hn, List.append_assoc]

/-! ## Objects -/

/-- A change that succeeds leaves the rest as it was. -/
theorem graph_of_run_changeGraph {f : Graph → Except GraphError Graph} {s s' : Restoration}
    (h : (changeGraph f).run s = (.ok (), s')) :
    ∃ g', f s.graph = .ok g' ∧ s' = { s with graph := g' } := by
  unfold changeGraph at h
  rw [ExceptT.run] at h
  split at h
  · cases h
    exact ⟨_, ‹_›, rfl⟩
  · cases congrArg Prod.fst h

theorem count_of_run {n : Nat} {room : Room} {unread : List UInt8} {s : Restoration}
    (h : (take (takeNat 4)).run ⟨unread, t, g, room⟩ = (.ok n, s)) :
    ∃ rest, n < 2 ^ 32 ∧ s = ⟨rest, t, g, room⟩ ∧ unread = (countItem n).encode ++ rest := by
  obtain ⟨rest, rfl, hread⟩ := exists_of_run_take h
  obtain ⟨hn, rfl⟩ := eq_append_of_run_takeNat hread
  exact ⟨rest, hn, rfl, by rw [encode_countItem hn]⟩

/-- A check of a count changes nothing. -/
theorem eq_of_run_checkCount {count minSize : Nat} {s s' : Restoration}
    (h : (take (checkCount count minSize)).run s = (.ok (), s')) : s' = s := by
  obtain ⟨rest, rfl, hread⟩ := exists_of_run_take h
  rw [run_checkCount_eq] at hread
  split at hread
  · cases congrArg Prod.fst hread
  · cases hread
    rfl

/-- Where so many objects have been made, there were ids for them. -/
theorem idsLeft_of_run_times {tag k : Nat} {l : List Unit} {s s' : Restoration}
    (h : (times (makeObject tag) k).run s = (.ok l, s')) : s.graph.IdsLeft k := by
  induction k generalizing s l with
  | zero => exact s.graph.lastId.toNat_lt
  | succ k ih =>
    obtain ⟨_, s₁, hmake, h⟩ := exists_run_bind_ok h
    obtain ⟨l, s₂, hl, h⟩ := exists_run_bind_ok h
    cases h
    obtain ⟨g₁, hg₁, rfl⟩ := graph_of_run_changeGraph hmake
    obtain ⟨⟨r, g₁⟩, hcreate, rfl⟩ := map_eq_ok.1 hg₁
    obtain ⟨hleft, l, -, -, rfl⟩ := Graph.createTag_spec hcreate
    have hrest := ih hl
    rw [Graph.IdsLeft, Graph.lastId_add, Graph.toNat_succ hleft] at hrest
    rw [Graph.IdsLeft]
    omega

/-- The number of objects of a tag, among those that have been counted. -/
def countOf (counts : List (Nat × Nat)) (tag : Nat) : Nat :=
  (counts.find? (·.1 == tag)).elim 0 Prod.snd

/-- A tag that does not come again has the number that is counted for it. -/
theorem countOf_cons {counts : List (Nat × Nat)} {tag : Nat} (hnew : tag ∉ counts.map Prod.fst)
    (count u : Nat) : countOf ((tag, count) :: counts) u =
      (if u = tag then count else 0) + countOf counts u := by
  rw [countOf, countOf]
  by_cases hu : u = tag
  · subst hu
    have hnone : counts.find? (·.1 == u) = none := by
      rw [List.find?_eq_none]
      exact fun c hc heq => hnew (List.mem_map.2 ⟨c, hc, beq_iff_eq.1 heq⟩)
    rw [if_pos rfl, hnone, List.find?_cons, beq_self_eq_true]
    rfl
  · rw [if_neg hu, Nat.zero_add, List.find?_cons_of_neg (by simpa using Ne.symm hu)]

/-- What comes first is the expected tag and the number of its objects, which are made
    before the next tag. -/
theorem exists_of_run_takeCounts_cons {m : Model} (hm : m.Built) {expected : Nat} {e : Entity}
    (he : m.schema.entityAt? expected = some e) (hc : e.kind.isConcrete = true) {n : Nat → Nat}
    (hg : Counts m n g) {total : Nat} {tags : List Nat} {room : Room} {unread : List UInt8}
    {counts : List (Nat × Nat)} {s : Restoration}
    (h : (takeCounts total (expected :: tags)).run ⟨unread, t, g, room⟩ = (.ok counts, s)) :
    ∃ k counts' rest g₁, counts = (expected, k) :: counts' ∧ expected < 2 ^ 32 ∧ k < 2 ^ 32 ∧
      unread = (countItem expected).encode ++ ((countItem k).encode ++ rest) ∧
      Counts m (fun u => n u + if u = expected then k else 0) g₁ ∧
      (takeCounts (total + k) tags).run ⟨rest, t, g₁, room⟩ = (.ok counts', s) := by
  obtain ⟨tag, s₁, htag, h₁⟩ := exists_run_bind_ok h
  obtain ⟨rest₁, htaglt, rfl, rfl⟩ := count_of_run htag
  dsimp only at h₁
  split at h₁
  · cases congrArg Prod.fst h₁
  rename_i heq
  obtain rfl := not_not.1 heq
  obtain ⟨count, s₂, hcount, h₂⟩ := exists_run_bind_ok h₁
  obtain ⟨rest₂, hcountlt, rfl, rfl⟩ := count_of_run hcount
  obtain ⟨_, s₃, hcheck, h₃⟩ := exists_run_bind_ok h₂
  obtain rfl := eq_of_run_checkCount hcheck
  obtain ⟨_, s₄, hmake, h₄⟩ := exists_run_bind_ok h₃
  -- That so many objects are made is known, as there were ids for them.
  obtain ⟨l, g₁, hmake', hg₁, -⟩ : ∃ l g₁, (times (makeObject tag) count).run
      ⟨rest₂, t, g, room⟩ = (.ok l, ⟨rest₂, t, g₁, room⟩) ∧
        Counts m (fun u => n u + if u = tag then count else 0) g₁ ∧ _ :=
    run_times_makeObject hm he hc hg (idsLeft_of_run_times hmake)
  cases hmake'.symm.trans hmake
  obtain ⟨counts', s₅, hcounts, h₅⟩ := exists_run_bind_ok h₄
  cases h₅
  exact ⟨count, counts', rest₂, g₁, rfl, htaglt, hcountlt, rfl, hg₁, hcounts⟩

/-- The objects of the tags are counted and made. -/
theorem counts_of_run {m : Model} (hm : m.Built) {tags : List Nat} (hnodup : tags.Nodup)
    (htags : ∀ tag ∈ tags, ∃ e, m.schema.entityAt? tag = some e ∧ e.kind.isConcrete = true)
    {n : Nat → Nat} (hg : Counts m n g) {total : Nat} {room : Room} {unread : List UInt8}
    {counts : List (Nat × Nat)} {s : Restoration}
    (h : (takeCounts total tags).run ⟨unread, t, g, room⟩ = (.ok counts, s)) :
    ∃ rest g', s = ⟨rest, t, g', room⟩ ∧
      unread = encodeAll (counts.flatMap fun c => [countItem c.1, countItem c.2]) ++ rest ∧
      counts.map Prod.fst = tags ∧ (∀ c ∈ counts, c.1 < 2 ^ 32 ∧ c.2 < 2 ^ 32) ∧
      Counts m (fun u => n u + countOf counts u) g' := by
  induction tags generalizing n g total unread counts with
  | nil =>
    cases h
    exact ⟨unread, g, rfl, rfl, rfl, fun _ hc => absurd hc List.not_mem_nil, hg⟩
  | cons expected tags ih =>
    obtain ⟨hnew, hnodups⟩ := List.nodup_cons.1 hnodup
    obtain ⟨e, he, hc⟩ := htags expected List.mem_cons_self
    obtain ⟨k, counts', rest₁, g₁, rfl, htag, hk, rfl, hg₁, hcounts⟩ :=
      exists_of_run_takeCounts_cons hm he hc hg h
    obtain ⟨rest, g', rfl, rfl, rfl, hlt, hg'⟩ :=
      ih hnodups (fun u hu => htags u (List.mem_cons_of_mem _ hu)) hg₁ hcounts
    refine ⟨rest, g', rfl, ?_, rfl, List.forall_mem_cons.2 ⟨⟨htag, hk⟩, hlt⟩, hg'.model,
      hg'.stores, fun u => ?_⟩
    · rw [List.flatMap_cons, encodeAll_append, encodeAll_cons, encodeAll_singleton,
        List.append_assoc, List.append_assoc]
    · rw [hg'.count, Nat.add_assoc, countOf_cons hnew]

/-! ## Objects -/

/-- The entry says what the object of a reference in `g` is, given the symbols. It
    suits the entity, and means objects of `g`. -/
structure Recorded (t : SymbolTable) (g : Graph) (r : Ref) (x : Entry) : Prop where
  suits : ∃ e, g.schema.entityAt? r.tag = some e ∧ e.kind.isConcrete = true ∧
    x.Suits (g.schema.membersBaseFirst e)
  denotes : ∃ o, g.object? r = some o ∧ x.Denotes t o ∧ ∀ s ∈ o.neighbours, g.contains s = true

variable {h : Graph} {D E : Set Ref} {r : Ref} {entry : Entry}

/-- What an object has from its entry it keeps while others are read. -/
theorem Recorded.spares (hr : Recorded t g r entry) (hgh : g.Spares D h) (hD : r ∉ D) :
    Recorded t h r entry where
  suits := by
    rw [Graph.schema, hgh.model]
    exact hr.suits
  denotes := by
    obtain ⟨o, ho, hdenotes, hlive⟩ := hr.denotes
    exact ⟨o, (hgh.others r hD).trans ho, hdenotes, fun s hs => (hgh.contains s).trans (hlive s hs)⟩

/-- An object that was read is what its entry says, and no other object has changed. -/
theorem object_of_run {unread : List UInt8} {room : Room} {s : Restoration} (hm : g.model.Built)
    (hrun : (takeObject r).run ⟨unread, t, g, room⟩ = (.ok (), s)) :
    ∃ (x : Entry) (rest : List UInt8) (h : Graph) (room' : Room), s = ⟨rest, t, h, room'⟩ ∧
      unread = encodeAll x.items ++ rest ∧ g.Spares {r} h ∧ Recorded t h r x := by
  obtain ⟨header, s₁, hheader, hrun₁⟩ := exists_run_bind_ok hrun
  obtain ⟨_, rest₁, room₁, rfl, rfl, heading, hlength, rfl, hheading, hparent, hchildren⟩ :=
    takeHeader_takes _ _ _ _ hheader
  obtain ⟨_, s₂, hupdate, hrun₂⟩ := exists_run_bind_ok hrun₁
  obtain ⟨g₁, hg₁, rfl⟩ := graph_of_run_changeGraph hupdate
  obtain ⟨made, hmade, hg₁⟩ := bind_eq_ok.1 hg₁
  obtain rfl := pure_eq_ok.1 hg₁
  obtain ⟨members, s₃, hmembers, hrun₃⟩ := exists_run_bind_ok hrun₂
  obtain ⟨hlayout, rfl⟩ := Prod.mk.inj hmembers
  obtain ⟨l, hl, rfl⟩ := map_eq_ok.1 hlayout
  -- The members come from the layout of the model, not from the bytes.
  obtain ⟨e, he, hconcrete, hof⟩ := hm.layout_eq hl
  rw [Layout.members_ofMembers hof] at hrun₃
  obtain ⟨values, s₄, hvalues, hrun₄⟩ := exists_run_bind_ok hrun₃
  obtain ⟨_, rest₂, room₂, rfl, rfl, fields, rfl, hsuits, hfields⟩ :=
    Takes.mapM (fun m _ => takeValue_takes m) _ _ _ _ hvalues
  obtain ⟨h, hset, rfl⟩ := graph_of_run_changeGraph hrun₄
  obtain ⟨made₁, hmade₁, hset⟩ := bind_eq_ok.1 hset
  obtain rfl := pure_eq_ok.1 hset
  have hspares := (Graph.spares_modify (g := g) (f := fun o => { o with header })
    (Set.mem_singleton r)).trans
      (Graph.spares_modify (f := fun o => { o with values }) (Set.mem_singleton r))
  refine ⟨⟨heading, fields⟩, rest₂, _, room₂, rfl, ?_, hspares, ⟨e, he, hconcrete, hlength, hsuits⟩,
    ⟨header, values⟩, ?_, ⟨hheading, hfields.imp fun _ _ h => h.1⟩, fun s hs => ?_⟩
  · rw [Entry.items, encodeAll_append, List.append_assoc]
  · rw [Graph.object?_modify_self, Graph.object?_modify_self, Graph.object_eq_ok.1 hmade]
    rfl
  · -- Every reference was checked as it was read, in the graph before the values were set.
    rw [hspares.contains]
    rcases Object.mem_neighbours.1 hs with hs | hs | ⟨v, hv, hs⟩
    · exact hparent s hs
    · exact hchildren s hs
    · have hlive := List.Forall₂.flip (hfields.imp fun _ _ h => h.symm)
      exact (Graph.contains_modify _).symm.trans (((List.forall₂_and_left _ _).1 hlive).1 v hv s hs)

/-- Objects are read one after the other, and no others change. -/
theorem entries_of_run {todo : List Ref} (hnodup : todo.Nodup) {unread : List UInt8} {room : Room}
    {s : Restoration} (hm : g.model.Built)
    (hrun : (todo.forM takeObject).run ⟨unread, t, g, room⟩ = (.ok (), s)) :
    ∃ (entries : List Entry) (rest : List UInt8) (h : Graph) (room' : Room),
      s = ⟨rest, t, h, room'⟩ ∧ unread = encodeAll (entries.flatMap Entry.items) ++ rest ∧
        g.Spares {r | r ∈ todo} h ∧ List.Forall₂ (Recorded t h) todo entries := by
  induction todo generalizing g unread room with
  | nil =>
    cases hrun
    exact ⟨[], unread, g, room, rfl, rfl, .refl g _, .nil⟩
  | cons r todo ih =>
    obtain ⟨hnew, hnodups⟩ := List.nodup_cons.1 hnodup
    obtain ⟨_, s₁, hobject, hrun₁⟩ := exists_run_bind_ok hrun
    obtain ⟨entry, rest₁, g₁, room₁, rfl, rfl, hspares₁, hentry⟩ := object_of_run hm hobject
    obtain ⟨entries, rest, h, room', rfl, rfl, hspares, hentries⟩ :=
      ih hnodups (hspares₁.model ▸ hm) hrun₁
    -- entries, rest, h, room', rfl, ?_, ?_, :: The objects that
    -- follow are others, so this one stays as it was read.
    refine ⟨entry :: entries, rest, h, room', rfl, ?_, ?_,
      .cons (hentry.spares hspares hnew) hentries⟩
    · rw [List.flatMap_cons, encodeAll_append, List.append_assoc]
    · refine (hspares₁.mono ?_).trans (hspares.mono fun s hs => List.mem_cons_of_mem _ hs)
      rintro _ rfl
      exact List.mem_cons_self

/-- What is recorded of the objects of a tag, by position. -/
theorem recorded_of_forall₂ {tag count : Nat} {entries : List Entry}
    (hentries : List.Forall₂ (Recorded t g) ((List.range count).map (⟨tag, ·⟩)) entries) :
    entries.length = count ∧
      ∀ (i : Nat) (x : Entry), entries[i]? = some x → Recorded t g ⟨tag, i⟩ x := by
  obtain ⟨hlength, hget⟩ := List.forall₂_iff_get.1 hentries
  rw [List.length_map, List.length_range] at hlength
  refine ⟨hlength.symm, fun i x hx => ?_⟩
  obtain ⟨hi, rfl⟩ := List.getElem?_eq_some_iff.1 hx
  simpa using hget i (by simpa [hlength] using hi) hi

/-- The objects of the tags are read one tag after the other. -/
theorem sections_of_run {counts : List (Nat × Nat)} (hnodup : (counts.map Prod.fst).Nodup)
    {unread : List UInt8} {room : Room} {s : Restoration} (hm : g.model.Built)
    (hrun : (counts.forM fun (tag, count) =>
      (List.range count).forM fun index => takeObject ⟨tag, index⟩).run ⟨unread, t, g, room⟩ =
        (.ok (), s)) :
    ∃ (sections : List Archive.Section) (rest : List UInt8) (h : Graph) (room' : Room),
      s = ⟨rest, t, h, room'⟩ ∧
      unread = encodeAll (sections.flatMap fun s => s.entries.flatMap Entry.items) ++ rest ∧
      sections.map (fun s => (s.tag, s.entries.length)) = counts ∧
      g.Spares {r | r.tag ∈ counts.map Prod.fst} h ∧
      ∀ s ∈ sections, ∀ (i : Nat) (x : Entry), s.entries[i]? = some x →
        Recorded t h ⟨s.tag, i⟩ x := by
  induction counts generalizing g unread room with
  | nil =>
    cases hrun
    exact ⟨[], unread, g, room, rfl, rfl, rfl, .refl g _, fun _ h => absurd h List.not_mem_nil⟩
  | cons entry counts ih =>
    obtain ⟨tag, count⟩ := entry
    obtain ⟨hnew, hnodups⟩ := List.nodup_cons.1 hnodup
    obtain ⟨_, s₁, hfirst, hrun₁⟩ := exists_run_bind_ok hrun
    have hfirst' : (((List.range count).map (⟨tag, ·⟩)).forM takeObject).run ⟨unread, t, g, room⟩ =
        (.ok (), s₁) := by
      rw [List.forM_eq_forM, List.forM_map]
      exact hfirst
    -- The places of one section are different, so no object is written twice.
    have hrefs : ((List.range count).map (Ref.mk tag)).Nodup := by
      refine List.nodup_range.map fun i j h => ?_
      exact congrArg Ref.index h
    obtain ⟨entries, rest₁, g₁, room₁, rfl, rfl, hspares₁, hentries⟩ :=
      entries_of_run hrefs hm hfirst'
    obtain ⟨sections, rest, h, room', rfl, rfl, rfl, hspares, hrecorded⟩ :=
      ih hnodups (hspares₁.model ▸ hm) hrun₁
    obtain ⟨hlength, hfirsts⟩ := recorded_of_forall₂ hentries
    refine ⟨⟨tag, entries⟩ :: sections, rest, h, room', rfl, ?_, ?_, ?_, ?_⟩
    · rw [List.flatMap_cons, encodeAll_append, List.append_assoc]
    · rw [List.map_cons, hlength]
    · refine (hspares₁.mono ?_).trans (hspares.mono fun s hs => List.mem_cons_of_mem _ hs)
      intro s hs
      obtain ⟨i, -, rfl⟩ := List.mem_map.1 hs
      exact List.mem_cons_self
    · -- The tag does not come again, so its objects stay as they are.
      exact List.forall_mem_cons.2
        ⟨fun i x hx => (hfirsts i x hx).spares hspares hnew, hrecorded⟩

/-- The roots were checked, and name objects. -/
theorem roots_of_run {roots : List Ref} {s s' : Restoration}
    (hrun : (roots.forM checkRef).run s = (.ok (), s')) :
    s' = s ∧ ∀ r ∈ roots, s.graph.contains r = true := by
  induction roots with
  | nil =>
    cases hrun
    exact ⟨rfl, fun _ hr => absurd hr List.not_mem_nil⟩
  | cons r roots ih =>
    obtain ⟨_, s₁, hfirst, hrun₁⟩ := exists_run_bind_ok hrun
    obtain ⟨rfl, hr⟩ := contains_of_run_checkRef hfirst
    exact (ih hrun₁).imp_right fun hroots => List.forall_mem_cons.2 ⟨hr, hroots⟩

/-! ## Archives -/

/-- What is recorded of the objects of an entity suits its members. -/
theorem suits_of_recorded {s : Archive.Section} {e : Entity}
    (he : g.schema.entityAt? s.tag = some e)
    (hrecorded : ∀ (i : Nat) (x : Entry), s.entries[i]? = some x → Recorded t g ⟨s.tag, i⟩ x) :
    ∀ x ∈ s.entries, x.Suits (g.schema.membersBaseFirst e) := by
  intro x hx
  obtain ⟨i, hi⟩ := List.mem_iff_getElem?.1 hx
  obtain ⟨e', he', -, hsuits⟩ := (hrecorded i x hi).suits
  obtain rfl := Option.some.inj (he.symm.trans he')
  exact hsuits

/-- What is recorded in the sections is recorded in the archive. -/
theorem recorded_of_entry? {a : Archive} {x : Entry} (hx : a.entry? r = some x)
    (hrecorded : ∀ s ∈ a.sections, ∀ (i : Nat) (x : Entry), s.entries[i]? = some x →
      Recorded t g ⟨s.tag, i⟩ x) : Recorded t g r x := by
  obtain ⟨s, hs, hx⟩ := Option.bind_eq_some_iff.1 hx
  have htag : s.tag = r.tag := beq_iff_eq.1 (List.find?_some hs :)
  have hr : (⟨s.tag, r.index⟩ : Ref) = r := by rw [htag]
  exact hr ▸ hrecorded s (List.mem_of_find?_eq_some hs) r.index x hx

/-- There are entries for as many objects of a tag as are counted for it. -/
theorem exists_entry?_iff {a : Archive} : (∃ x, a.entry? r = some x) ↔
    r.index < countOf (a.sections.map fun s => (s.tag, s.entries.length)) r.tag := by
  rw [countOf, List.find?_map, entry?]
  change (∃ x, (a.sections.find? fun s => s.tag == r.tag).bind _ = some x) ↔
    _ < ((a.sections.find? fun s => s.tag == r.tag).map _).elim 0 Prod.snd
  cases a.sections.find? fun s => s.tag == r.tag with
  | none => simp
  | some s => exact ⟨fun ⟨x, hx⟩ => (List.getElem?_eq_some_iff.1 hx).1,
      fun hlt => ⟨_, List.getElem?_eq_getElem hlt⟩⟩

/-- The graph is what the archive says: it has the objects that there are entries
    for, and each is what its entry says. -/
structure Holds (a : Archive) (g : Graph) (roots : List Ref) : Prop where
  conforms : a.Conforms g.model
  roots : targets a.roots = roots
  live : ∀ r ∈ targets a.roots, g.contains r = true
  contains : ∀ r, g.contains r = true ↔ ∃ x, a.entry? r = some x
  recorded : ∀ r x, a.entry? r = some x → Recorded a.table g r x

/-- The sections of the archive are found in the order in which they were read. -/
theorem archive_of_run {m : Model} (hm : m.Built) (hnum : m.schema.Numbered) {bytes : List UInt8}
    {roots : List Ref} {s : Restoration}
    (hrun : takeArchive.run (.start m bytes) = (.ok roots, s)) :
    ∃ a : Archive, bytes = encodeAll a.items ++ s.unread ∧ s.graph.model = m ∧
      Holds a s.graph roots := by
  -- The parts of the archive, one after the other.
  obtain ⟨preamble, s₁, hpreamble, hrun₁⟩ := exists_run_bind_ok hrun
  obtain ⟨rest₁, rfl, hread⟩ := exists_of_run_take hpreamble
  obtain ⟨_, hbytes, rfl, hmagic, hversion⟩ := takePreamble_takes _ _ _ hread
  obtain rfl : bytes = _ := hbytes
  obtain ⟨_, s₂, hsymbols, hrun₂⟩ := exists_run_bind_ok hrun₁
  obtain ⟨texts, rest₂, hlength, rfl, rfl, htexts⟩ := symbols_of_run hsymbols
  obtain ⟨roots, s₃, hroots, hrun₃⟩ := exists_run_bind_ok hrun₂
  obtain ⟨_, rest₃, room₃, rfl, rfl, pointers, hpointers, rfl, rfl⟩ :=
    takeRoots_takes _ _ _ _ hroots
  obtain ⟨tags, s₄, htags, hrun₄⟩ := exists_run_bind_ok hrun₃
  cases htags
  obtain ⟨counts, s₅, hcounts, hrun₅⟩ := exists_run_bind_ok hrun₄
  have hconcrete : ∀ tag ∈ m.schema.concrete.map (·.tag),
      ∃ e, m.schema.entityAt? tag = some e ∧ e.kind.isConcrete = true :=
    fun tag htag => hnum.mem_concrete.1 htag
  have hnodup := hnum.concrete_ascending.imp Nat.ne_of_lt
  obtain ⟨rest₅, g₁, rfl, rfl, hcountTags, hlt, hmade⟩ :=
    counts_of_run hm hnodup hconcrete (.empty m) hcounts
  obtain ⟨_, s₆, hobjects, hrun₆⟩ := exists_run_bind_ok hrun₅
  have hbuilt : g₁.model.Built := hmade.model ▸ hm
  obtain ⟨sections, rest₆, g₂, room₆, rfl, rfl, rfl, hspares, hrecorded⟩ :=
    sections_of_run (hcountTags ▸ hnodup) hbuilt hobjects
  obtain ⟨_, s₇, hlast, hrun₇⟩ := exists_run_bind_ok hrun₆
  obtain ⟨g₃, hg₃, rfl⟩ := graph_of_run_changeGraph hlast
  obtain rfl := pure_eq_ok.1 hg₃
  obtain ⟨_, s₈, hcheck, hrun₈⟩ := exists_run_bind_ok hrun₇
  obtain ⟨rfl, hlive⟩ := roots_of_run hcheck
  cases hrun₈
  obtain rfl : g₂.model = m := hspares.model.trans hmade.model
  rw [List.map_map] at hcountTags
  refine ⟨⟨preamble, texts, pointers, sections⟩, ?_, rfl,
    ⟨hmagic, hversion, hlength, htexts, hpointers, hcountTags, List.forall_mem_map.1 hlt, ?_⟩, rfl,
    hlive, fun r => ?_, fun r x hx => ?_⟩
  · simp only [Archive.items, encodeAll_append, encodeAll_cons, List.append_assoc, List.flatMap_map]
    rfl
  · intro s hs
    obtain ⟨e, he, -⟩ := hconcrete s.tag (hcountTags ▸ List.mem_map_of_mem hs)
    exact ⟨e, he, suits_of_recorded (g := g₂) he (hrecorded s hs)⟩
  · change g₂.contains r = true ↔ _
    rw [hspares.contains, Graph.contains_iff_index_lt, hmade.count, Nat.zero_add, exists_entry?_iff]
  · obtain ⟨hsuits, hdenotes⟩ := recorded_of_entry? hx hrecorded
    exact ⟨hsuits, hdenotes⟩

end Restoring

/-- Bytes that are restored begin with an archive, and what is restored is what the
    archive says. -/
theorem Model.exists_archive_of_restore {m : Model} {g : Graph} {roots : List Ref}
    {bytes : List UInt8} (hm : m.Built) (hnum : m.schema.Numbered)
    (h : m.restore bytes = .ok (g, roots)) :
    ∃ (a : Archive) (rest : List UInt8), bytes = encodeAll a.items ++ rest ∧ g.model = m ∧
      Restoring.Holds a g roots := by
  rw [Model.restore] at h
  rcases hrun : Restoring.takeArchive.run (.start m bytes) with ⟨result, s⟩
  rw [hrun] at h
  obtain ⟨_, rfl, hresult⟩ := map_eq_ok.1 h
  cases hresult
  obtain ⟨a, hbytes, hmodel, ha⟩ := Restoring.archive_of_run hm hnum hrun
  exact ⟨a, _, hbytes, hmodel, ha⟩

end ObjectModel
