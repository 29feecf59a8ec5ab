import ObjectModel.Generation.Containers
import ObjectModel.Generation.Objects
import ObjectModel.Proofs.Adoption.Conditions
import ObjectModel.Proofs.Graph.Admitting

/-!
# Generated collectors

Generated code files a child in the buckets of its parent that are meant for its
type. These are listed when the code is generated (`Containers.filings`), each as
the member that its name leads to; graphs look them up by name when an object is
adopted (`Graph.bucketsFor`). Under a checked policy no bucket is lost on the way
(`PolicyTable.exists_bucket`), so where the members of a collector have different
names both come to the same lists, in the same order
(`Containers.bucketsFor_eq_filings`).
-/

namespace ObjectModel.Generation

/-- Dropping repeats commutes with a function that tells the elements apart. -/
theorem eraseDups_map {α β : Type} [BEq α] [LawfulBEq α] [BEq β] [LawfulBEq β] {f : α → β} :
    ∀ {l : List α}, (∀ a ∈ l, ∀ c ∈ l, f a = f c → a = c) →
      (l.map f).eraseDups = l.eraseDups.map f
  | [], _ => rfl
  | a :: l, h => by
    obtain ⟨ha, hl⟩ := List.forall_mem_cons.1 h
    have hsame : l.filter ((fun c => !c == f a) ∘ f) = l.filter fun c => !c == a := by
      refine List.filter_congr fun c hc => congrArg Bool.not ?_
      rw [Bool.eq_iff_iff, beq_iff_eq, beq_iff_eq]
      exact ⟨fun hf => (ha c (List.mem_cons_of_mem _ hc) hf.symm).symm, fun hca => hca ▸ rfl⟩
    have hrest : ∀ x ∈ l.filter fun c => !c == a, ∀ y ∈ l.filter fun c => !c == a,
        f x = f y → x = y := fun x hx y hy =>
      hl x (List.mem_of_mem_filter hx) y (List.mem_cons_of_mem _ (List.mem_of_mem_filter hy))
    rw [List.map_cons, List.eraseDups_cons, List.eraseDups_cons, List.map_cons, List.filter_map,
      hsame, eraseDups_map hrest]
termination_by l => l.length
decreasing_by exact Nat.lt_succ_of_le (List.length_filter_le _ _)

namespace Containers

variable {d : Declarations} {naming : Naming} {b : Blueprint} {e : Entity} {f : Filing}
  {m : Model}

section

variable (hs : d.toSchema naming = .ok b.schema) (hcheck : b.policy.check b.schema = .ok ())
  (he : e ∈ b.schema.entities) (hnames : ((b.members e).map (·.name)).Nodup)

include hs hcheck he hnames

/-- Each bucket that the policy names is found under its name, and is a list. -/
theorem exists_findMember? {level : Entity} (hlevel : level ∈ b.schema.levels e)
    {child bucket : String} (hentry : (child, bucket) ∈ b.policy.bucketsOf level.name) :
    ∃ om, b.schema.findMember? e bucket = some om ∧ om.2 ∈ b.members e ∧ om.2.name = bucket ∧
      om.2.isReference = true ∧ om.2.isMany = true := by
  obtain ⟨member, hmember, rfl, hlist⟩ :=
    PolicyTable.exists_bucket hs hcheck he (List.mem_reverse.1 hlevel) hentry
  obtain ⟨om, hom, rfl⟩ := Option.map_eq_some_iff.1 (RawSchema.findMember?_name hnames hmember)
  exact ⟨om, hom, hmember, rfl, hlist⟩

/-- What is generated for a collector has all that its policy says. -/
theorem map_filings : (filings b e).map (fun f => (f.child, f.bucket.name)) =
    (b.schema.levels e).flatMap fun level => b.policy.bucketsOf level.name := by
  rw [filings, List.map_flatMap]
  refine List.flatMap_congr fun level hlevel => ?_
  rw [List.map_filterMap]
  refine (List.filterMap_congr fun ⟨child, bucket⟩ hentry => ?_).trans List.filterMap_some
  obtain ⟨om, hom, -, hname, -⟩ := exists_findMember? hs hcheck he hnames hlevel hentry
  dsimp only
  rw [hom, Option.map_some, Option.map_some, hname]

/-- The buckets are lists of references among the members of the collector. -/
theorem bucket_of_mem_filings (hf : f ∈ filings b e) :
    f.bucket ∈ b.members e ∧ f.bucket.isReference = true ∧ f.bucket.isMany = true := by
  obtain ⟨level, hlevel, hf⟩ := List.mem_flatMap.1 hf
  obtain ⟨⟨child, bucket⟩, hentry, hf⟩ := List.mem_filterMap.1 hf
  obtain ⟨om, hom, hmember, -, hlist⟩ := exists_findMember? hs hcheck he hnames hlevel hentry
  dsimp only at hf
  rw [hom] at hf
  obtain rfl := Option.some.inj hf
  exact ⟨hmember, hlist⟩

/-- As buckets have different names, repeats are the same among them as among their
    names. -/
theorem eraseDups_names {l : List Filing} (hl : ∀ f ∈ l, f ∈ filings b e) :
    (l.map (·.bucket.name)).eraseDups = (l.map (·.bucket)).eraseDups.map (·.name) := by
  have hbucket (f : Filing) (hf : f ∈ l) : f.bucket ∈ b.members e :=
    (bucket_of_mem_filings hs hcheck he hnames (hl f hf)).1
  rw [← eraseDups_map, List.map_map]
  · rfl
  · intro x hx y hy
    obtain ⟨f, hf, rfl⟩ := List.mem_map.1 hx
    obtain ⟨f', hf', rfl⟩ := List.mem_map.1 hy
    exact List.inj_on_of_nodup_map hnames (hbucket f hf) (hbucket f' hf')

/-- All buckets are lists, so a graph leaves none of them out. -/
theorem filter_lists {l : List Filing} (hl : ∀ f ∈ l, f ∈ filings b e) :
    (l.map (·.bucket.name)).filter (fun bucket =>
      (b.members e).any fun member => member.name == bucket && member.isMany) =
        l.map (·.bucket.name) := by
  refine List.filter_eq_self.2 fun bucket hbucket => ?_
  obtain ⟨f, hf, rfl⟩ := List.mem_map.1 hbucket
  obtain ⟨hmember, -, hmany⟩ := bucket_of_mem_filings hs hcheck he hnames (hl f hf)
  exact List.any_eq_true.2 ⟨_, hmember, by rw [hmany, beq_self_eq_true]; rfl⟩

/-- Adoption in a graph files a child in the buckets in which generated code does. -/
theorem bucketsFor_eq (hbuilt : m.Built) (hresolution : m.resolution = b.resolution)
    (hpolicy : m.policy = b.policy) (hconcrete : e.kind.isConcrete = true) {g : Graph}
    {parent child : Ref} (hg : g.model = m) (hparent : parent.tag = e.tag) :
    g.bucketsFor parent child = .ok ((((filings b e).filter fun f =>
      (b.schema.entity? f.child).any (b.schema.isA child.tag)).map
        (·.bucket)).eraseDups.map (·.name)) := by
  obtain ⟨r, p, layouts⟩ := m
  obtain ⟨model, stores, lastId⟩ := g
  obtain rfl : r = b.resolution := hresolution
  obtain rfl : p = b.policy := hpolicy
  obtain rfl : model = _ := hg
  have hat := (Declarations.numbered_of_toSchema hs).entityAt? he
  obtain ⟨l, hl, hmembers⟩ := hbuilt.exists_layout hat hconcrete
  let entries := (b.schema.levels e).flatMap fun level => b.policy.bucketsOf level.name
  -- Both sides keep the entries that take the child,
  -- and what is left is the names of their lists.
  let takes (name : String) : Bool := (b.schema.entity? name).any (b.schema.isA child.tag)
  let kept := (filings b e).filter fun f => takes f.child
  have hkept : (entries.filter fun entry => takes entry.1).map (·.2) =
      kept.map (·.bucket.name) := by
    change ((List.flatMap _ _).filter _).map _ = _
    rw [← map_filings hs hcheck he hnames, List.filter_map, List.map_map]
    rfl
  have hmem : ∀ f ∈ kept, f ∈ filings b e := fun f => List.mem_of_mem_filter
  change _ = Except.ok ((kept.map (·.bucket)).eraseDups.map (·.name))
  rw [← eraseDups_names hs hcheck he hnames hmem, Graph.bucketsFor, Graph.entity, hparent,
    Model.entity_eq_ok.2 hat]
  change (if (entries.filter fun entry => takes entry.1).isEmpty = true then _ else _) = _
  split
  · rename_i hempty
    rw [← hkept, List.isEmpty_iff.1 hempty]
    rfl
  · refine bind_eq_ok.2 ⟨b.members e, map_eq_ok.2 ⟨l, ?_, hmembers⟩, ?_⟩
    · rw [Graph.layout, hparent, hl]
    · change Except.ok (List.eraseDups (((entries.filter fun entry => takes entry.1).map
        (·.2)).filter fun bucket =>
          (b.members e).any fun member => member.name == bucket && member.isMany)) = _
      rw [hkept, filter_lists hs hcheck he hnames hmem]

/-- The function that gives access to a bucket is among those of its collector. -/
theorem exists_accessor (hf : f ∈ filings b e) : ∃ accessor ∈ Objects.methods b e,
    accessor ∈ Objects.memberMethods b f.bucket ∧ accessor.name = b.stem f.bucket ++ "_mut" := by
  obtain ⟨hmember, hreference, hmany⟩ := bucket_of_mem_filings hs hcheck he hnames hf
  have hlist : Objects.memberMethods b f.bucket = Objects.listMethods b f.bucket := by
    rw [Objects.memberMethods, Option.isNone_iff_eq_none.1 hreference]
    exact if_pos hmany
  obtain ⟨accessor, haccessor, hname⟩ : ∃ accessor ∈ Objects.listMethods b f.bucket,
      accessor.name = b.stem f.bucket ++ "_mut" :=
    ⟨_, List.mem_cons_of_mem _ (List.mem_cons_of_mem _ List.mem_cons_self), rfl⟩
  rw [← hlist] at haccessor
  refine ⟨accessor, List.mem_append_right _ (List.mem_flatMap.2 ⟨_, hmember, haccessor⟩), ?_⟩
  exact ⟨haccessor, hname⟩

end

/-- Over a schema that is made from declarations, under a checked policy, generated
    code and graphs agree on where a concrete entity whose members have different
    names files its children. The buckets for which code is generated and that take
    a child are, without repeats, those in which a graph files it, in this order;
    and each of them is a list, whose elements generated code can get at. -/
theorem bucketsFor_eq_filings {s : Schema} {policy : PolicyTable}
    (hs : d.toSchema naming = .ok s) (hcheck : policy.check s = .ok ()) (he : e ∈ s.concrete)
    (hnames : ((s.membersBaseFirst e).map (·.name)).Nodup) :
    ∃ r m, Resolution.ofSchema s = .ok r ∧ Model.ofResolution r policy = .ok m ∧
      ∀ b : Blueprint, b.resolution = r → b.policy = policy →
        (∀ (g : Graph) (parent child : Ref), g.model = m → parent.tag = e.tag →
          g.bucketsFor parent child = .ok ((((filings b e).filter fun f =>
            (s.entity? f.child).any (s.isA child.tag)).map
              (·.bucket)).eraseDups.map (·.name))) ∧
        ∀ f ∈ filings b e,
          f.bucket ∈ b.members e ∧ f.bucket.isReference = true ∧ f.bucket.isMany = true ∧
            ∃ accessor ∈ Objects.methods b e, accessor ∈ Objects.memberMethods b f.bucket ∧
              accessor.name = b.stem f.bucket ++ "_mut" := by
  obtain ⟨r, hr, hschema, hexact⟩ := Declarations.exists_resolution hs
  obtain ⟨m, hm⟩ := hexact.exists_model policy
  obtain ⟨hbuilt, hresolution, hpolicy⟩ := Model.built_of_ofResolution hm
  obtain ⟨hmem, hconcrete⟩ := List.mem_filter.1 he
  refine ⟨r, m, hr, hm, fun b hb hb' => ?_⟩
  subst hschema hb hb'
  refine ⟨fun g parent child hg hparent => ?_, fun f hf => ?_⟩
  · exact bucketsFor_eq hs hcheck hmem hnames hbuilt hresolution hpolicy hconcrete hg hparent
  · obtain ⟨hmember, hreference, hmany⟩ := bucket_of_mem_filings hs hcheck hmem hnames hf
    exact ⟨hmember, hreference, hmany, exists_accessor hs hcheck hmem hnames hf⟩

/-- The declarations of nets and of scopes that have nets, and of modules, which are
    scopes and have modules. -/
def modules : Declarations where
  name := "modules"
  entities := [
    { name := "net" },
    { name := "scope"
      isAbstract := true
      members := [.plain "nets" (.object "net" .many)] },
    { name := "module"
      base := some "scope"
      members := [.plain "modules" (.object "module" .many)] }]

/-- Scopes file nets, and modules do so once more: code for this is generated twice,
    but there is one list. -/
theorem bucketsFor_eq_filings_modules :
    let policy := PolicyTable.empty.addAll [.collector "scope" "net" "nets",
      .collector "module" "module" "modules", .collector "module" "net" "nets"]
    ∃ r m e, Resolution.ofSchema modules.assemble = .ok r ∧
      Model.ofResolution r policy = .ok m ∧ e ∈ modules.assemble.concrete ∧
      (filings ⟨r, .hardware, policy⟩ e).map (·.bucket.name) = ["nets", "modules", "nets"] ∧
      (Graph.empty m).bucketsFor ⟨2, 0⟩ ⟨0, 0⟩ = .ok ["nets"] := by
  intro policy
  have hmade : modules.toSchema .hardware = .ok modules.assemble := by decide +kernel
  let e : Entity := ⟨"module", .leaf, some "scope", [.plain "modules" (.object "module" .many)],
    2, []⟩
  have he : e ∈ modules.assemble.concrete := by decide +kernel
  have hcheck : policy.check modules.assemble = .ok () := by decide +kernel
  obtain ⟨r, m, hr, hm, hagree⟩ := bucketsFor_eq_filings hmade hcheck he (by decide +kernel)
  have hresolution : Resolution.ofSchema modules.assemble = .ok ⟨modules.assemble, ∅⟩ := rfl
  obtain rfl := Except.ok.inj (hresolution.symm.trans hr)
  have hbuckets := (hagree ⟨⟨modules.assemble, ∅⟩, .hardware, policy⟩ rfl rfl).1 (.empty m)
    ⟨2, 0⟩ ⟨0, 0⟩ rfl rfl
  refine ⟨_, m, e, hr, hm, he, by decide +kernel, hbuckets.trans ?_⟩
  decide +kernel

end Containers

end ObjectModel.Generation
