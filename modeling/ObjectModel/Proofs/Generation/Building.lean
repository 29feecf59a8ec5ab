import ObjectModel.Generation.Generator
import ObjectModel.Proofs.Schema.Closures
import ObjectModel.Proofs.Schema.Names

/-!
# Generators

A generator is made for a schema whose names are in order for the way in which it
derives names, under a policy that is not out of date (`Generator.build_eq_ok`). So
the members of an entity have different stems (`Blueprint.nodup_stems`). Entities are
kept apart by what is derived from their names as long as no two of them are declared
that come to the same (`Schema.nodup_derived_iff`).
-/

namespace ObjectModel

/-- Entities are kept apart by what is made of their names just if no two are declared
    whose names come to the same. -/
theorem Schema.nodup_derived_iff {s : Schema} {names : List (String × String)}
    {derive : String → String} (hnames : (s.entities.map (·.name)).Nodup)
    (hpairs : ∀ p ∈ names, p.1 ≠ p.2)
    (hderive : ∀ e ∈ s.entities, ∀ d ∈ s.entities, derive e.name = derive d.name ↔
      e.name = d.name ∨ (e.name, d.name) ∈ names ∨ (d.name, e.name) ∈ names) :
    (s.entities.map fun e => derive e.name).Nodup ↔
      ∀ p ∈ names, ¬ (s.hasEntity p.1 ∧ s.hasEntity p.2) := by
  constructor
  · rintro h ⟨long, short⟩ hp ⟨hlong, hshort⟩
    obtain ⟨e, hemem, rfl⟩ := List.mem_map.1 (s.indexed.hasEntity_iff.1 hlong)
    obtain ⟨d, hdmem, rfl⟩ := List.mem_map.1 (s.indexed.hasEntity_iff.1 hshort)
    -- The two would be one entity under two names.
    have heq := List.inj_on_of_nodup_map h hemem hdmem
      ((hderive e hemem d hdmem).2 (.inr (.inl hp)))
    exact hpairs _ hp (congrArg Entity.name heq)
  · intro h
    refine .map_on (fun e he d hd hsame => ?_) (.of_map _ hnames)
    have hdeclared {x : Entity} (hx : x ∈ s.entities) : s.hasEntity x.name :=
      s.indexed.hasEntity_of_mem hx
    rcases (hderive e he d hd).1 hsame with hname | hp | hp
    · exact List.inj_on_of_nodup_map hnames he hd hname
    · exact (h _ hp ⟨hdeclared he, hdeclared hd⟩).elim
    · exact (h _ hp ⟨hdeclared hd, hdeclared he⟩).elim

namespace Generation

variable {s : Schema} {naming : Naming} {policy : PolicyTable} {only : Option (List Emitter)}
  {g : Generator}

theorem Generator.build_of_resolve {r : Resolution} (h : resolve s naming policy = .ok r) :
    ∃ g, build s naming policy only = .ok g ∧ g.blueprint = ⟨r, naming, policy⟩ := by
  unfold build
  rw [h]
  exact ⟨_, rfl, rfl⟩

/-- What it takes to make a generator, and what it is made of. -/
theorem Generator.build_eq_ok (h : build s naming policy only = .ok g) :
    s.check naming = .ok () ∧ policy.check s = .ok () ∧
      Resolution.ofSchema s = .ok g.blueprint.resolution ∧ g.blueprint.naming = naming ∧
        g.blueprint.policy = policy := by
  unfold build at h
  split at h
  · rename_i r hr
    obtain rfl := pure_eq_ok.1 h
    rw [resolve, check_bind_eq_ok, check_bind_eq_ok] at hr
    exact ⟨hr.1, hr.2.1, hr.2.2, rfl, rfl⟩
  · cases h

/-- A generator is for the schema that it was made for. -/
theorem Generator.schema_of_build (h : build s naming policy only = .ok g) :
    g.blueprint.schema = s := by
  obtain ⟨-, -, hr, -, -⟩ := build_eq_ok h
  obtain ⟨closures, -, hr⟩ := bind_eq_ok.1 hr
  rw [Blueprint.schema, ← pure_eq_ok.1 hr]

/-- The members of an entity have different stems. -/
theorem Blueprint.nodup_stems {b : Blueprint} {e : Entity}
    (hnames : b.schema.checkNames b.naming = .ok ()) (he : e ∈ b.schema.entities) :
    ((b.members e).map b.stem).Nodup := by
  have hstems := RawSchema.checkNames_eq_ok.1 hnames e he _
    (List.mem_cons_of_mem _ (List.mem_cons_of_mem _ List.mem_cons_self))
  exact (RawSchema.membersBaseFirst_perm.map b.stem).nodup_iff.2 hstems

end Generation

end ObjectModel
