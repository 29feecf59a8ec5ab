import Mathlib.Data.List.Induction
import ObjectModel.Policy.Document
import ObjectModel.Proofs.Outcome
import ObjectModel.Proofs.Policy.Entries

/-!
# What a policy document means

A document is read tag by tag. Only what follows the start of its last policy counts
(`PolicyDocument.LastPolicy`): each empty tag is an entry there, and buckets belong to
the collector that was started last, unless one was closed since
(`PolicyDocument.openCollector?`). The table is that of these entries, on top of what
the policy starts from (`PolicyTable.ofEvents_meaning`), so tags may be rearranged as
long as entries about one subject stay in order.
-/

namespace ObjectModel

namespace PolicyDocument

open Markup PolicyEntry

/-- The tag that starts a policy. -/
def policyTag? : Event → Option Tag
  | .opening tag | .empty tag => if tag.name = "policy" then some tag else none
  | .closing _ => none

/-- The collector that is started, or none if one is closed. -/
def collectorChange? : Event → Option (Option String)
  | .opening tag => if tag.name = "collector" then some (tag.attribute? "entity") else none
  | .empty _ => none
  | .closing name => if name = "collector" then some none else none

/-- The collector that was started last, if none was closed since. -/
def openCollector? (events : List Event) : Option String :=
  (events.filterMap collectorChange?).getLast?.join

/-- The entries in `events`, which come after those in `before`. -/
def entriesAfter (before : List Event) : List Event → Except DocumentError (List PolicyEntry)
  | [] => pure []
  | .empty tag :: r => do
    let entry ← entryOfTag (openCollector? before) tag
    return entry :: (← entriesAfter (before ++ [.empty tag]) r)
  | e :: r => entriesAfter (before ++ [e]) r

/-- The tag may stand inside of a policy, as far as it is no entry. -/
def Allowed : Event → Prop
  | .opening tag => tag.name = "collector" ∧ (tag.attribute? "entity").isSome = true
  | _ => True

/-- The last policy in a document. -/
structure LastPolicy (events : List Event) where
  before : List Event
  start : Event
  tag : Tag
  after : List Event
  split : events = before ++ start :: after
  starts : policyTag? start = some tag
  last : ∀ e ∈ after, policyTag? e = none

namespace LastPolicy

variable {events : List Event} (p : LastPolicy events)

/-- The table that the policy starts from. -/
def base : PolicyTable := if p.tag.attribute? "base" = some "hdl" then .hardware else .empty

/-- The entries in the policy. -/
def entries : Except DocumentError (List PolicyEntry) :=
  entriesAfter (p.before ++ [p.start]) p.after

end LastPolicy

variable {p q : Progress} {e : Event} {events before : List Event} {t : PolicyTable}
  {entries : List PolicyEntry} {tag : Tag}

theorem openCollector?_concat (events : List Event) (e : Event) :
    openCollector? (events ++ [e]) = (collectorChange? e).getD (openCollector? events) := by
  rw [openCollector?, List.filterMap_append, List.getLast?_append]
  cases h : collectorChange? e <;> simp [openCollector?, h]

theorem collectorChange?_of_policyTag? (he : policyTag? e = some tag) :
    collectorChange? e = none := by
  match e with
  | .opening _ =>
    rw [policyTag?, Option.ite_none_right_eq_some] at he
    rw [collectorChange?, he.1]
    rfl
  | .empty _ => rfl

/-! ## One more tag -/

/-- A policy starts a new table and leaves the collector. -/
theorem next_of_policyTag? (he : policyTag? e = some tag) : p.next e = .ok q ↔
    ∃ base, baseTable tag = .ok base ∧ q = ⟨some base, p.collector⟩ := by
  match e with
  | .opening _ | .empty _ =>
    rw [policyTag?, Option.ite_none_right_eq_some] at he
    obtain ⟨hname, htag⟩ := he
    obtain rfl := Option.some.inj htag
    rw [Progress.next, if_pos hname, bind_eq_ok]
    simp only [pure_eq_ok, @eq_comm _ _ q]

/-- An opening tag within a policy adds no entry. -/
theorem next_opening (he : policyTag? (.opening tag) = none) : p.next (.opening tag) = .ok q ↔
    p.table.isSome = true ∧ Allowed (.opening tag) ∧
      q = { p with collector := (collectorChange? (.opening tag)).getD p.collector } := by
  rw [policyTag?, ite_eq_right_iff] at he
  rw [Progress.next, if_neg fun hname => Option.some_ne_none _ (he hname)]
  simp only [Allowed, collectorChange?]
  by_cases hname : tag.name = "collector"
  · by_cases htable : p.table.isSome = true
    · rw [if_pos ⟨hname, htable⟩, bind_eq_ok, if_pos hname, required]
      cases tag.attribute? "entity" <;> simp [hname, htable, @eq_comm _ _ q]
    · rw [if_neg fun h => htable h.2]
      simp [htable]
  · rw [if_neg fun h => hname h.1]
    simp [hname]

/-- An empty tag within a policy adds the entry that it is. -/
theorem next_empty (he : policyTag? (.empty tag) = none) : p.next (.empty tag) = .ok q ↔
    ∃ t entry, p.table = some t ∧ entryOfTag p.collector tag = .ok entry ∧
      q = { p with table := some (t.add entry) } := by
  rw [policyTag?, ite_eq_right_iff] at he
  rw [Progress.next, if_neg fun hname => Option.some_ne_none _ (he hname)]
  cases p.table with
  | none => simp
  | some t =>
    dsimp only
    rw [bind_eq_ok]
    simp [@eq_comm _ _ q]

/-- A closing tag closes a collector, or nothing. -/
theorem next_closing {name : String} : p.next (.closing name) = .ok q ↔
    q = { p with collector := (collectorChange? (.closing name)).getD p.collector } := by
  rw [Progress.next, pure_eq_ok, collectorChange?, eq_comm]
  split <;> rfl

/-- Only tags of collectors tell whose buckets follow. -/
theorem collector_next (h : p.next e = .ok q) :
    q.collector = (collectorChange? e).getD p.collector := by
  rcases hpolicy : policyTag? e with _ | tag
  · cases e with
    | opening => rw [((next_opening hpolicy).1 h).2.2]
    | empty =>
      obtain ⟨_, _, -, -, rfl⟩ := (next_empty hpolicy).1 h
      rfl
    | closing => rw [next_closing.1 h]
  · obtain ⟨_, -, rfl⟩ := (next_of_policyTag? hpolicy).1 h
    rw [collectorChange?_of_policyTag? hpolicy]
    rfl

/-- Nothing but a policy starts a table. -/
theorem table_next (hp : p.table = none) (he : policyTag? e = none) (h : p.next e = .ok q) :
    q.table = none := by
  cases e with
  | opening =>
    have hsome := ((next_opening he).1 h).1
    rw [hp] at hsome
    cases hsome
  | empty =>
    obtain ⟨_, _, hsome, -⟩ := (next_empty he).1 h
    rw [hp] at hsome
    cases hsome
  | closing =>
    rw [next_closing.1 h]
    exact hp

/-! ## All tags -/

/-- A document is understood tag by tag, wherever one stops in between. -/
theorem understand_split : understand (before ++ e :: events) = .ok q ↔ ∃ p r,
    understand before = .ok p ∧ p.next e = .ok r ∧ events.foldlM Progress.next r = .ok q := by
  rw [understand, List.foldlM_append, bind_eq_ok]
  refine exists_congr fun p => ?_
  rw [exists_and_left, List.foldlM_cons, bind_eq_ok, understand]

/-- The collector is the one that is open after all tags. -/
theorem collector_understand (h : understand before = .ok p) :
    p.collector = openCollector? before := by
  induction before using List.reverseRecOn generalizing p with
  | nil =>
    rw [← pure_eq_ok.1 h]
    rfl
  | append_singleton before e ih =>
    obtain ⟨p', _, hp', he, h⟩ := understand_split.1 h
    rw [← pure_eq_ok.1 h, collector_next he, ih hp', openCollector?_concat]

/-- What is an entry depends on the tags before it. -/
theorem entriesAfter_cons {l : List PolicyEntry} : entriesAfter before (e :: events) = .ok l ↔
    ∃ first rest, entriesAfter before [e] = .ok first ∧
      entriesAfter (before ++ [e]) events = .ok rest ∧ l = first ++ rest := by
  cases e with
  | empty tag =>
    simp only [entriesAfter, bind_eq_ok, pure_eq_ok]
    constructor
    · rintro ⟨entry, hentry, rest, hrest, rfl⟩
      exact ⟨[entry], rest, ⟨entry, hentry, [], rfl, rfl⟩, hrest, rfl⟩
    · rintro ⟨_, rest, ⟨entry, hentry, _, rfl, rfl⟩, hrest, rfl⟩
      exact ⟨entry, hentry, rest, hrest, rfl⟩
  | _ => simp [entriesAfter, eq_comm, pure, Except.pure]

/-- Inside of a policy, a tag must be allowed, and in order if it is an entry. -/
theorem next_inside (he : policyTag? e = none) :
    (Progress.mk (some t) (openCollector? before)).next e = .ok q ↔ Allowed e ∧
      ∃ entries, entriesAfter before [e] = .ok entries ∧
        q = ⟨some (t.addAll entries), openCollector? (before ++ [e])⟩ := by
  rw [openCollector?_concat]
  cases e with
  | opening tag =>
    rw [next_opening he]
    simp [entriesAfter, PolicyTable.addAll, pure, Except.pure]
  | empty tag =>
    rw [next_empty he]
    simp only [entriesAfter, bind_eq_ok, pure_eq_ok]
    constructor
    · rintro ⟨_, entry, htable, hentry, rfl⟩
      obtain rfl := Option.some.inj htable
      exact ⟨trivial, [entry], ⟨entry, hentry, [], rfl, rfl⟩, rfl⟩
    · rintro ⟨-, _, ⟨entry, hentry, _, rfl, rfl⟩, rfl⟩
      exact ⟨t, entry, rfl, hentry, rfl⟩
  | closing name =>
    rw [next_closing]
    simp [entriesAfter, PolicyTable.addAll, pure, Except.pure, Allowed]

/-- So all tags must be, and all entries are added to the table. -/
theorem foldlM_next (hevents : ∀ e ∈ events, policyTag? e = none) :
    events.foldlM Progress.next ⟨some t, openCollector? before⟩ = .ok q ↔
      (∀ e ∈ events, Allowed e) ∧ ∃ entries, entriesAfter before events = .ok entries ∧
        q = ⟨some (t.addAll entries), openCollector? (before ++ events)⟩ := by
  induction events generalizing before t with
  | nil => simp [entriesAfter, PolicyTable.addAll, eq_comm, pure, Except.pure]
  | cons e events ih =>
    obtain ⟨he, hevents⟩ := List.forall_mem_cons.1 hevents
    rw [List.foldlM_cons, bind_eq_ok, List.forall_mem_cons, List.append_cons]
    constructor
    · rintro ⟨_, hnext, h⟩
      obtain ⟨hallowed, first, hfirst, rfl⟩ := (next_inside he).1 hnext
      obtain ⟨hrest, rest, hentries, rfl⟩ := (ih hevents).1 h
      refine ⟨⟨hallowed, hrest⟩, first ++ rest, ?_, ?_⟩
      · exact entriesAfter_cons.2 ⟨first, rest, hfirst, hentries, rfl⟩
      · rw [PolicyTable.addAll_append]
    · rintro ⟨⟨hallowed, hrest⟩, _, hboth, rfl⟩
      obtain ⟨first, rest, hfirst, hentries, rfl⟩ := entriesAfter_cons.1 hboth
      refine ⟨_, (next_inside he).2 ⟨hallowed, first, hfirst, rfl⟩,
        (ih hevents).2 ⟨hrest, rest, ?_⟩⟩
      rw [PolicyTable.addAll_append]
      exact ⟨hentries, rfl⟩

/-- In a document with a table there is a policy. -/
theorem nonempty_lastPolicy (h : understand events = .ok p) (hp : p.table.isSome = true) :
    Nonempty (LastPolicy events) := by
  induction events using List.reverseRecOn generalizing p with
  | nil =>
    obtain rfl := pure_eq_ok.1 h
    cases hp
  | append_singleton events e ih =>
    obtain ⟨p', _, hp', he, h⟩ := understand_split.1 h
    obtain rfl := pure_eq_ok.1 h
    -- The list is taken from its end, so the first start that is met is the last one.
    rcases hpolicy : policyTag? e with _ | tag
    · have htable : p'.table.isSome = true := by
        by_contra hnone
        rw [table_next (Option.not_isSome_iff_eq_none.1 hnone) hpolicy he] at hp
        cases hp
      obtain ⟨⟨before, start, tag, after, rfl, hstart, hlast⟩⟩ := ih hp' htable
      refine ⟨⟨before, start, tag, after ++ [e], List.append_assoc _ _ _, hstart, fun c hc => ?_⟩⟩
      rcases List.mem_append.1 hc with hc | hc
      · exact hlast c hc
      · exact List.mem_singleton.1 hc ▸ hpolicy
    · exact ⟨⟨events, e, tag, [], rfl, hpolicy, by simp⟩⟩

end PolicyDocument

namespace PolicyTable

open PolicyDocument PolicyEntry

variable {events : List Markup.Event} {t : PolicyTable}

/-- A document makes a table if it is understood and has a policy. -/
theorem ofEvents_eq_ok : ofEvents events = .ok t ↔
    ∃ p, understand events = .ok p ∧ p.table = some t := by
  rw [ofEvents, bind_eq_ok]
  refine exists_congr fun p => and_congr_right fun _ => ?_
  rw [Progress.finish]
  cases p.table <;> simp

/-- The table starts from what the policy says, or empty. -/
theorem base_of_baseTable (p : LastPolicy events) {base : PolicyTable}
    (h : baseTable p.tag = .ok base) : base = p.base := by
  rw [baseTable] at h
  rw [LastPolicy.base]
  split at h
  · rename_i hnone
    rw [hnone]
    exact (pure_eq_ok.1 h).symm
  · rename_i hsome
    rw [hsome]
    exact (pure_eq_ok.1 h).symm
  · cases h

/-- A document that is understood up to its last policy is accepted if the tags that
    follow are allowed and the entries among them in order. -/
theorem ofEvents_iff (p : LastPolicy events) {c : Progress} {base : PolicyTable}
    (hbefore : understand p.before = .ok c) (hbase : baseTable p.tag = .ok base)
    {after : List Markup.Event} (hafter : ∀ e ∈ after, policyTag? e = none) :
    ofEvents (p.before ++ p.start :: after) = .ok t ↔ (∀ e ∈ after, Allowed e) ∧
      ∃ entries, entriesAfter (p.before ++ [p.start]) after = .ok entries ∧
        p.base.addAll entries = t := by
  -- A start gives a new table and leaves the collector open that was.
  have hcollector : c.collector = openCollector? (p.before ++ [p.start]) := by
    rw [openCollector?_concat, collectorChange?_of_policyTag? p.starts, Option.getD_none,
      collector_understand hbefore]
  have hstart : c.next p.start = .ok ⟨some p.base, openCollector? (p.before ++ [p.start])⟩ :=
    (next_of_policyTag? p.starts).2 ⟨base, hbase, by rw [hcollector, base_of_baseTable p hbase]⟩
  have hunderstand (q : Progress) : understand (p.before ++ p.start :: after) = .ok q ↔
      after.foldlM Progress.next ⟨some p.base, openCollector? (p.before ++ [p.start])⟩ = .ok q := by
    refine understand_split.trans ⟨?_, fun h => ⟨_, _, hbefore, hstart, h⟩⟩
    rintro ⟨_, _, hc, hr, h⟩
    obtain rfl := Except.ok.inj (hbefore.symm.trans hc)
    obtain rfl := Except.ok.inj (hstart.symm.trans hr)
    exact h
  simp only [ofEvents_eq_ok, hunderstand, foldlM_next hafter]
  constructor
  · rintro ⟨_, ⟨hallowed, entries, hentries, rfl⟩, htable⟩
    exact ⟨hallowed, entries, hentries, Option.some.inj htable⟩
  · rintro ⟨hallowed, entries, hentries, rfl⟩
    exact ⟨_, ⟨hallowed, entries, hentries, rfl⟩, rfl⟩

/-- A policy that is started anew inside of a collector. -/
def restarted : LastPolicy [
    .opening ⟨"policy", [("base", "hdl")]⟩,
    .opening ⟨"collector", [("entity", "cell")]⟩,
    .empty ⟨"exclude", [("relation", "up")]⟩,
    .opening ⟨"policy", []⟩,
    .empty ⟨"clone", [("member", "up"), ("policy", "deep")]⟩,
    .empty ⟨"bucket", [("child", "wire"), ("member", "wires")]⟩,
    .empty ⟨"clone", [("member", "up"), ("policy", "alias")]⟩,
    .closing "collector",
    .closing "policy"] where
  before := [
    .opening ⟨"policy", [("base", "hdl")]⟩,
    .opening ⟨"collector", [("entity", "cell")]⟩,
    .empty ⟨"exclude", [("relation", "up")]⟩]
  start := .opening ⟨"policy", []⟩
  tag := ⟨"policy", []⟩
  after := [
    .empty ⟨"clone", [("member", "up"), ("policy", "deep")]⟩,
    .empty ⟨"bucket", [("child", "wire"), ("member", "wires")]⟩,
    .empty ⟨"clone", [("member", "up"), ("policy", "alias")]⟩,
    .closing "collector",
    .closing "policy"]
  split := rfl
  starts := by decide
  last := by decide

end PolicyTable

end ObjectModel
