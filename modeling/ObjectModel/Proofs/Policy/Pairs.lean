import ObjectModel.Proofs.Policy.Documents

/-!
# Empty tags and pairs of tags

A tag that is empty may also be written as a tag that opens and one that closes right after it.
In a policy document this makes a difference (`PolicyTable.ofDocument_pair`): a policy may be
started in either way, but any entry has to be an empty tag, since a tag that opens is refused
there unless it says whose buckets follow.
-/

namespace ObjectModel

open Markup

/-- In `document` the reader finds the empty tag, and in its place in `document'` a tag that
    opens, has the same name and attributes, and is closed at once. It finds no other
    difference. -/
def Markup.Reader.Expands (read : Reader) (tag : Tag) (document document' : String) : Prop :=
  ∃ before after, (read document).events = before ++ .empty tag :: after ∧
    (read document').events = before ++ .opening tag :: .closing tag.name :: after ∧
    (read document').complete = (read document).complete

namespace PolicyDocument

variable {p q : Progress} {tag : Tag} {before after : List Event}

/-- A collector is no entry. -/
theorem entryOfTag_collector {collector : Option String} (hname : tag.name = "collector") :
    entryOfTag collector tag = .error (.unknownElement tag.name) := by
  unfold entryOfTag
  rw [hname]
  rfl

/-- A policy may be started by a pair of tags. -/
theorem next_pair (hname : tag.name = "policy") (h : p.next (.empty tag) = .ok q) :
    p.next (.opening tag) = .ok q ∧ q.next (.closing tag.name) = .ok q := by
  have hcollector : tag.name ≠ "collector" := by
    rw [hname]
    decide
  simp only [Progress.next, if_pos hname, if_neg hcollector] at h ⊢
  exact ⟨h, rfl⟩

/-- An entry is not opened. -/
theorem next_opening_of_empty (hname : tag.name ≠ "policy") (h : p.next (.empty tag) = .ok q) :
    p.next (.opening tag) = .error (.unknownElement tag.name) := by
  obtain ⟨_, entry, -, hentry, -⟩ := (next_empty (if_neg hname)).1 h
  have hcollector : tag.name ≠ "collector" := by
    intro hcollector
    rw [entryOfTag_collector hcollector] at hentry
    cases hentry
  rw [Progress.next, if_neg hname, if_neg fun h => hcollector h.1]
  rfl

/-- Where a tag is refused, so is the document. -/
theorem understand_error {e : Event} {error : DocumentError} (hbefore : understand before = .ok p)
    (he : p.next e = .error error) : understand (before ++ e :: after) = .error error := by
  rw [understand] at hbefore ⊢
  rw [List.foldlM_append, hbefore]
  change (e :: after).foldlM Progress.next p = _
  rw [List.foldlM_cons, he]
  rfl

end PolicyDocument

namespace PolicyTable

open PolicyDocument

variable {read : Reader} {document document' : String} {tag : Tag} {t : PolicyTable}

/-- An empty tag in a sequence of tags that is accepted is replaced. -/
theorem ofEvents_pair {before after : List Event}
    (h : ofEvents (before ++ .empty tag :: after) = .ok t) :
    ofEvents (before ++ .opening tag :: .closing tag.name :: after) =
      if tag.name = "policy" then .ok t else .error (.unknownElement tag.name) := by
  obtain ⟨q, hq, htable⟩ := ofEvents_eq_ok.1 h
  obtain ⟨p, r, hp, hr, hafter⟩ := understand_split.1 hq
  split
  · rename_i hname
    obtain ⟨hopening, hclosing⟩ := next_pair hname hr
    refine ofEvents_eq_ok.2 ⟨q, understand_split.2 ⟨p, r, hp, hopening, ?_⟩, htable⟩
    rw [List.foldlM_cons, hclosing]
    exact hafter
  · rename_i hname
    rw [ofEvents, understand_error hp (next_opening_of_empty hname hr)]
    rfl

/-- A document that is well formed stands for what its tags stand for. -/
theorem ofDocument_of_complete (h : (read document).complete = true) :
    ofDocument read document = ofEvents (read document).events := by
  simp only [ofDocument, h, if_true]
  rfl

/-- A document that makes a table has been read to its end. -/
theorem complete_of_ofDocument (h : ofDocument read document = .ok t) :
    (read document).complete = true := by
  obtain ⟨_, -, h⟩ := bind_eq_ok.1 h
  split at h
  · assumption
  · cases h

/-- In a document that is accepted, an empty tag is replaced by one that opens, has the same
    name and attributes, and is closed at once. If it starts a policy, the document stands for
    the same table then. In any other case it is refused, for an element that is not known. -/
theorem ofDocument_pair (hpair : read.Expands tag document document')
    (h : ofDocument read document = .ok t) :
    ofDocument read document' =
      if tag.name = "policy" then .ok t else .error (.unknownElement tag.name) := by
  obtain ⟨before, after, hempty, hopening, hsame⟩ := hpair
  have hcomplete := complete_of_ofDocument h
  rw [ofDocument_of_complete hcomplete, hempty] at h
  rw [ofDocument_of_complete (hsame.trans hcomplete), hopening]
  exact ofEvents_pair h

/-- A policy with a collector, in which a policy is started anew and a bucket follows. -/
def collected (policy bucket : String) : String :=
  "<policy><collector entity='cell'>" ++ policy ++ bucket ++ "</collector></policy>"

/-- What is found in it. -/
def readingOfCollected (policy bucket : List Event) : Reading where
  events := [.opening ⟨"policy", []⟩, .opening ⟨"collector", [("entity", "cell")]⟩] ++
    policy ++ bucket ++ [.closing "collector", .closing "policy"]

/-- The tag of a bucket. -/
def bucketTag : Tag := ⟨"bucket", [("child", "wire"), ("member", "wires")]⟩

/-- A reader that knows these documents, with empty tags or with pairs. -/
def readCollected : Reader := .ofReadings [
  (collected "<policy/>" "<bucket child='wire' member='wires'/>",
    readingOfCollected [.empty ⟨"policy", []⟩] [.empty bucketTag]),
  (collected "<policy></policy>" "<bucket child='wire' member='wires'/>",
    readingOfCollected [.opening ⟨"policy", []⟩, .closing "policy"] [.empty bucketTag]),
  (collected "<policy/>" "<bucket child='wire' member='wires'></bucket>",
    readingOfCollected [.empty ⟨"policy", []⟩] [.opening bucketTag, .closing "bucket"])]

/-- Inside of a collector, a policy may be started by a pair of tags, but a bucket may not be
    one. -/
theorem ofDocument_pair_bucket : ∃ t,
    ofDocument readCollected (collected "<policy/>" "<bucket child='wire' member='wires'/>") =
      .ok t ∧
    ofDocument readCollected
      (collected "<policy></policy>" "<bucket child='wire' member='wires'/>") = .ok t ∧
    ofDocument readCollected
      (collected "<policy/>" "<bucket child='wire' member='wires'></bucket>") =
        .error (.unknownElement "bucket") := by
  obtain ⟨t, ht⟩ : ∃ t, ofDocument readCollected
      (collected "<policy/>" "<bucket child='wire' member='wires'/>") = .ok t := by
    rw [ofDocument_of_complete (by decide +kernel)]
    exact ⟨_, rfl⟩
  have hpolicy : readCollected.Expands ⟨"policy", []⟩
      (collected "<policy/>" "<bucket child='wire' member='wires'/>")
      (collected "<policy></policy>" "<bucket child='wire' member='wires'/>") :=
    ⟨[.opening ⟨"policy", []⟩, .opening ⟨"collector", [("entity", "cell")]⟩],
      [.empty bucketTag, .closing "collector", .closing "policy"], by decide +kernel⟩
  have hbucket : readCollected.Expands bucketTag
      (collected "<policy/>" "<bucket child='wire' member='wires'/>")
      (collected "<policy/>" "<bucket child='wire' member='wires'></bucket>") :=
    ⟨[.opening ⟨"policy", []⟩, .opening ⟨"collector", [("entity", "cell")]⟩,
      .empty ⟨"policy", []⟩], [.closing "collector", .closing "policy"], by decide +kernel⟩
  exact ⟨t, ht, ofDocument_pair hpolicy ht, ofDocument_pair hbucket ht⟩

/-- A reader that knows one document, with an empty tag or with a pair. -/
def readExcluding : Reader := .ofReadings [
  ("<policy><exclude relation='up'/></policy>", { events := [
    .opening ⟨"policy", []⟩,
    .empty ⟨"exclude", [("relation", "up")]⟩,
    .closing "policy"] }),
  ("<policy><exclude relation='up'></exclude></policy>", { events := [
    .opening ⟨"policy", []⟩,
    .opening ⟨"exclude", [("relation", "up")]⟩,
    .closing "exclude",
    .closing "policy"] })]

/-- An entry that is no longer known when it is written as a pair of tags. -/
theorem not_interchangeable :
    (∃ t, ofDocument readExcluding "<policy><exclude relation='up'/></policy>" = .ok t) ∧
    ofDocument readExcluding "<policy><exclude relation='up'></exclude></policy>" =
      .error (.unknownElement "exclude") ∧
    ¬ ∀ (read : Reader) (tag : Tag) (document document' : String) (t : PolicyTable),
      read.Expands tag document document' → ofDocument read document = .ok t →
        ofDocument read document' = .ok t := by
  obtain ⟨t, ht⟩ : ∃ t,
      ofDocument readExcluding "<policy><exclude relation='up'/></policy>" = .ok t := by
    rw [ofDocument_of_complete (by decide +kernel)]
    exact ⟨_, rfl⟩
  have hrefused : ofDocument readExcluding "<policy><exclude relation='up'></exclude></policy>" =
      .error (.unknownElement "exclude") := by
    rw [ofDocument_of_complete (by decide +kernel)]
    rfl
  refine ⟨⟨t, ht⟩, hrefused, fun h => ?_⟩
  -- Both documents are read as the assumption says, and still only one is accepted.
  have hpair : readExcluding.Expands ⟨"exclude", [("relation", "up")]⟩
      "<policy><exclude relation='up'/></policy>"
      "<policy><exclude relation='up'></exclude></policy>" :=
    ⟨[.opening ⟨"policy", []⟩], [.closing "policy"], by decide +kernel⟩
  have hsame := h _ _ _ _ t hpair ht
  rw [hrefused] at hsame
  cases hsame

end PolicyTable

end ObjectModel
