import ObjectModel.Proofs.Archive.Accepting
import ObjectModel.Proofs.Archive.Unique
import ObjectModel.Proofs.Graph.Network

/-!
# Which texts are restored

The symbols of an archive are entered one after the other, so that repeated and
empty ones have no ids of their own. An id names the text that is entered under
this number (`Archive.Names`). This is the text at that position of the symbol
section only if all texts up to there are different and none is empty, as they
are in archives that are saved; others are restored with other texts
(`Archive.names_of_restore`).
-/

namespace ObjectModel

open Wire

namespace Archive

variable {a : Archive} {id : Nat} {text : String}

/-- The texts that are named: those of the symbol section, each where it comes
    first, the empty one aside. -/
def texts (a : Archive) : List String := (a.symbols.filter (· ≠ "")).eraseDups

/-- Zero names the empty text, any other id the text of this number. This is the
    one at that position of the symbol section if those up to there are
    different and not empty, and only then. -/
def Names (a : Archive) (id : Nat) (text : String) : Prop :=
  match id with
  | 0 => text = ""
  | k + 1 => a.texts[k]? = some text ∧ (a.symbols[k]? = some text ↔
      (a.symbols.take (k + 1)).Nodup ∧ "" ∉ a.symbols.take (k + 1))

/-- An id is resolved to the text that is entered under this number. -/
theorem names_of_resolve? (h : a.table.resolve? id = some text) : a.Names id text := by
  cases id with
  | zero => exact (Option.some.inj h).symm
  | succ k =>
    refine ⟨?_, (SymbolTable.getElem?_eq_iff_of_resolve? h).trans
      ⟨fun hp => ⟨hp.nodup, hp.nonempty⟩, fun hp => ⟨hp.1, hp.2⟩⟩⟩
    rw [texts, ← SymbolTable.texts_internAll]
    exact h

/-- The file of an object is the text that its heading names. -/
theorem Heading.names_file {x : Heading} {header : Header} (h : x.header? a.table = some header) :
    a.Names x.file.toNat header.file := by
  obtain ⟨file, hfile, rfl⟩ := Option.map_eq_some_iff.1 h
  exact names_of_resolve? hfile

/-- A text stands in a field that holds its id. -/
theorem Field.names_text {f : Field} (h : f.value? a.table = some (.text text)) :
    ∃ id, f = .symbol id ∧ a.Names id.toNat text := by
  cases f with
  | symbol id =>
    obtain ⟨s, hs, htext⟩ := Option.map_eq_some_iff.1 h
    cases htext
    exact ⟨id, rfl, names_of_resolve? hs⟩
  | _ => cases h

/-- A text in an object is the one that its entry names. -/
theorem Entry.names_text {x : Entry} {o : Object} (hx : x.Denotes a.table o) {i : Nat}
    (h : o.values[i]? = some (.text text)) :
    ∃ id, x.fields[i]? = some (.symbol id) ∧ a.Names id.toNat text := by
  obtain ⟨hi, hv⟩ := List.getElem?_eq_some_iff.1 h
  obtain ⟨hlength, hvalues⟩ := List.forall₂_iff_get.1 hx.values
  have hf := hvalues i (hlength ▸ hi) hi
  rw [List.get_eq_getElem, List.get_eq_getElem, hv] at hf
  obtain ⟨id, hid, hnames⟩ := Field.names_text hf
  exact ⟨id, List.getElem?_eq_some_iff.2 ⟨_, hid⟩, hnames⟩

/-- Bytes that are restored begin with one archive. Each text of the graph is the
    one that is named by the id in its place of the archive. -/
theorem names_of_restore {m : Model} {g : Graph} {roots : List Ref} {bytes : List UInt8}
    (hm : m.Built) (hnum : m.schema.Numbered) (h : m.restore bytes = .ok (g, roots)) :
    ∃ (a : Archive) (rest : List UInt8), bytes = encodeAll a.items ++ rest ∧ a.Conforms m ∧
      (∀ (b : Archive) (rest' : List UInt8), bytes = encodeAll b.items ++ rest' → b.Conforms m →
        b = a) ∧
      ∀ r o, g.object? r = some o → ∃ x, a.entry? r = some x ∧
        a.Names x.heading.file.toNat o.header.file ∧
        ∀ (i : Nat) (text : String), o.values[i]? = some (.text text) →
          ∃ id, x.fields[i]? = some (.symbol id) ∧ a.Names id.toNat text := by
  obtain ⟨a, rest, hbytes, rfl, ha⟩ := Model.exists_archive_of_restore hm hnum h
  refine ⟨a, rest, hbytes, ha.conforms, fun b rest' hb hconforms => ?_, fun r o ho => ?_⟩
  · exact (items_inj hconforms ha.conforms (hb.symm.trans hbytes)).1
  · obtain ⟨x, hx⟩ := (ha.contains r).1 (Graph.contains_of_object? ho)
    obtain ⟨o', ho', hdenotes, -⟩ := (ha.recorded r x hx).denotes
    obtain rfl := Option.some.inj (ho.symm.trans ho')
    exact ⟨x, hx, Heading.names_file hdenotes.header, fun i text => Entry.names_text hdenotes⟩

/-- The archive of one node. Its symbol section has a text twice, and the name of
    the node has the id of the position of the second one. -/
def repeated : Archive where
  preamble := .current
  symbols := ["a", "a", "b"]
  roots := [⟨0, 1⟩]
  sections := [⟨0, [⟨⟨1, ⟨0, 0⟩, 1, ⟨0, 0⟩, ⟨0, 0⟩, []⟩,
    [.symbol 2, .one ⟨0, 0⟩, .unmade, .unmade]⟩]⟩]

/-- Nothing forbids symbols that are repeated. -/
theorem conforms_repeated : repeated.Conforms (Network.model {}) where
  magic := rfl
  version := by decide
  symbolCount := by decide
  symbols := by decide
  rootCount := by decide
  tags := rfl
  counts := by decide
  entries := by
    intro s hs
    obtain rfl := List.mem_singleton.1 hs
    refine ⟨Network.entity, rfl, fun x hx => ?_⟩
    obtain rfl := List.mem_singleton.1 hx
    exact ⟨by decide, .cons trivial (.cons trivial (.cons trivial (.cons trivial .nil)))⟩

/-- The archive is restored, with another text than stands at the position of the id. -/
theorem exists_restore_repeated : ∃ g roots,
    (Network.model {}).restore (encodeAll repeated.items) = .ok (g, roots) ∧
      (g.object? (Network.ref 0)).map (·.values[0]?) = some (some (.text "b")) := by
  have h : ((Network.model {}).restore (encodeAll repeated.items)).map
      (fun e => (e.1.object? (Network.ref 0)).map (·.values[0]?)) =
        .ok (some (some (.text "b"))) := by decide +kernel
  obtain ⟨⟨g, roots⟩, hrestore, hvalue⟩ := map_eq_ok.1 h
  exact ⟨g, roots, hrestore, hvalue⟩

/-- What is restored from that archive, by the ids in it. -/
theorem names_of_restore_repeated : ∃ g roots,
    (Network.model {}).restore (encodeAll repeated.items) = .ok (g, roots) ∧
      ∀ r o, g.object? r = some o → ∃ x, repeated.entry? r = some x ∧
        repeated.Names x.heading.file.toNat o.header.file ∧
        ∀ (i : Nat) (text : String), o.values[i]? = some (.text text) →
          ∃ id, x.fields[i]? = some (.symbol id) ∧ repeated.Names id.toNat text := by
  obtain ⟨g, roots, hrestore, -⟩ := exists_restore_repeated
  obtain ⟨a, rest, -, -, hunique, hnames⟩ :=
    names_of_restore (Network.built {}) (Network.numbered {}) hrestore
  obtain rfl := hunique repeated [] (List.append_nil _).symm conforms_repeated
  exact ⟨g, roots, hrestore, hnames⟩

/-- The name that is restored is not the text at the position that its id gives. -/
theorem restore_not_by_position : repeated.Conforms (Network.model {}) ∧
    (repeated.entry? (Network.ref 0)).map (·.fields[0]?) = some (some (.symbol 2)) ∧
    repeated.symbols[2 - 1]? = some "a" ∧
    ∃ g roots, (Network.model {}).restore (encodeAll repeated.items) = .ok (g, roots) ∧
      (g.object? (Network.ref 0)).map (·.values[0]?) = some (some (.text "b")) :=
  ⟨conforms_repeated, by decide, by decide, exists_restore_repeated⟩

end Archive

end ObjectModel
