import ObjectModel.SortedMap

/-!
# Symbol tables

Texts are stored once and named by ids: one for the first text interned, two
for the next new one, and so on. Id zero is the empty text, which takes no
place in the table. A text is found by an index, which is kept in step with the
list of texts (`SymbolTable.indexed`).

* `SymbolTable.intern`: the id of a text, entering it if it is new.
* `SymbolTable.find?`: the id of a text that has one.
* `SymbolTable.resolve?`: the text of an id.
-/

namespace ObjectModel

/-- The texts interned so far, in order of first occurrence. -/
structure SymbolTable where
  texts : List String
  /-- The ids by which the texts are found. -/
  index : SortedMap String Nat
  /-- The id of a text is its position, counted from one. -/
  indexed : ∀ text, index.get? text = (texts.idxOf? text).map (· + 1)
deriving DecidableEq

/-- A new element of a list stands at its end, all others where they stood. -/
theorem idxOf?_concat {α : Type} [DecidableEq α] {l : List α} {a : α} (h : a ∉ l) (b : α) :
    (l ++ [a]).idxOf? b = if b = a then some l.length else l.idxOf? b := by
  rw [List.idxOf?, List.findIdx?_append, ← List.idxOf?]
  split
  · rename_i hb
    subst hb
    rw [List.idxOf?_eq_none_iff.2 h]
    simp
  · rename_i hb
    simp [Ne.symm hb]

namespace SymbolTable

/-- The table without texts. -/
def empty : SymbolTable := ⟨[], ∅, fun _ => rfl⟩

instance : EmptyCollection SymbolTable := ⟨empty⟩

@[simp]
theorem texts_empty : (∅ : SymbolTable).texts = [] := rfl

instance : Inhabited SymbolTable := ⟨empty⟩

/-- The id of a text. -/
def find? (t : SymbolTable) (text : String) : Option Nat :=
  if text = "" then some 0 else t.index.get? text

theorem find?_eq (t : SymbolTable) (text : String) :
    t.find? text = if text = "" then some 0 else (t.texts.idxOf? text).map (· + 1) := by
  rw [find?, t.indexed]

/-- Only a text that is not in the table and not empty has no id. -/
theorem find?_eq_none {t : SymbolTable} {text : String} :
    t.find? text = none ↔ text ≠ "" ∧ text ∉ t.texts := by
  rw [find?_eq]
  split <;> simp_all

/-- The table with a new text at its end. -/
def enter (t : SymbolTable) (text : String) (h : text ∉ t.texts) : SymbolTable where
  texts := t.texts ++ [text]
  index := t.index.insert text (t.texts.length + 1)
  indexed s := by
    rw [SortedMap.get?_insert, t.indexed, idxOf?_concat h]
    split
    · rfl
    · rfl

/-- The id of a text, and the table in which it has that id. -/
def intern (t : SymbolTable) (text : String) : Nat × SymbolTable :=
  match h : t.find? text with
  | some id => (id, t)
  | none => (t.texts.length + 1, t.enter text (find?_eq_none.1 h).2)

/-- The table after interning a list of texts. -/
def internAll (t : SymbolTable) (texts : List String) : SymbolTable :=
  texts.foldl (fun t text => (t.intern text).2) t

/-- The text of an id. -/
def resolve? (t : SymbolTable) : Nat → Option String
  | 0 => some ""
  | id + 1 => t.texts[id]?

/-- The number of texts, the empty one not counted. -/
def size (t : SymbolTable) : Nat := t.texts.length

/-- The ids with their texts, ascending. -/
def toList (t : SymbolTable) : List (Nat × String) :=
  t.texts.zipIdx.map fun e => (e.2 + 1, e.1)

end SymbolTable

end ObjectModel
