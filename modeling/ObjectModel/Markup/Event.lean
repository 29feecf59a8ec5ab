/-!
# Tags and their readers

What a document of tags amounts to for those who do not care for its text: the
tags in order (`Event`), each with its name and attributes. How tags stand in a
text is up to a reader (`Reader`), which also tells whether the text is well
formed.
-/

namespace ObjectModel.Markup

/-- A tag that opens or is empty. -/
structure Tag where
  name : String
  /-- The keys and values, in order. -/
  attributes : List (String × String) := []
deriving DecidableEq, Repr

/-- A tag in a document. -/
inductive Event
  /-- A tag that opens. -/
  | opening (tag : Tag)
  /-- A tag that opens and closes at once. -/
  | empty (tag : Tag)
  /-- A tag that closes. -/
  | closing (name : String)
deriving DecidableEq, Repr

/-- The value of an attribute, the last one if there are several. -/
def Tag.attribute? (t : Tag) (key : String) : Option String := t.attributes.reverse.lookup key

/-- What a reader finds in a document. -/
structure Reading where
  /-- The tags, up to the first place that is not well formed. -/
  events : List Event
  /-- There is no such place. -/
  complete : Bool := true
deriving DecidableEq, Repr

/-- A reader of documents. -/
abbrev Reader := String → Reading

/-- The reader of which it is known what it finds in some documents. -/
def Reader.ofReadings (readings : List (String × Reading)) : Reader := fun document =>
  (readings.lookup document).getD { events := [], complete := false }

end ObjectModel.Markup
