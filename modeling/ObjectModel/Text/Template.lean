/-!
# Templates

A template is a text with *markers* in it: names in capitals between angle
brackets, such as `<BANNER>`. Markers are filled one by one, and once all of
them are, the template is rendered.

Rendering goes through the markers in order of their first occurrence and puts
the value of each for all that reads like it in the text so far. What earlier
values brought in is text like any other: a marker in it is replaced if its
turn is still to come, and stays if not.

* `Template.markers`: the markers of a template.
* `Template.fill`: gives a value to one of them.
* `Template.render`: the text with all values put in.
-/

namespace ObjectModel

/-- What can go wrong with a template. -/
inductive TemplateError
  /-- There is no such marker to fill. -/
  | unknownMarker (template marker : String)
  | unfilledMarker (template marker : String)
deriving DecidableEq, Repr

/-- An error in words. -/
def TemplateError.message : TemplateError → String
  | unknownMarker template marker => s!"template '{template}': unknown placeholder <{marker}>"
  | unfilledMarker template marker =>
    s!"template '{template}': placeholder <{marker}> was not filled"

/-- A template and what its markers are filled with. -/
structure Template where
  name : String
  text : String
  /-- The values so far; of two for one marker the first counts. -/
  values : List (String × String) := []
deriving DecidableEq, Repr

namespace Template

/-- A character that the name of a marker may have. -/
def isMarkerChar (c : Char) : Bool := c.isUpper || c.isDigit || c == '_'

/-- The name of a marker whose opening bracket is just before the text. It has
    three characters at least and starts with a letter. -/
def markerAfterBracket? (text : List Char) : Option String :=
  let name := text.takeWhile isMarkerChar
  if (text.dropWhile isMarkerChar).head? = some '>' ∧ 3 ≤ name.length ∧ name.head?.any Char.isUpper
  then some (String.ofList name)
  else none

/-- The markers in a text after those in `found`, which are kept the last one
    first. -/
def markersFrom (found : List String) : List Char → List String
  | [] => found.reverse
  | c :: r =>
    match if c = '<' then markerAfterBracket? r else none with
    | some name => markersFrom (if name ∈ found then found else name :: found) r
    | none => markersFrom found r

/-- The markers of a template, in order of their first occurrence. -/
def markers (t : Template) : List String := markersFrom [] t.text.toList

/-- Puts `value` for each occurrence of `old` in a text, from the left. What
    comes before is in `done`, its end first. The next `skip` characters belong
    to an occurrence that was replaced. -/
def substituteFrom (old value : List Char) (skip : Nat) (done : List Char) : List Char → List Char
  | [] => done.reverse
  | c :: r =>
    match skip with
    | n + 1 => substituteFrom old value n done r
    | 0 =>
      if old.isPrefixOf (c :: r) then
        substituteFrom old value (old.length - 1) (value.reverse ++ done) r
      else substituteFrom old value 0 (c :: done) r

/-- The text with `value` for each occurrence of `marker` in its brackets. -/
def substitute (text marker value : String) : String :=
  String.ofList (substituteFrom ("<" ++ marker ++ ">").toList value.toList 0 [] text.toList)

variable (t : Template)

/-- Fills a marker, anew if it was filled before. -/
def fill (marker value : String) : Except TemplateError Template :=
  if marker ∈ t.markers then pure { t with values := (marker, value) :: t.values }
  else throw (.unknownMarker t.name marker)

/-- The text with all values put in. -/
def render : Except TemplateError String :=
  t.markers.foldlM (fun text marker =>
    match t.values.lookup marker with
    | some value => pure (substitute text marker value)
    | none => throw (.unfilledMarker t.name marker)) t.text

/-- Fills markers in turn and renders the result. -/
def fillAll (values : List (String × String)) : Except TemplateError String := do
  (← values.foldlM (fun t e => t.fill e.1 e.2) t).render

end Template

end ObjectModel
