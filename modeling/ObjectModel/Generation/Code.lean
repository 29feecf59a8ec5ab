import ObjectModel.Text.Template

/-!
# Generated code

Code is written as a list of lines, each with its depth, so that a piece of
code can be put inside another without counting spaces. `block` puts lines
between braces.

A file is mostly the same for all schemas. Its fixed text is code with holes,
which become the markers of a template (`Code.template`).

* `Code.block`: lines between braces.
* `Method.code`: a function of an object or a store.
* `Code.text`: what is written to a file.
-/

namespace ObjectModel.Generation

/-- A line of code. -/
inductive Line
  | text (depth : Nat) (text : String)
  /-- A marker for whole lines, or none. -/
  | hole (marker : String)
deriving DecidableEq, Repr

/-- A piece of code. -/
abbrev Code := List Line

namespace Code

/-- One line. -/
def line (text : String) : Code := [.text 0 text]

instance : Coe String Code := ⟨line⟩

/-- The place of a marker. -/
def hole (marker : String) : Code := [.hole marker]

/-- Pieces of code one after the other. -/
def all (parts : List Code) : Code := parts.flatten

/-- The line, some steps further in. -/
def moveIn (depth : Nat) : Line → Line
  | .text d text => .text (depth + d) text
  | .hole marker => .hole marker

/-- The code, some steps further in. -/
def indent (depth : Nat) (code : Code) : Code := code.map (moveIn depth)

/-- A line that opens a brace. -/
def opening (head : String) : Code := line (if head = "" then "\x7b" else head ++ " \x7b")

/-- Code in braces after `head`, with `stop` after the closing brace. -/
def blockUpTo (head : String) (body : List Code) (stop : String) : Code :=
  opening head ++ indent 1 (all body) ++ line ("\x7d" ++ stop)

/-- Code in braces after `head`. -/
def block (head : String) (body : List Code) : Code := blockUpTo head body ""

/-- A choice between two pieces of code. -/
def choice (head : String) (body otherwise : List Code) (stop : String) : Code :=
  opening head ++ indent 1 (all body) ++ blockUpTo "\x7d else" otherwise stop

/-- The text of a line, a step in being `width` blanks. -/
def lineText (width : Nat) : Line → String
  | .text depth text =>
    if text = "" then "\n"
    else String.ofList (List.replicate (width * depth) ' ') ++ text ++ "\n"
  | .hole marker => "<" ++ marker ++ ">"

/-- The text of code, a step in being `width` blanks. -/
def textBy (width : Nat) (code : Code) : String := String.join (code.map (lineText width))

/-- The text of code. -/
def text (code : Code) : String := code.textBy 4

/-- The text of code that goes into another piece `depth` steps in. -/
def textAt (depth : Nat) (code : Code) : String := (code.indent depth).text

/-- The fixed text of a file as a template. -/
def template (code : Code) (name : String) : Template := { name, text := code.text }

/-- The comment at the head of a file. -/
def banner (summary : String) : Code := all [
  s!"//! {summary}",
  "//!",
  "//! Generated by hdmgen. Do not edit.",
  ""]

end Code

/-- A function on an object or a store. -/
structure Method where
  /-- What it does, if that is to be told. -/
  comment : Option String := none
  /-- A call is of no use if its result is not looked at. -/
  mustUse : Bool := false
  /-- Visibility and the like. -/
  head : String := "pub fn"
  name : String
  /-- Parameters and result. -/
  signature : String
  body : List Code
deriving DecidableEq, Repr

/-- The code of a function, with a blank line after it. -/
def Method.code (m : Method) : Code :=
  (m.comment.map fun c => Code.line ("/// " ++ c)).getD [] ++
    (if m.mustUse then Code.line "#[must_use]" else []) ++
    Code.block (m.head ++ " " ++ m.name ++ m.signature) m.body ++ Code.line ""

end ObjectModel.Generation
