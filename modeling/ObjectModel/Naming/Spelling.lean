import ObjectModel.Text.Case

/-!
# Spellings of a name

Schemas spell names in snake case. Generated declarations spell them with
capitals: every word starts with its upper case, and the underscores go
(`pascal`). `snake` guesses the words back: a capital starts a word after a
lower-case letter or a digit, and the last of several capitals does where a
lower-case letter follows it.
-/

namespace ObjectModel.Spelling

/-- Drops underscores and raises the letter after each, and the first one if
    `start` is set. -/
def pascalChars (start : Bool) : List Char → List Char
  | [] => []
  | c :: r =>
    if c = '_' then pascalChars true r
    else (if start then upperCase c else [c]) ++ pascalChars false r

/-- The name with capitals in place of underscores. -/
def pascal (raw : String) : String := String.ofList (pascalChars true raw.toList)

/-- A word starts at a capital between `before` and `after`. -/
def startsWord (before after : Option Char) : Bool :=
  before.any fun b =>
    b.isLower || b.isDigit || (b.isUpper && after.any Char.isLower)

/-- Lowers capitals, with an underscore in front of those that start a word. -/
def snakeChars (before : Option Char) : List Char → List Char
  | [] => []
  | c :: r =>
    (if c.isUpper then
      if startsWord before r.head? then ['_', c.toLower] else [c.toLower]
    else [c]) ++ snakeChars (some c) r

/-- The name in snake case. -/
def snake (name : String) : String := String.ofList (snakeChars none name.toList)

/-- The name with its first letter lowered. -/
def lowerFirst (name : String) : String :=
  match name.toList with
  | [] => ""
  | c :: r => String.ofList (lowerCase c ++ r)

/-- Keywords of the generated language that may be written raw. -/
def rawKeywords : List String := [
  "abstract", "as", "async", "await", "become", "box", "break", "const", "continue", "do",
  "dyn", "else", "enum", "extern", "false", "final", "fn", "for", "gen", "if", "impl", "in",
  "let", "loop", "macro", "match", "mod", "move", "mut", "override", "priv", "pub", "ref",
  "return", "static", "struct", "trait", "true", "try", "type", "typeof", "unsafe",
  "unsized", "use", "virtual", "where", "while", "yield"]

/-- Keywords of the generated language that may not. -/
def reservedKeywords : List String := ["crate", "self", "super", "Self"]

/-- The name as an identifier: a keyword is marked raw or, where that is not
    allowed, given an underscore. -/
def escape (name : String) : String :=
  if name ∈ reservedKeywords then name ++ "_"
  else if name ∈ rawKeywords then "r#" ++ name
  else name

end ObjectModel.Spelling
