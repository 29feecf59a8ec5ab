import ObjectModel.Policy.Document

/-!
# Policy files

A policy document may be kept in a file. The file has to be there, and to hold
UTF-8.
-/

namespace ObjectModel

/-- What keeps a policy from being read from a file. -/
inductive PolicyFileError
  | unreadable
  | document (e : DocumentError)
deriving DecidableEq, Repr

/-- An error in words. -/
def PolicyFileError.message : PolicyFileError → String
  | unreadable => "the file cannot be read"
  | document e => "policy parse error: " ++ e.message

/-- The table in a file, given its bytes if there is one. -/
def PolicyTable.ofFile (read : Markup.Reader) (bytes : Option (List UInt8)) :
    Except PolicyFileError PolicyTable :=
  match bytes.bind fun bytes => String.fromUTF8? ⟨bytes.toArray⟩ with
  | none => throw .unreadable
  | some document => (PolicyTable.ofDocument read document).mapError .document

end ObjectModel
