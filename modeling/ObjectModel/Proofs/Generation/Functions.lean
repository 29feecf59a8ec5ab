import Mathlib.Data.List.Perm.Basic
import ObjectModel.Generation.Clone
import ObjectModel.Generation.Groups
import ObjectModel.Generation.HandleListener
import ObjectModel.Generation.Listener
import ObjectModel.Generation.Store
import ObjectModel.Generation.TypeTable
import ObjectModel.Proofs.Naming.Composed

/-!
# Functions of generated files

A generated file has the functions of its fixed text (`Code.functions`) and some for
each entity, which are called by the stem of the entity with a prefix. Where stems
are different, such a function is defined once just if no other one has its name
(`count_prefixed_iff`). What can take the name away is, file by file:

* the functions that look up objects, from those that make them
  (`Store.count_makers_iff`);
* the fixed text, from those that clone and visit (`Clone.count_cloners_iff`,
  `Listener.count_visitors_iff`, `HandleListener.count_visitors_iff`);
* nothing, from predicates (`TypeTable.count_predicates`, `Groups.count_predicates`).
-/

namespace ObjectModel.Generation

open Spelling

/-! ## Functions by name -/

/-- A text as it is written to a file. -/
def bytes (text : String) : List UInt8 := text.toByteArray.data.toList

/-- The name of the function that a line declares: what stands between a head and the
    parameters. Fixed texts are long, and evaluated faster by bytes than by letters. -/
def Line.function? : Line → Option String
  | .text _ line => ["fn ", "pub fn ", "pub const fn "].findSome? fun head =>
      ((bytes head).isPrefixOf? (bytes line)).map fun rest =>
        String.ofList ((rest.takeWhile (· ≠ '('.toUInt8)).map fun c => Char.ofNat c.toNat)
  | .hole _ => none

/-- The names of the functions that code declares. -/
def Code.functions (code : Code) : List String := code.filterMap Line.function?

/-- Among the functions of a file, some of which are called by stems with a prefix,
    these are defined once just if their names are not used otherwise. -/
theorem count_prefixed_iff {α : Type} {l : List α} {stem : α → String} (fixed : List String)
    (pre : String) (others : α → List String) (hstems : (l.map stem).Nodup) :
    (∀ e ∈ l, (fixed ++ l.flatMap fun e => (pre ++ stem e) :: others e).count (pre ++ stem e) = 1) ↔
      ∀ e ∈ l, stem e ∉ fixed.filterMap (strip pre) ∧ ∀ d ∈ l, pre ++ stem e ∉ others d := by
  have hnames : (l.map fun e => pre ++ stem e).Nodup :=
    .map_on (fun _ hx _ hy h => List.inj_on_of_nodup_map hstems hx hy
      ((String.append_right_inj pre).1 h)) (.of_map _ hstems)
  have hperm : (fixed ++ l.flatMap fun e => (pre ++ stem e) :: others e).Perm
      (fixed ++ (l.map (fun e => pre ++ stem e) ++ l.flatMap others)) :=
    .append_left _ (List.map_append_flatMap_perm _ _ _).symm
  refine forall₂_congr fun e he => ?_
  have hown : (l.map fun e => pre ++ stem e).count (pre ++ stem e) = 1 :=
    List.count_eq_one_of_mem hnames (List.mem_map_of_mem he)
  rw [hperm.count_eq, List.count_append, List.count_append, hown, ← append_mem_iff]
  -- The name is there once, so it counts once just if there is no other.
  calc _ ↔ fixed.count (pre ++ stem e) = 0 ∧ (l.flatMap others).count (pre ++ stem e) = 0 := by
        omega
    _ ↔ _ := by simp [List.count_eq_zero]

/-- Where no others depend on the entities, only the fixed text can use the names. -/
theorem count_alone_iff {α : Type} {l : List α} {stem : α → String} (fixed : List String)
    (pre : String) (hstems : (l.map stem).Nodup) :
    (∀ e ∈ l, (fixed ++ l.flatMap fun e => [pre ++ stem e]).count (pre ++ stem e) = 1) ↔
      ∀ e ∈ l, stem e ∉ fixed.filterMap (strip pre) := by
  rw [count_prefixed_iff fixed pre (fun _ => []) hstems]
  exact forall₂_congr fun e _ => and_iff_left_of_imp fun _ _ _ => List.not_mem_nil

namespace Store

variable (b : Blueprint)

/-- The fields of the store. -/
def fieldNames : List String := b.concrete.map b.storeField ++ ["last_id"]

/-- The functions on the store. -/
def functionNames : List String :=
  frame.functions ++ b.concrete.flatMap fun e => (methods b e).map (·.name)

variable {b} (hstems : (b.concrete.map b.typeStem).Nodup)

include hstems

/-- The fields of a store differ just if no stem is the name of another field. -/
theorem nodup_fieldNames_iff : (fieldNames b).Nodup ↔
    (∀ e ∈ b.concrete, ∀ d ∈ b.concrete,
      b.storeField e = b.typeStem d → b.typeStem e = b.typeStem d) ∧
    ∀ e ∈ b.concrete, b.typeStem e ≠ "last_id" := by
  have hlast (e : Entity) : b.storeField e = "last_id" ↔ b.typeStem e = "last_id" :=
    escape_eq_iff_of_plain (by decide +kernel)
  rw [fieldNames, List.nodup_append]
  refine and_congr (nodup_map_escape_iff hstems) ?_
  simp [← hlast]

/-- Objects are made by functions of their own unless one that looks up objects is
    called like that. -/
theorem count_makers_iff :
    (∀ e ∈ b.concrete, (functionNames b).count ("make_" ++ b.typeStem e) = 1) ↔
      ∀ e ∈ b.concrete, ∀ d ∈ b.concrete, "make_" ++ b.typeStem e ≠ b.typeStem d ∧
        "make_" ++ b.typeStem e ≠ b.typeStem d ++ "_mut" := by
  have hfield (e d : Entity) :
      "make_" ++ b.typeStem e = b.storeField d ↔ "make_" ++ b.typeStem e = b.typeStem d := by
    rw [eq_comm, Blueprint.storeField, escape_eq_prefixed (by decide +kernel), eq_comm]
  have hfixed : frame.functions.filterMap (strip "make_") = [] := by decide +kernel
  refine (count_prefixed_iff frame.functions "make_"
    (fun d => [b.storeField d, b.typeStem d ++ "_mut"]) hstems).trans ?_
  simp [hfixed, hfield]

end Store

namespace Clone

variable (b : Blueprint)

/-- The functions of a cloner. -/
def functionNames : List String :=
  frame.functions ++ b.concrete.flatMap fun e => (methods b e).map (·.name)

variable {b} (hstems : (b.concrete.map b.typeStem).Nodup)

theorem map_name_methods {e : Entity} : (methods b e).map (·.name) = ("clone_" ++ b.typeStem e) ::
    if (special? b e).isSome then ["generic_" ++ b.typeStem e] else [] := by
  rw [methods]
  cases special? b e <;> rfl

include hstems

/-- Objects are cloned by functions of their own unless the fixed text has one that
    is called like that. -/
theorem count_cloners_iff :
    (∀ e ∈ b.concrete, (functionNames b).count ("clone_" ++ b.typeStem e) = 1) ↔
      ∀ e ∈ b.concrete, b.typeStem e ∉ ["any", "ref", "list"] := by
  have hgeneric (e d : Entity) : "clone_" ++ b.typeStem e ≠ "generic_" ++ b.typeStem d := by
    intro h
    have hfirst := congrArg (·.toList.head?) h
    simp [String.toList_append] at hfirst
  have hfixed : frame.functions.filterMap (strip "clone_") = ["any", "ref", "list"] := by
    decide +kernel
  rw [functionNames, funext fun e => map_name_methods, count_prefixed_iff _ _ _ hstems, hfixed]
  refine forall₂_congr fun e _ => and_iff_left_of_imp fun _ d _ => ?_
  split
  · simpa using hgeneric e d
  · exact List.not_mem_nil

end Clone

namespace Listener

variable (b : Blueprint)

/-- The functions of a listener and of a walk of a store. -/
def functionNames : List String := frame.functions ++ b.concrete.flatMap fun e => [b.visitor e]

variable {b}

theorem count_visitors_iff (hstems : (b.concrete.map b.typeStem).Nodup) :
    (∀ e ∈ b.concrete, (functionNames b).count (b.visitor e) = 1) ↔
      ∀ e ∈ b.concrete, b.typeStem e ∉ ["collection"] := by
  have hfixed : frame.functions.filterMap (strip "visit_") = ["collection"] := by decide +kernel
  rw [functionNames, ← hfixed]
  exact count_alone_iff _ _ hstems

end Listener

namespace HandleListener

variable (b : Blueprint)

/-- The functions of a listener and of a walk through handles. -/
def functionNames : List String := frame.functions ++ b.concrete.flatMap fun e => [b.visitor e]

variable {b}

/-- What can take its name away from a visitor is a
    function for what is visited through handles. -/
theorem count_visitors_iff (hstems : (b.concrete.map b.typeStem).Nodup) :
    (∀ e ∈ b.concrete, (functionNames b).count (b.visitor e) = 1) ↔
      ∀ e ∈ b.concrete, b.typeStem e ∉ ["single", "collection"] := by
  have hfixed : frame.functions.filterMap (strip "visit_") = ["single", "collection"] := by
    decide +kernel
  rw [functionNames, ← hfixed]
  exact count_alone_iff _ _ hstems

end HandleListener

namespace TypeTable

variable (b : Blueprint)

/-- The functions of the table of types, and the predicates of all entities. -/
def functionNames : List String :=
  frame.functions ++ b.schema.entities.flatMap fun e => ["is_" ++ b.typeStem e]

variable {b}

theorem count_predicates (hstems : (b.schema.entities.map b.typeStem).Nodup) :
    ∀ e ∈ b.schema.entities, (functionNames b).count ("is_" ++ b.typeStem e) = 1 := by
  have hfixed : frame.functions.filterMap (strip "is_") = [] := by decide +kernel
  rw [functionNames, count_alone_iff _ _ hstems, hfixed]
  exact fun _ _ => List.not_mem_nil

end TypeTable

namespace Groups

variable (b : Blueprint)

/-- The predicates of all groups. -/
def functionNames : List String :=
  b.schema.groups.flatMap fun g => ["is_" ++ groupStem g.name]

variable {b}

theorem count_predicates (hstems : (b.schema.groups.map fun g => groupStem g.name).Nodup) :
    ∀ g ∈ b.schema.groups, (functionNames b).count ("is_" ++ groupStem g.name) = 1 :=
  (count_alone_iff [] "is_" hstems).2 fun _ _ => List.not_mem_nil

end Groups

end ObjectModel.Generation
