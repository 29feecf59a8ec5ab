import ObjectModel.Policy.Basic

/-!
# The policy of the hardware object model

The entries speak of the entities of the full model. A schema with fewer
entities takes what applies to it (`PolicyTable.restrictTo`).
-/

namespace ObjectModel.PolicyTable

/-- Relations that no walk follows. -/
def hardwareExcludedRelations : List String := [
  "parent", "instance", "module", "interface", "use", "program", "class_defn", "package", "udp"]

/-- Relations that no walk follows from calls. -/
def hardwareExcludedEdges : List (String × String) := [
  ("func_call", "function"), ("method_func_call", "function"), ("task_call", "task"),
  ("method_task_call", "task")]

/-- Members that are not compared. -/
def hardwareCompareExcluded : List String := [
  "id", "type_tag", "file", "def_file", "def_line", "included_file", "full_name", "start_line",
  "start_column", "end_line", "end_column", "body_start_column", "name_start_column",
  "section_start_line", "section_start_column", "section_end_line", "section_end_column",
  "source_start_line", "source_start_column", "source_end_line", "source_end_column"]

/-- Entities that are cloned in a way of their own. -/
def hardwareCustomClones : List (String × CustomClone) := [
  ("func_call", .call), ("task_call", .call), ("method_func_call", .call),
  ("method_task_call", .call), ("sys_func_call", .call), ("sys_task_call", .call),
  ("tf_call", .call), ("function", .taskFunc), ("task", .taskFunc), ("constant", .constant),
  ("gen_scope_array", .genScopeArray), ("hier_path", .hierPath), ("cont_assign", .contAssign)]

/-- Entities whose clones are found by name. -/
def hardwareDedup : List (String × BindingKind) := [
  ("net", .net), ("logic_net", .net), ("array_net", .net), ("packed_array_net", .net),
  ("struct_net", .net), ("enum_net", .net), ("integer_net", .net), ("time_net", .net),
  ("parameter", .param), ("type_parameter", .param)]

/-- Members whose objects are shared. -/
def hardwareAliased : List (String × String) := [
  (anyEntity, "instance"), (anyEntity, "module"), (anyEntity, "interface"),
  (anyEntity, "typespecs"), ("class_defn", "derived_classes"), ("module_inst", "ref_modules"),
  ("disable", "expr"), ("int_typespec", "cast_to_expr"), ("function", "return"),
  ("class_typespec", "class_defn")]

/-- What the collectors file where. -/
def hardwareCollectors : List (String × List (String × String)) := [
  ("scope", [
    ("array_net", "instance_items"), ("array_var", "reg_arrays"),
    ("assert_stmt", "instance_items"), ("assume", "instance_items"),
    ("checker_inst", "instance_items"), ("class_defn", "instance_items"),
    ("concurrent_assertions", "concurrent_assertions"), ("cover", "instance_items"),
    ("gen_var", "gen_vars"), ("immediate_assert", "instance_items"),
    ("immediate_assume", "instance_items"), ("immediate_cover", "instance_items"),
    ("let_decl", "let_decls"), ("logic_var", "regs"), ("named_event", "instance_items"),
    ("named_event", "named_events"), ("named_event_array", "instance_items"),
    ("named_event_array", "named_event_arrays"), ("net", "instance_items"),
    ("param_assign", "param_assigns"), ("parameter", "parameters"), ("program", "instance_items"),
    ("program_array", "instance_items"), ("property_decl", "property_decls"),
    ("property_inst", "instance_items"), ("restrict", "instance_items"),
    ("scope", "internal_scopes"), ("sequence_decl", "sequence_decls"),
    ("sequence_inst", "instance_items"), ("spec_param", "instance_items"),
    ("task_func", "instance_items"), ("type_parameter", "parameters"),
    ("typespec", "instance_items"), ("typespec", "typespecs"), ("variables", "instance_items"),
    ("variables", "variables"), ("virtual_interface_var", "virtual_interface_vars")]),
  ("udp_defn", [("io_decl", "io_decls"), ("table_entry", "table_entries")]),
  ("design", [
    ("class_defn", "all_classes"), ("interface_inst", "all_interfaces"), ("let_decl", "let_decls"),
    ("module_inst", "all_modules"), ("package", "all_packages"), ("param_assign", "param_assigns"),
    ("parameter", "parameters"), ("program", "all_programs"), ("task_func", "task_funcs"),
    ("typespec", "typespecs"), ("udp_defn", "all_udps")]),
  ("class_defn", [
    ("class_defn", "derived_classes"), ("class_typespec", "class_typespecs"),
    ("constraint", "constraints"), ("task_func", "methods"),
    ("task_func_decl", "task_func_decls")]),
  ("class_obj", [
    ("constraint", "constraints"), ("expr", "messages"), ("task_func", "task_funcs"),
    ("thread_obj", "threads")]),
  ("instance", [
    ("array_net", "array_nets"), ("class_defn", "class_defns"), ("net", "nets"),
    ("program", "programs"), ("program_array", "program_arrays"), ("spec_param", "spec_params"),
    ("task_func", "task_funcs"), ("task_func_decl", "task_func_decls")]),
  ("checker_decl", [
    ("checker_port", "ports"), ("cont_assign", "cont_assigns"), ("process_stmt", "process_stmts")]),
  ("checker_inst", [("checker_inst_port", "ports")]),
  ("interface_inst", [
    ("clocking_block", "clocking_blocks"), ("cont_assign", "cont_assigns"),
    ("gen_scope_array", "gen_scope_arrays"), ("gen_stmt", "gen_stmts"),
    ("interface_array", "interface_arrays"), ("interface_inst", "interfaces"),
    ("interface_tf_decl", "interface_tf_decls"), ("mod_path", "mod_paths"),
    ("modport", "modports"), ("port", "ports"), ("process_stmt", "process_stmts"),
    ("tf_call", "sys_task_calls")]),
  ("module_inst", [
    ("alias_stmt", "alias_stmts"), ("clocking_block", "clocking_blocks"),
    ("cont_assign", "cont_assigns"), ("def_param", "def_params"),
    ("gen_scope_array", "gen_scope_arrays"), ("gen_stmt", "gen_stmts"),
    ("interface_array", "interface_arrays"), ("interface_inst", "interfaces"),
    ("io_decl", "io_decls"), ("mod_path", "mod_paths"), ("module_array", "module_arrays"),
    ("module_inst", "modules"), ("port", "ports"), ("primitive", "primitives"),
    ("primitive_array", "primitive_arrays"), ("process_stmt", "process_stmts"),
    ("ref_module", "ref_modules"), ("tchk", "tchks"), ("tf_call", "sys_task_calls")]),
  ("multiclock_sequence_expr", [("clocked_seq", "clocked_seqs")]),
  ("program", [
    ("clocking_block", "clocking_blocks"), ("cont_assign", "cont_assigns"),
    ("gen_scope_array", "gen_scope_arrays"), ("interface_array", "interface_arrays"),
    ("interface_inst", "interfaces"), ("port", "ports"), ("process_stmt", "process_stmts")])]

/-- All entries of the policy. -/
def hardwareEntries : List PolicyEntry :=
  hardwareExcludedRelations.map .excludeRelation ++
  hardwareExcludedEdges.map (fun (entity, relation) => .excludeEdge entity relation) ++
  hardwareCompareExcluded.map .compareExclude ++
  hardwareCustomClones.map (fun (entity, custom) => .entityClone entity (.custom custom)) ++
  hardwareDedup.map (fun (entity, kind) => .entityClone entity (.dedupByName kind)) ++
  hardwareAliased.map (fun (entity, member) => .memberClone entity member .alias) ++
  [.memberClone "ref_obj" "actual_group" (.rebind "name" .referrer),
    .memberClone "ref_var" "actual_group" (.rebind "name" .referrer),
    .memberClone "udp" "udp_defn" (.rebind "def_name" .referrer),
    .memberClone "ref_typespec" "actual_typespec" .uniquify] ++
  hardwareCollectors.flatMap fun (collector, buckets) =>
    buckets.map fun (child, bucket) => .collector collector child bucket

/-- The policy of the hardware object model. -/
def hardware : PolicyTable := empty.addAll hardwareEntries

end ObjectModel.PolicyTable
