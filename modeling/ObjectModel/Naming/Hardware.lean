import ObjectModel.Naming.Basic

/-!
# Names in the hardware object model

The irregular names of the hardware object model, which are the default.
-/

namespace ObjectModel.Naming

/-- Irregular names of entities in the hardware object model. -/
def hardwareClasses : Overrides := [
  ("AliasStmt", "Alias"),
  ("AssertStmt", "Assert"),
  ("ClockingIoDecl", "ClockingIODecl"),
  ("InterfaceInst", "Interface"),
  ("InterfaceTfDecl", "InterfaceTFDecl"),
  ("IoDecl", "IODecl"),
  ("ProcessStmt", "Process"),
  ("TfCall", "TFCall"),
  ("ThreadObj", "Thread")]

/-- Irregular names of members in the hardware object model. -/
def hardwareMembers : Overrides := [
  ("AliasStmt", "Alias"),
  ("AliasStmts", "Aliases"),
  ("AssertStmt", "Assert"),
  ("AssertStmts", "Asserts"),
  ("Childrens", "Children"),
  ("ClockingIoDecl", "ClockingIODecl"),
  ("ClockingIoDecls", "ClockingIODecls"),
  ("InterfaceTfDecl", "InterfaceTFDecl"),
  ("InterfaceTfDecls", "InterfaceTFDecls"),
  ("IoDecl", "IODecl"),
  ("IoDecls", "IODecls"),
  ("ProcessStmt", "Process"),
  ("ProcessStmts", "Processes"),
  ("TableEntrys", "TableEntries"),
  ("TfCallArgs", "TFCallArgs"),
  ("ThreadObj", "Thread"),
  ("Indexs", "Indexes"),
  ("DpiPure", "DPIPure"),
  ("DpiContext", "DPIContext"),
  ("DpiCstr", "DPICStr"),
  ("DpiCIdentifier", "DPICIdentifier")]

/-- The naming of the hardware object model. Call sites are spelt `tfCall` in
    the wire schema and `TFCall` elsewhere. -/
def hardware : Naming where
  classes := hardwareClasses
  accessors := ("TfCall", "TFCall") :: hardwareMembers
  members := hardwareMembers

end ObjectModel.Naming
