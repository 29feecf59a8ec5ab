import ObjectModel.Archive.Restore
import ObjectModel.Archive.Save
import ObjectModel.Cloning.Bindings
import ObjectModel.Cloning.Cloner
import ObjectModel.Files.Memory
import ObjectModel.Files.Path
import ObjectModel.Files.Tree
import ObjectModel.Files.Writing
import ObjectModel.Generation.Archive
import ObjectModel.Generation.Blueprint
import ObjectModel.Generation.Clone
import ObjectModel.Generation.Code
import ObjectModel.Generation.Compare
import ObjectModel.Generation.Containers
import ObjectModel.Generation.Generator
import ObjectModel.Generation.Groups
import ObjectModel.Generation.HandleListener
import ObjectModel.Generation.Listener
import ObjectModel.Generation.Objects
import ObjectModel.Generation.Store
import ObjectModel.Generation.TreeDump
import ObjectModel.Generation.TypeTable
import ObjectModel.Generation.WireSchema
import ObjectModel.Graph.Access
import ObjectModel.Graph.Adoption
import ObjectModel.Graph.Basic
import ObjectModel.Graph.Comparison
import ObjectModel.Graph.Error
import ObjectModel.Graph.Layout
import ObjectModel.Graph.Reach
import ObjectModel.Graph.Traversal
import ObjectModel.Graph.Value
import ObjectModel.Header
import ObjectModel.Markup.Event
import ObjectModel.Naming.Basic
import ObjectModel.Naming.Hardware
import ObjectModel.Naming.Spelling
import ObjectModel.Policy.Basic
import ObjectModel.Policy.Check
import ObjectModel.Policy.Document
import ObjectModel.Policy.File
import ObjectModel.Policy.Hardware
import ObjectModel.Proofs.Adoption.Adopting
import ObjectModel.Proofs.Adoption.Conditions
import ObjectModel.Proofs.Adoption.Failing
import ObjectModel.Proofs.Adoption.Filing
import ObjectModel.Proofs.Adoption.Keeping
import ObjectModel.Proofs.Adoption.Lists
import ObjectModel.Proofs.Adoption.Runs
import ObjectModel.Proofs.Archive.Accepting
import ObjectModel.Proofs.Archive.Cutting
import ObjectModel.Proofs.Archive.Format
import ObjectModel.Proofs.Archive.Moments
import ObjectModel.Proofs.Archive.Naming
import ObjectModel.Proofs.Archive.Numbering
import ObjectModel.Proofs.Archive.Reading
import ObjectModel.Proofs.Archive.Resaving
import ObjectModel.Proofs.Archive.Restoring
import ObjectModel.Proofs.Archive.RoundTrip
import ObjectModel.Proofs.Archive.Saved
import ObjectModel.Proofs.Archive.Taking
import ObjectModel.Proofs.Archive.Targets
import ObjectModel.Proofs.Archive.Unique
import ObjectModel.Proofs.Cloning.Closing
import ObjectModel.Proofs.Cloning.Copies
import ObjectModel.Proofs.Cloning.Copying
import ObjectModel.Proofs.Cloning.Deduplicating
import ObjectModel.Proofs.Cloning.Ending
import ObjectModel.Proofs.Cloning.Forgetting
import ObjectModel.Proofs.Cloning.Isomorphism
import ObjectModel.Proofs.Cloning.Leaving
import ObjectModel.Proofs.Cloning.Making
import ObjectModel.Proofs.Cloning.Merging
import ObjectModel.Proofs.Cloning.Noting
import ObjectModel.Proofs.Cloning.Placing
import ObjectModel.Proofs.Cloning.Reaching
import ObjectModel.Proofs.Cloning.Recorded
import ObjectModel.Proofs.Cloning.Replacing
import ObjectModel.Proofs.Cloning.Scopes
import ObjectModel.Proofs.Cloning.Shadowing
import ObjectModel.Proofs.Cloning.Typing
import ObjectModel.Proofs.Cloning.Unbound
import ObjectModel.Proofs.Cloning.Watching
import ObjectModel.Proofs.Comparison.Bisimulation
import ObjectModel.Proofs.Comparison.Demands
import ObjectModel.Proofs.Comparison.Differences
import ObjectModel.Proofs.Comparison.Mirroring
import ObjectModel.Proofs.Comparison.Sorting
import ObjectModel.Proofs.Comparison.Unfolding
import ObjectModel.Proofs.Files.Writing
import ObjectModel.Proofs.Generation.Building
import ObjectModel.Proofs.Generation.Collecting
import ObjectModel.Proofs.Generation.Filling
import ObjectModel.Proofs.Generation.Frames
import ObjectModel.Proofs.Generation.Functions
import ObjectModel.Proofs.Generation.Modules
import ObjectModel.Proofs.Generation.Paths
import ObjectModel.Proofs.Generation.Rebinding
import ObjectModel.Proofs.Generation.Running
import ObjectModel.Proofs.Generation.StructNames
import ObjectModel.Proofs.Generation.Targets
import ObjectModel.Proofs.Generation.TypeNames
import ObjectModel.Proofs.Generation.WireFile
import ObjectModel.Proofs.Generation.WireNames
import ObjectModel.Proofs.Graph.Admitting
import ObjectModel.Proofs.Graph.Design
import ObjectModel.Proofs.Graph.Growth
import ObjectModel.Proofs.Graph.Holding
import ObjectModel.Proofs.Graph.Making
import ObjectModel.Proofs.Graph.Network
import ObjectModel.Proofs.Graph.Objects
import ObjectModel.Proofs.Graph.Reach
import ObjectModel.Proofs.Graph.Renaming
import ObjectModel.Proofs.Graph.Soundness
import ObjectModel.Proofs.Graph.Typing
import ObjectModel.Proofs.Graph.Writing
import ObjectModel.Proofs.Ids.Cloning
import ObjectModel.Proofs.Ids.Issuing
import ObjectModel.Proofs.Ids.Restored
import ObjectModel.Proofs.Ids.Runs
import ObjectModel.Proofs.Naming.Canonical
import ObjectModel.Proofs.Naming.Composed
import ObjectModel.Proofs.Naming.FixedPoints
import ObjectModel.Proofs.Naming.Plurals
import ObjectModel.Proofs.Naming.Words
import ObjectModel.Proofs.Outcome
import ObjectModel.Proofs.Policy.Documents
import ObjectModel.Proofs.Policy.Entries
import ObjectModel.Proofs.Policy.Pairs
import ObjectModel.Proofs.Policy.Restricting
import ObjectModel.Proofs.Schema.Ancestry
import ObjectModel.Proofs.Schema.Chains
import ObjectModel.Proofs.Schema.Closures
import ObjectModel.Proofs.Schema.Cycles
import ObjectModel.Proofs.Schema.Declaring
import ObjectModel.Proofs.Schema.Indices
import ObjectModel.Proofs.Schema.Names
import ObjectModel.Proofs.Schema.Tags
import ObjectModel.Proofs.Search
import ObjectModel.Proofs.SortedMap
import ObjectModel.Proofs.Symbols
import ObjectModel.Proofs.Symbols.Ids
import ObjectModel.Proofs.Text.Markers
import ObjectModel.Proofs.Text.Rendering
import ObjectModel.Proofs.Text.Scanning
import ObjectModel.Proofs.Traversal.Brackets
import ObjectModel.Proofs.Traversal.Completeness
import ObjectModel.Proofs.Traversal.Visits
import ObjectModel.Proofs.Wire.Cutting
import ObjectModel.Proofs.Wire.Reading
import ObjectModel.Proofs.Wire.Sequences
import ObjectModel.Proofs.Wire.Taking
import ObjectModel.Reference
import ObjectModel.Schema.Basic
import ObjectModel.Schema.Check
import ObjectModel.Schema.Declarations
import ObjectModel.Schema.Error
import ObjectModel.Schema.Hierarchy
import ObjectModel.Schema.Resolution
import ObjectModel.SortedMap
import ObjectModel.Symbols
import ObjectModel.Synthetic
import ObjectModel.Text.Case
import ObjectModel.Text.CaseTable
import ObjectModel.Text.Hex
import ObjectModel.Text.Template
import ObjectModel.Wire.Fault
import ObjectModel.Wire.Item
import ObjectModel.Wire.Reader
